/-
  ByteLayout.Text.Escape
  ──────────────────────
  **ESCAPES IN A STRING.**

  The body of a string stands for bytes.  A backslash with one of the
  letters `n` `r` `t`, the digit `0`, another backslash or a quotation mark
  stands for one byte, and so does a backslash with `x` and a number of two
  bytes in base sixteen.  A backslash that starts none of these stands for
  itself, as every other byte does.

  The two bytes after `x` are read as any number in base sixteen is, with a
  size of 256; so a plus sign may take the place of the first digit.
-/
import ByteLayout.Token.Base

namespace ByteLayout.Escape

/-- The byte that a backslash and one byte stand for. -/
def single? (b : UInt8) : Option UInt8 :=
  if b = 'n'.toUInt8 then some '\n'.toUInt8
  else if b = 'r'.toUInt8 then some '\r'.toUInt8
  else if b = 't'.toUInt8 then some '\t'.toUInt8
  else if b = '0'.toUInt8 then some 0
  else if b = backslash then some backslash
  else if b = quotationMark then some quotationMark
  else none

/-- The byte that a backslash, an `x` and two bytes stand for. -/
def pair? (h l : UInt8) : Option UInt8 :=
  (Base.hexadecimal.numeralBelow? UInt8.size [h, l]).map UInt8.ofNat

/-- The byte that the text after a backslash stands for together with it, and
the text after the escape. -/
def escape? : List UInt8 → Option (UInt8 × List UInt8)
  | [] => none
  | c :: rest =>
    match single? c with
    | some b => some (b, rest)
    | none =>
      match rest with
      | h :: l :: rest =>
        if c = 'x'.toUInt8 then (pair? h l).map (·, rest) else none
      | _ => none

/-- An escape uses up bytes, which is why decoding comes to an end. -/
theorem length_lt_of_escape? {bs rest : List UInt8} {b : UInt8}
    (h : escape? bs = some (b, rest)) : rest.length < bs.length := by
  unfold escape? at h
  split at h
  · cases h
  · split at h
    · cases h; simp
    · split at h
      · split at h
        · simp only [Option.map_eq_some_iff, Prod.mk.injEq] at h
          obtain ⟨_, _, _, rfl⟩ := h
          simp only [List.length_cons]
          omega
        · cases h
      · cases h

/-- The bytes that the body of a string stands for. -/
def decode : List UInt8 → List UInt8
  | [] => []
  | b :: bs =>
    if b = backslash then
      match _h : escape? bs with
      | some (d, rest) => d :: decode rest
      | none => b :: decode bs
    else b :: decode bs
termination_by bs => bs.length
decreasing_by
  · have := length_lt_of_escape? _h
    simp only [List.length_cons]
    omega
  · simp
  · simp

end ByteLayout.Escape
