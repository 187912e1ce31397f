/-
  ByteLayout.Proofs.Quoted
  ────────────────────────
  **WHERE A STRING ENDS.**

  The escapes in the body of a string pair each backslash with the byte after
  it, from left to right (`Escapes`).  The reading of tokens looks at the last
  two bytes instead: a quotation mark closes unless exactly one backslash
  comes right before it.  This module compares the two.

  They agree on every quotation mark that comes within a string: it is
  escaped.  They differ on runs of three backslashes or more.  A body that is
  made of characters and escapes is read back as one string exactly if no
  escaped backslash comes right before an escaped quotation mark
  (`isString_quoted_iff`), and a string ends before its escapes do exactly if
  its body ends in three backslashes of which the first is not escaped
  (`IsString.exists_body`).
-/
import ByteLayout.Proofs.Spelling

namespace ByteLayout

/-! ## §1. Bodies from left to right. -/

/-- The bytes end in a backslash that is not itself escaped, where each
backslash escapes the byte after it. -/
def Escapes (bs : List UInt8) : Bool :=
  bs.foldl (fun escaping b => !escaping && b = backslash) false

@[simp] theorem not_escapes_nil : Escapes [] = false := rfl

@[simp] theorem escapes_concat (bs : List UInt8) (b : UInt8) :
    Escapes (bs ++ [b]) = (!Escapes bs && b = backslash) := by
  simp [Escapes]

/-- What escapes the next byte is a backslash. -/
theorem eq_concat_of_escapes {bs : List UInt8} (h : Escapes bs) :
    ∃ init, bs = init ++ [backslash] ∧ ¬ Escapes init := by
  rcases List.eq_nil_or_concat bs with rfl | ⟨init, b, rfl⟩
  · cases h
  · rw [List.concat_eq_append, escapes_concat] at h
    obtain ⟨hinit, rfl⟩ : Escapes init = false ∧ b = backslash := by simpa using h
    exact ⟨init, List.concat_eq_append, by simp [hinit]⟩

/-- A string's body, between its quotation marks. -/
theorem isString_iff {bs : List UInt8} :
    IsString bs ↔
      ∃ body, bs = quotationMark :: (body ++ [quotationMark])
        ∧ IsOpenString (quotationMark :: body)
        ∧ ¬ EndsEscaping (quotationMark :: body) := by
  constructor
  · intro hc
    obtain ⟨hfirst, j, hl, hj, hmin⟩ := hc
    obtain ⟨body, last, rfl⟩ : ∃ body last, bs = quotationMark :: (body ++ [last]) := by
      cases bs with
      | nil => cases hfirst
      | cons b rest =>
        cases Option.some.inj hfirst
        rcases List.eq_nil_or_concat rest with rfl | ⟨body, last, rfl⟩
        · have := hj.1
          simp only [List.length_cons, List.length_nil] at hl
          omega
        · exact ⟨body, last, by rw [List.concat_eq_append]⟩
    -- The first quotation mark that closes is the last byte.
    obtain rfl : j = (quotationMark :: body).length := by simpa using hl.symm
    rw [← List.cons_append] at hj hmin ⊢
    obtain ⟨rfl, hends⟩ := (closesAt_concat_length (List.cons_ne_nil _ _)).1 hj
    refine ⟨body, rfl, ⟨rfl, fun i hi => ?_⟩, hends⟩
    exact hmin i hi.lt_length ((closesAt_append hi.lt_length).2 hi)
  · intro hc
    obtain ⟨body, rfl, hopen, hends⟩ := hc
    exact hopen.close hends

/-- What the reading of tokens looks at, as the last bytes of the body: the
opening quotation mark is no backslash. -/
theorem endsEscaping_concat_iff {body : List UInt8} {b : UInt8} :
    EndsEscaping (quotationMark :: (body ++ [b])) ↔
      b = backslash ∧ body.getLast? ≠ some backslash := by
  have hlast : (quotationMark :: body).getLast? = some backslash ↔
      body.getLast? = some backslash := by
    rw [List.getLast?_cons, Option.some_inj]
    cases body.getLast? with
    | none => decide
    | some c => exact Option.some_inj.symm
  unfold EndsEscaping
  rw [← List.cons_append, getElem?_concat_before (List.cons_ne_nil _ _),
    ← List.getLast?_eq_getElem?, ← List.getLast?_eq_getElem?, ne_eq, hlast,
    List.getLast?_concat, Option.some_inj]

/-- One backslash after none escapes the next byte, in whatever body. -/
theorem escapes_of_endsEscaping {body : List UInt8}
    (h : EndsEscaping (quotationMark :: body)) : Escapes body := by
  rcases List.eq_nil_or_concat body with rfl | ⟨init, b, rfl⟩
  · exact absurd h.1 (by decide)
  · rw [List.concat_eq_append] at h ⊢
    obtain ⟨rfl, hinit⟩ := endsEscaping_concat_iff.1 h
    have hnot : Escapes init = false := by
      by_contra hescapes
      obtain ⟨p, rfl, -⟩ := eq_concat_of_escapes (by simpa using hescapes)
      exact hinit List.getLast?_concat
    simp [hnot]

/-- A quotation mark within an open string is escaped. -/
theorem IsOpenString.escapes_of_prefix {body pre : List UInt8}
    (h : IsOpenString (quotationMark :: body))
    (hpre : pre ++ [quotationMark] <+: body) : Escapes pre := by
  obtain ⟨rest, rfl⟩ := hpre
  have hnot : ¬ ClosesAt ((quotationMark :: pre) ++ [quotationMark])
      (quotationMark :: pre).length := by
    intro hc
    exact h.2 _ ((closesAt_append hc.lt_length).2 hc)
  rw [closesAt_concat_length (List.cons_ne_nil _ _)] at hnot
  exact escapes_of_endsEscaping (by simpa using hnot)

/-- A body escapes the quotation mark that closes it nevertheless exactly if
it ends in three backslashes of which the first is not escaped. -/
theorem escapes_iff_of_closes {body : List UInt8}
    (h : ¬ EndsEscaping (quotationMark :: body)) :
    Escapes body ↔
      ∃ init, body = init ++ [backslash, backslash, backslash] ∧ ¬ Escapes init := by
  constructor
  · intro he
    obtain ⟨before, rfl, hbefore⟩ := eq_concat_of_escapes he
    -- The byte before the last is a backslash, and as it leaves the last one
    -- free to escape it is itself escaped.
    have hlast : before.getLast? = some backslash := by
      by_contra hne
      exact h (endsEscaping_concat_iff.2 ⟨rfl, hne⟩)
    obtain ⟨mid, rfl⟩ := List.getLast?_eq_some_iff.1 hlast
    have hmid : Escapes mid := by simpa using hbefore
    obtain ⟨init, rfl, hinit⟩ := eq_concat_of_escapes hmid
    exact ⟨init, by simp, hinit⟩
  · intro hc
    obtain ⟨init, rfl, hinit⟩ := hc
    have hsplit : init ++ [backslash, backslash, backslash]
        = init ++ [backslash] ++ [backslash] ++ [backslash] := by simp
    rw [hsplit, escapes_concat, escapes_concat, escapes_concat]
    simp [hinit]

/-- Within a string every quotation mark is escaped, and the one that closes
it is not, unless three backslashes come before it. -/
theorem IsString.exists_body {bs : List UInt8} (h : IsString bs) :
    ∃ body, bs = quotationMark :: (body ++ [quotationMark])
      ∧ (∀ pre, pre ++ [quotationMark] <+: body → Escapes pre)
      ∧ (Escapes body ↔ ∃ init,
          body = init ++ [backslash, backslash, backslash] ∧ ¬ Escapes init) := by
  obtain ⟨body, rfl, hopen, hends⟩ := isString_iff.1 h
  exact ⟨body, rfl, fun pre hpre => hopen.escapes_of_prefix hpre,
    escapes_iff_of_closes hends⟩

/-! ## §2. Bodies made of characters and escapes. -/

/-- A part of a string's body. -/
inductive BodyPart where
  /-- A character that is neither a quotation mark nor a backslash. -/
  | plain (c : Char) (hc : c ≠ '\x22' ∧ c ≠ '\x5c')
  /-- A backslash and the ASCII character that it escapes. -/
  | escape (c : Char) (hc : c.toNat < 128)

namespace BodyPart

/-- The escape of a backslash. -/
def backslash : BodyPart :=
  .escape '\x5c' (by decide)

/-- The escape of a quotation mark. -/
def quotationMark : BodyPart :=
  .escape '\x22' (by decide)

/-- The characters of a part. -/
def chars : BodyPart → List Char
  | .plain c _ => [c]
  | .escape c _ => ['\x5c', c]

/-- The bytes of a part. -/
def bytes (part : BodyPart) : List UInt8 :=
  part.chars.flatMap String.utf8EncodeChar

/-- An escaped character is a backslash and one byte. -/
theorem bytes_escape {c : Char} (hc : c.toNat < 128) :
    (escape c hc).bytes = [ByteLayout.backslash, UInt8.ofNat c.toNat] := by
  simp [bytes, chars, Utf8.encode_of_ascii hc]
  rfl

/-- A character that is neither a quotation mark nor a backslash has no byte of
these in it. -/
theorem ne_of_mem_bytes_plain {c : Char} {hc : c ≠ '\x22' ∧ c ≠ '\x5c'} {b : UInt8}
    (hb : b ∈ (plain c hc).bytes) :
    b ≠ ByteLayout.quotationMark ∧ b ≠ ByteLayout.backslash := by
  have hb' : b ∈ String.utf8EncodeChar c := by simpa [bytes, chars] using hb
  constructor
  · intro hquote
    subst hquote
    exact hc.1 (Char.toNat_inj.1 (Utf8.toNat_of_mem_encode hb' (by decide)))
  · intro hslash
    subst hslash
    exact hc.2 (Char.toNat_inj.1 (Utf8.toNat_of_mem_encode hb' (by decide)))

/-- Every part is written as one byte or more. -/
theorem bytes_ne_nil (part : BodyPart) : part.bytes ≠ [] := by
  have h (c : Char) : String.utf8EncodeChar c ≠ [] := by
    rw [← List.length_pos_iff, String.length_utf8EncodeChar]
    exact c.utf8Size_pos
  cases part <;> simp [bytes, chars, h]

end BodyPart

/-- The text of a body between quotation marks. -/
def quoted (parts : List BodyPart) : String :=
  String.ofList ('\x22' :: (parts.flatMap BodyPart.chars ++ ['\x22']))

/-- The bytes of a quoted text are those of its parts, between two quotation
marks. -/
theorem bytes_quoted (parts : List BodyPart) :
    Utf8.bytes (quoted parts)
      = quotationMark :: (parts.flatMap BodyPart.bytes ++ [quotationMark]) := by
  simp [quoted, Utf8.bytes_ofList, List.flatMap_assoc]
  rfl

/-! ## §3. Which bodies are read back. -/

/-- How far a string has come after more bytes, as long as it takes them. -/
def Quoting.pushAll? (q : Quoting) : List UInt8 → Option Quoting
  | [] => some q
  | b :: bs => if q = .closed then none else (q.push b).pushAll? bs

/-- Bytes complete a string if it takes all of them, and is closed then. -/
theorem Quoting.Fits.isString_append_iff {q : Quoting} {taken rest : List UInt8}
    (h : q.Fits taken) :
    IsString (taken ++ rest) ↔ q.pushAll? rest = some .closed := by
  -- The induction is on the bytes ahead, which keep the progress in step with
  -- those that are taken (`fits_push`).
  induction rest generalizing q taken with
  | nil =>
    rw [List.append_nil, pushAll?, Option.some_inj]
    constructor
    · intro hs
      by_contra hq
      exact hs.not_isOpenString [] (by simpa using h.isOpenString hq)
    · intro hq
      subst hq
      exact h
  | cons b rest ih =>
    rw [pushAll?]
    by_cases hq : q = .closed
    · -- A whole string is no shorter part of another.
      subst hq
      simp only [if_true, reduceCtorEq, iff_false]
      exact fun hs => hs.not_isString_prefix (List.cons_ne_nil b rest) h
    · rw [if_neg hq, ← ih (fits_push h hq b), List.append_assoc]
      rfl

namespace Quoting

/-- Between two parts of a body a string has come this far. -/
def Between (q : Quoting) : Prop :=
  q = .plain ∨ q = .backslashes

/-- Once a string is closed it takes no more bytes. -/
theorem pushAll?_closed_of_ne_nil {bs : List UInt8} (h : bs ≠ []) :
    closed.pushAll? bs = none := by
  obtain ⟨b, bs, rfl⟩ := List.exists_cons_of_ne_nil h
  rw [pushAll?, if_pos rfl]

variable {q : Quoting} {bs rest : List UInt8}

/-- Bytes that are neither quotation marks nor backslashes leave no trace. -/
theorem pushAll?_of_plain (hq : q.Between) (hne : bs ≠ [])
    (h : ∀ b ∈ bs, b ≠ ByteLayout.quotationMark ∧ b ≠ ByteLayout.backslash) :
    q.pushAll? (bs ++ rest) = plain.pushAll? rest := by
  induction bs generalizing q with
  | nil => exact absurd rfl hne
  | cons b bs ih =>
    obtain ⟨⟨hquote, hslash⟩, hbs⟩ := List.forall_mem_cons.1 h
    have hpush : q.push b = .plain := by
      rcases hq with rfl | rfl <;> simp [push, hquote, hslash]
    have hclosed : q ≠ .closed := by
      rcases hq with rfl | rfl <;> decide
    rw [List.cons_append, pushAll?, if_neg hclosed, hpush]
    -- The last byte leaves a plain string, and so does every one before it.
    by_cases hnil : bs = []
    · rw [hnil, List.nil_append]
    · exact ih (.inl rfl) hnil hbs

/-- A plain character leaves the string between two parts. -/
theorem pushAll?_plainPart (hq : q.Between) {c : Char}
    (hc : c ≠ '\x22' ∧ c ≠ '\x5c') :
    q.pushAll? ((BodyPart.plain c hc).bytes ++ rest) = plain.pushAll? rest :=
  pushAll?_of_plain hq (BodyPart.bytes_ne_nil _)
    (fun _ hb => BodyPart.ne_of_mem_bytes_plain hb)

/-- The second byte of an escape is looked at afresh if it comes after two
backslashes. -/
theorem pushAll?_escape (hq : q.Between) {c : Char} (hc : c.toNat < 128) :
    q.pushAll? ((BodyPart.escape c hc).bytes ++ rest)
      = (if c = '\x5c' then backslashes
          else if c = '\x22' ∧ q = .backslashes then closed
          else plain).pushAll? rest := by
  have hbyte (d : Char) (hd : d.toNat < 128) :
      UInt8.ofNat c.toNat = UInt8.ofNat d.toNat ↔ c = d := by
    rw [← UInt8.toNat_inj, UInt8.toNat_ofNat', UInt8.toNat_ofNat',
      Nat.mod_eq_of_lt (by omega), Nat.mod_eq_of_lt (by omega), Char.toNat_inj]
  have hslash : UInt8.ofNat c.toNat = ByteLayout.backslash ↔ c = '\x5c' :=
    hbyte '\x5c' (by decide)
  have hquote : UInt8.ofNat c.toNat = ByteLayout.quotationMark ↔ c = '\x22' :=
    hbyte '\x22' (by decide)
  rw [BodyPart.bytes_escape]
  rcases hq with rfl | rfl <;>
    simp [pushAll?, push, hslash, hquote]

/-- From between two parts, the parts ahead and a quotation mark complete a
string unless an escaped quotation mark comes after two backslashes. -/
theorem pushAll?_parts (hq : q.Between) (parts : List BodyPart) :
    q.pushAll? (parts.flatMap BodyPart.bytes ++ [ByteLayout.quotationMark])
        = some .closed
      ↔ (q = .backslashes → parts.head? ≠ some .quotationMark)
        ∧ ¬ [BodyPart.backslash, .quotationMark] <:+: parts := by
  induction parts generalizing q with
  | nil => rcases hq with rfl | rfl <;> simp [pushAll?, push] <;> decide
  | cons part parts ih =>
    rw [List.flatMap_cons, List.append_assoc, List.infix_cons_iff,
      List.cons_prefix_cons, List.singleton_prefix_iff_head?_eq_some]
    cases part with
    | plain c hc =>
      rw [pushAll?_plainPart hq, ih (.inl rfl)]
      simp [BodyPart.backslash, BodyPart.quotationMark]
    | escape c hc =>
      rw [pushAll?_escape hq]
      by_cases hslash : c = '\x5c'
      · -- After an escaped backslash the parts ahead may not start with an
        -- escaped quotation mark.
        subst hslash
        rw [if_pos rfl, ih (.inr rfl)]
        simp [BodyPart.backslash, BodyPart.quotationMark]
      rw [if_neg hslash]
      by_cases hquote : c = '\x22' ∧ q = .backslashes
      · -- The string is closed here, before the last quotation mark.
        obtain ⟨rfl, rfl⟩ := hquote
        rw [if_pos ⟨rfl, rfl⟩, pushAll?_closed_of_ne_nil (by simp)]
        simp [BodyPart.quotationMark]
      · rw [if_neg hquote, ih (.inl rfl)]
        simp only [BodyPart.backslash, BodyPart.quotationMark,
          BodyPart.escape.injEq, List.head?_cons, Option.some_inj, ne_eq, not_or,
          not_and, reduceCtorEq, false_implies, true_and]
        exact ⟨fun h => ⟨fun hb hc => hquote ⟨hc, hb⟩, fun e => absurd e.symm hslash, h⟩,
          fun h => h.2.2⟩

end Quoting

/-- Parts between quotation marks are one string exactly if no escaped
backslash comes right before an escaped quotation mark. -/
theorem isString_quoted_iff (parts : List BodyPart) :
    IsString (Utf8.bytes (quoted parts)) ↔
      ¬ [BodyPart.backslash, .quotationMark] <:+: parts := by
  have hfits : Quoting.plain.Fits [quotationMark] :=
    ⟨isOpenString_quotationMark, by decide⟩
  rw [bytes_quoted]
  refine hfits.isString_append_iff.trans ((Quoting.pushAll?_parts (.inl rfl) parts).trans ?_)
  simp

/-- A text is read as one string exactly if it is one. -/
theorem tokensOf_eq_string_iff {text : String} :
    tokensOf (Utf8.bytes text) = .ok [⟨.string, text⟩] ↔ IsString (Utf8.bytes text) := by
  rw [tokensOf_eq_ok_iff]
  constructor
  · intro h
    exact h.lexeme_of_mem List.mem_cons_self
  · intro h
    have hspelled : Spelled ([] ++ Utf8.bytes text ++ []) [⟨.string, text⟩] :=
      .token (t := ⟨.string, text⟩) (List.forall_mem_nil _) h trivial
        (.gap (List.forall_mem_nil _))
    simpa using hspelled

/-- **Where a string ends.**  Characters and escapes between quotation marks
are read as one string exactly if no escaped backslash comes right before an
escaped quotation mark.  In every string that is read, the quotation marks
of the body are escaped; and the one that closes it is escaped too exactly if
three backslashes come right before it, the first of them not escaped. -/
theorem string_end (parts : List BodyPart) (source : List UInt8) :
    ((Intake.standard.read (.ofBytes (Utf8.bytes (quoted parts)))).outcome
          = .ok [⟨.string, quoted parts⟩]
        ↔ ¬ [BodyPart.backslash, .quotationMark] <:+: parts)
      ∧ ∀ ts, (Intake.standard.read (.ofBytes source)).outcome = .ok ts →
        ∀ t ∈ ts, t.kind = .string → ∃ body,
          Utf8.bytes t.text = quotationMark :: (body ++ [quotationMark])
            ∧ (∀ pre, pre ++ [quotationMark] <+: body → Escapes pre)
            ∧ (Escapes body ↔ ∃ init,
                body = init ++ [backslash, backslash, backslash]
                  ∧ ¬ Escapes init) := by
  constructor
  · rw [Intake.outcome_read_standard, tokensOf_eq_string_iff,
      isString_quoted_iff]
  · intro ts h t ht hkind
    rw [Intake.outcome_read_standard, tokensOf_eq_ok_iff] at h
    have hlexeme := h.lexeme_of_mem ht
    rw [hkind] at hlexeme
    exact IsString.exists_body hlexeme

/-- The shortest such parts make no string: the text is closed at their
escaped quotation mark, and its last quotation mark opens another string. -/
theorem escaped_pair_unfinished :
    (Intake.standard.read
        (.ofBytes (Utf8.bytes (quoted [.backslash, .quotationMark])))).outcome
      = .error (.unfinished .string "\x22") := by
  decide +kernel

end ByteLayout
