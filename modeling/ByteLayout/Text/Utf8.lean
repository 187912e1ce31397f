/-
  ByteLayout.Text.Utf8
  ────────────────────
  **TEXT AND ITS UTF-8 BYTES.**

  A source arrives as bytes while tokens carry text, so this module holds
  the passage between the two.  `bytes` and `text?` undo each other
  (`text?_eq_some_iff`): text is exactly what its bytes spell.

  Bytes that spell no text are cut into pieces, from left to right:

      whole   — the bytes of one character
      broken  — bytes that start a character which the next byte (or the
                end) does not continue, or one byte that starts none

  A broken piece is as long as it can be while some character starts with
  it.  `validLength` measures the characters before the first broken piece,
  and `lossy` writes U+FFFD for every broken piece.
-/

namespace ByteLayout.Utf8

/-! ## §1. Text to bytes and back. -/

/-- The UTF-8 bytes of a text. -/
def bytes (s : String) : List UInt8 :=
  s.toByteArray.data.toList

/-- The text that the bytes spell, if they are UTF-8. -/
def text? (bs : List UInt8) : Option String :=
  String.fromUTF8? ⟨bs.toArray⟩

/-- Bytes are read as a text exactly if they are the bytes of that text. -/
theorem text?_eq_some_iff {bs : List UInt8} {s : String} :
    text? bs = some s ↔ bytes s = bs := by
  unfold text? String.fromUTF8?
  constructor
  · intro h
    split at h
    · cases h; rfl
    · cases h
  · rintro rfl
    have hs : (⟨(bytes s).toArray⟩ : ByteArray) = s.toByteArray := rfl
    rw [hs, dif_pos s.isValidUTF8]
    rfl

@[simp] theorem text?_bytes (s : String) : text? (bytes s) = some s :=
  text?_eq_some_iff.2 rfl

/-- A text is known by its bytes. -/
theorem bytes_inj {s t : String} : bytes s = bytes t ↔ s = t := by
  constructor
  · intro h
    exact Option.some.inj (by rw [← text?_bytes s, ← text?_bytes t, h])
  · rintro rfl
    rfl

@[simp] theorem bytes_append (s t : String) :
    bytes (s ++ t) = bytes s ++ bytes t := by
  simp [bytes]

/-- The bytes of a text are those of its characters, one after another. -/
theorem bytes_ofList (cs : List Char) :
    bytes (String.ofList cs) = cs.flatMap String.utf8EncodeChar := by
  simp [bytes, List.utf8Encode]

/-- Below 128 a character is the byte of its number. -/
theorem encode_of_ascii {c : Char} (h : c.toNat < 128) :
    String.utf8EncodeChar c = [UInt8.ofNat c.toNat] := by
  have h' : c.val.toNat ≤ 0x7f := Nat.le_of_lt_succ h
  simp only [String.utf8EncodeChar, if_pos h']
  rfl

/-- From 128 on so are all of its bytes. -/
theorem le_of_mem_encode {c : Char} (h : 128 ≤ c.toNat) {b : UInt8}
    (hb : b ∈ String.utf8EncodeChar c) : 128 ≤ b.toNat := by
  have h' : ¬ c.val.toNat ≤ 0x7f := Nat.not_le_of_lt h
  simp only [String.utf8EncodeChar, if_neg h'] at hb
  repeat' split at hb
  all_goals
    simp only [List.mem_cons, List.not_mem_nil, or_false] at hb
    rcases hb with rfl | rfl | rfl | rfl <;> simp [UInt8.toNat_ofNat'] <;> omega

/-- A byte below 128 is only among those of its own character. -/
theorem toNat_of_mem_encode {c : Char} {b : UInt8}
    (hb : b ∈ String.utf8EncodeChar c) (h : b.toNat < 128) :
    c.toNat = b.toNat := by
  by_cases hc : c.toNat < 128
  · rw [encode_of_ascii hc, List.mem_singleton] at hb
    rw [hb, UInt8.toNat_ofNat', Nat.mod_eq_of_lt (by omega)]
  · have := le_of_mem_encode (Nat.le_of_not_lt hc) hb
    omega

/-- Bytes below 128 are text. -/
theorem exists_bytes_of_ascii {bs : List UInt8} (h : ∀ b ∈ bs, b.toNat < 128) :
    ∃ s, bytes s = bs := by
  refine ⟨String.ofList (bs.map Char.ofUInt8), ?_⟩
  rw [bytes_ofList]
  induction bs with
  | nil => rfl
  | cons b bs ih =>
    have hchar : (Char.ofUInt8 b).toNat = b.toNat := UInt8.toNat_toUInt32 b
    have hb : String.utf8EncodeChar (Char.ofUInt8 b) = [b] := by
      rw [encode_of_ascii (hchar ▸ h b List.mem_cons_self), hchar, UInt8.ofNat_toNat]
    rw [List.map_cons, List.flatMap_cons, hb,
      ih (fun c hc => h c (List.mem_cons_of_mem b hc))]
    rfl

/-- A text can be cut in front of a byte below 128, into two texts. -/
theorem exists_bytes_of_append {s : String} {before after : List UInt8} {b : UInt8}
    (h : bytes s = before ++ b :: after) (hb : b.toNat < 128) :
    (∃ t, bytes t = before) ∧ ∃ t, bytes t = b :: after := by
  obtain ⟨cs, rfl⟩ : ∃ cs, s = String.ofList cs := ⟨s.toList, by simp⟩
  rw [bytes_ofList] at h
  induction cs generalizing before with
  | nil => simp at h
  | cons c cs ih =>
    have hcons {mid : List UInt8} (hmid : ∃ t, bytes t = mid) :
        ∃ t, bytes t = String.utf8EncodeChar c ++ mid := by
      obtain ⟨t, rfl⟩ := hmid
      exact ⟨String.ofList [c] ++ t, by rw [bytes_append, bytes_ofList]; simp⟩
    rw [List.flatMap_cons] at h
    by_cases hc : c.toNat < 128
    · -- A character of one byte is in front of the cut, or right after it.
      rw [encode_of_ascii hc] at h hcons
      cases before with
      | nil =>
        refine ⟨⟨"", rfl⟩, String.ofList (c :: cs), ?_⟩
        rw [bytes_ofList, List.flatMap_cons, encode_of_ascii hc, h]
        rfl
      | cons d before =>
        obtain ⟨hd, hrest⟩ := List.cons.inj h
        exact ⟨hd ▸ hcons (ih hrest).1, (ih hrest).2⟩
    · -- None of the bytes of another character is the one at the cut.
      rcases List.append_eq_append_iff.1 h with ⟨mid, rfl, hrest⟩ | ⟨mid, hmid, hrest⟩
      · exact ⟨hcons (ih hrest).1, (ih hrest).2⟩
      · cases mid with
        | nil =>
          rw [List.append_nil] at hmid
          refine ⟨⟨String.ofList [c], ?_⟩, String.ofList cs, by rw [bytes_ofList, hrest]; rfl⟩
          rw [bytes_ofList, List.flatMap_singleton, hmid]
        | cons d mid =>
          cases hrest
          have hle := le_of_mem_encode (Nat.le_of_not_lt hc)
            (hmid ▸ List.mem_append_right before List.mem_cons_self)
          omega

/-! ## §2. Characters and broken runs. -/

/-- Byte values from `low` to `high`, both included. -/
structure Range where
  low : UInt8
  high : UInt8
  deriving DecidableEq, Repr

/-- Whether a byte value lies in the range. -/
def Range.holds (r : Range) (b : UInt8) : Bool :=
  r.low ≤ b && b ≤ r.high

/-- Any byte that continues a character. -/
def Range.continuation : Range := ⟨0x80, 0xBF⟩

/-- The ranges in which the bytes after a lead byte lie, or none if no
character starts with that byte.  The second byte is narrowed where a wider
range would let in overlong forms, surrogates or code points above U+10FFFF. -/
def after? (lead : UInt8) : Option (List Range) :=
  if lead < 0x80 then some []
  else if lead < 0xC2 then none
  else if lead < 0xE0 then some [.continuation]
  else if lead = 0xE0 then some [⟨0xA0, 0xBF⟩, .continuation]
  else if lead = 0xED then some [⟨0x80, 0x9F⟩, .continuation]
  else if lead < 0xF0 then some [.continuation, .continuation]
  else if lead = 0xF0 then some [⟨0x90, 0xBF⟩, .continuation, .continuation]
  else if lead < 0xF4 then some [.continuation, .continuation, .continuation]
  else if lead = 0xF4 then some [⟨0x80, 0x8F⟩, .continuation, .continuation]
  else none

/-- A stretch of bytes: a character, or a run that never became one. -/
inductive Piece where
  | whole (bytes : List UInt8)
  | broken (bytes : List UInt8)
  deriving DecidableEq, Repr

namespace Piece

/-- The bytes that a piece covers. -/
def bytes : Piece → List UInt8
  | .whole bs | .broken bs => bs

/-- Whether a piece is a character. -/
def isWhole : Piece → Bool
  | .whole _ => true
  | .broken _ => false

/-- The text of a piece, with U+FFFD in place of a broken run. -/
def text : Piece → String
  | .whole bs => (text? bs).getD "\uFFFD"
  | .broken _ => "\uFFFD"

end Piece

/-- A character in the making: its bytes so far, and the ranges in which the
bytes that it still lacks lie.  Nothing is in the making when none are due. -/
structure Partial where
  held : List UInt8
  due : List Range
  deriving Repr

namespace Partial

/-- No character has begun. -/
def idle : Partial := ⟨[], []⟩

/-- A character is cut off as soon as nothing more of it is due. -/
def settle (p : Partial) : List Piece × Partial :=
  match p.due with
  | [] => ([.whole p.held], idle)
  | _ :: _ => ([], p)

/-- A byte met where no character has begun. -/
def lead (b : UInt8) : List Piece × Partial :=
  match after? b with
  | some due => settle ⟨[b], due⟩
  | none => ([.broken [b]], idle)

/-- The pieces that one more byte cuts off, and what is in the making after
it.  A byte that does not continue a character breaks it off and is then met
afresh. -/
def push (p : Partial) (b : UInt8) : List Piece × Partial :=
  match p.due with
  | [] => lead b
  | r :: due =>
    if r.holds b then settle ⟨p.held ++ [b], due⟩
    else (.broken p.held :: (lead b).1, (lead b).2)

/-- The end of the bytes breaks off a character in the making. -/
def close (p : Partial) : List Piece :=
  match p.due with
  | [] => []
  | _ :: _ => [.broken p.held]

/-- The pieces of the bytes that come after what is in the making. -/
def pieces (p : Partial) : List UInt8 → List Piece
  | [] => p.close
  | b :: bs => (p.push b).1 ++ (p.push b).2.pieces bs

end Partial

/-- The bytes cut into characters and broken runs. -/
def pieces (bs : List UInt8) : List Piece :=
  Partial.idle.pieces bs

/-- The number of bytes before the first broken run. -/
def validLength (bs : List UInt8) : Nat :=
  (((pieces bs).takeWhile Piece.isWhole).flatMap Piece.bytes).length

/-- The text of the bytes, with one U+FFFD for each broken run. -/
def lossy (bs : List UInt8) : String :=
  String.join ((pieces bs).map Piece.text)

/-! ## §3. Nothing is lost in the cutting. -/

/-- What a cutting step covers: the pieces cut off, then what is held. -/
def Partial.covered (step : List Piece × Partial) : List UInt8 :=
  (step.1.map Piece.bytes).flatten ++ step.2.held

/-- Nothing is held where nothing is due. -/
def Partial.Tidy (p : Partial) : Prop :=
  p.due = [] → p.held = []

/-- No byte is lost where a character is cut off, or goes on. -/
theorem Partial.covered_settle (p : Partial) : covered p.settle = p.held := by
  unfold settle covered
  split <;> simp [idle, Piece.bytes]

theorem Partial.tidy_settle (p : Partial) : p.settle.2.Tidy := by
  unfold settle
  split
  · simp [Tidy, idle]
  · next h => simp [Tidy, h]

/-- A byte that leads nothing is a piece of its own. -/
theorem Partial.covered_lead (b : UInt8) : covered (lead b) = [b] := by
  unfold lead
  split
  · exact covered_settle _
  · simp [covered, idle, Piece.bytes]

theorem Partial.tidy_lead (b : UInt8) : (lead b).2.Tidy := by
  unfold lead
  split
  · exact tidy_settle _
  · simp [Tidy, idle]

/-- A step covers the bytes held before it, and the one it takes. -/
theorem Partial.covered_push {p : Partial} (hp : p.Tidy) (b : UInt8) :
    covered (p.push b) = p.held ++ [b] := by
  unfold push
  split
  · next h => rw [covered_lead, hp h, List.nil_append]
  · split
    · exact covered_settle _
    · rw [← covered_lead b]
      simp [covered, Piece.bytes]

/-- After any step something is held only if more is due. -/
theorem Partial.tidy_push (p : Partial) (b : UInt8) : (p.push b).2.Tidy := by
  unfold push
  split
  · exact tidy_lead b
  · split
    · exact tidy_settle _
    · exact tidy_lead b

/-- Put together again, the pieces are what is held and then the bytes. -/
theorem Partial.flatten_pieces {p : Partial} (hp : p.Tidy) (bs : List UInt8) :
    ((p.pieces bs).map Piece.bytes).flatten = p.held ++ bs := by
  induction bs generalizing p with
  | nil =>
    unfold pieces close
    split
    · next h => simp [hp h]
    · simp [Piece.bytes]
  | cons b bs ih =>
    rw [pieces, List.map_append, List.flatten_append, ih (tidy_push p b),
      ← List.append_assoc]
    show covered (p.push b) ++ bs = _
    rw [covered_push hp]
    simp

/-- The pieces, put together again, are the bytes that were cut. -/
theorem flatten_pieces (bs : List UInt8) :
    ((pieces bs).map Piece.bytes).flatten = bs :=
  Partial.flatten_pieces (p := .idle) (fun _ => rfl) bs

end ByteLayout.Utf8
