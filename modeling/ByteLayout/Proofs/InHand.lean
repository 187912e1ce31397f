/-
  ByteLayout.Proofs.InHand
  ────────────────────────
  **WHAT A LEXER HAS IN HAND.**

  After some bytes without an error a lexer has a lexeme in hand: the last of
  the bytes, from the lexeme's start on, and of its shape (`Lexeme.EndOf`).
  One lemma says what a byte does to a lexer (`Lexer.push_cases`), and from it
  follows that every byte keeps this (`Lexer.InHand.push`), so that it holds
  after any bytes (`Lexer.inHand_pushAll`).

  The rest says why a lexer fails: what a byte that is refused is, or the end
  of the input where it is refused, and that only a string can have bytes
  that are no text (`Lexeme.closed_of_token_eq_error`).
-/
import ByteLayout.Proofs.Spelling
import Mathlib.Data.List.Induction

namespace ByteLayout

/-! ## §1. The lexeme in hand is the end of the bytes taken in. -/

/-- A lexeme in hand has a byte. -/
theorem Shape.Fits.ne_nil {s : Shape} {bs : List UInt8} (h : s.Fits bs) :
    bs ≠ [] := by
  cases s with
  | mark m => exact h ▸ List.cons_ne_nil _ _
  | blank => exact h.1
  | word =>
    obtain ⟨first, others, rfl, -⟩ := h
    exact List.cons_ne_nil first others
  | zero => exact h ▸ List.cons_ne_nil _ _
  | bare base =>
    obtain ⟨hbase, rfl⟩ := h
    cases base with
    | decimal => exact absurd rfl hbase
    | _ => decide +kernel
  | digits base =>
    obtain ⟨digits, hdigits, -, rfl⟩ := h
    exact List.append_ne_nil_of_right_ne_nil _ hdigits
  | quoted q =>
    cases q with
    | closed => exact fun hnil => by subst hnil; cases h.1
    | _ => exact h.1.ne_nil

namespace Lexeme

/-- The lexeme is the end of the bytes, and they are of its shape. -/
structure EndOf (l : Lexeme) (source : List UInt8) : Prop where
  fits : l.shape.Fits l.bytes
  drop_start : source.drop l.start = l.bytes
  stop_eq : l.stop = source.length

/-- It stops so many bytes after its start. -/
theorem stop_eq_add_length (l : Lexeme) : l.stop = l.start + l.bytes.length := by
  rw [stop, bytes, List.length_reverse]

/-- Its start lies within the bytes taken in. -/
theorem EndOf.start_le {l : Lexeme} {source : List UInt8} (h : l.EndOf source) :
    l.start ≤ source.length := by
  rw [← h.stop_eq, stop]
  exact Nat.le_add_right _ _

/-- What the bytes begin with before the lexeme. -/
theorem EndOf.take_append {l : Lexeme} {source : List UInt8} (h : l.EndOf source) :
    source.take l.start ++ l.bytes = source := by
  rw [← h.drop_start, List.take_append_drop]

/-- With another byte taken, it is the end of one byte more. -/
theorem EndOf.push {l : Lexeme} {source : List UInt8} {b : UInt8} {s : Shape}
    (h : l.EndOf source) (hn : l.next (some b) = .more s) :
    (l.push s b).EndOf (source ++ [b]) where
  fits := by
    rw [bytes_push]
    exact fits_of_next h.fits hn
  drop_start := by
    show (source ++ [b]).drop l.start = _
    rw [List.drop_append_of_le_length h.start_le, h.drop_start, bytes_push]
  stop_eq := by
    rw [stop_eq_add_length, bytes_push, List.length_append, List.length_append,
      ← h.stop_eq, stop_eq_add_length]
    rfl

/-- Only one error can come where no lexeme is in hand. -/
theorem begin?_eq_error {offset : Nat} {b : UInt8} {e : LexicalError}
    (h : begin? offset b = .error e) : e = .unknownByte b offset := by
  unfold begin? at h
  split at h <;> cases h
  rfl

/-- A lexeme that begins is the end of the bytes taken in, after its first
byte. -/
theorem endOf_of_begin? {l : Lexeme} {source : List UInt8} {b : UInt8}
    (h : begin? source.length b = .ok l) : l.EndOf (source ++ [b]) := by
  unfold begin? at h
  split at h <;> cases h
  next s hs => exact ⟨Shape.fits_start hs, List.drop_left, by simp [stop]⟩

end Lexeme

namespace Lexer

/-- What is in hand after some bytes: nothing before the first of them, and
then the end of them. -/
def InHand (source : List UInt8) : Option Lexeme → Prop
  | none => source = []
  | some l => l.EndOf source

variable {x : Lexer} {l : Lexeme} {b : UInt8}

/-- What a byte does to a lexer with a lexeme in hand: the lexeme goes on, or
is refused, or is complete but no text, or is complete and the byte is met
afresh.  Only in the last case is anything found. -/
theorem push_cases (hx : x.state = .ok (some l)) (b : UInt8) :
    (∃ s, l.next (some b) = .more s
        ∧ (x.push b).state = .ok (some (l.push s b))
        ∧ (x.push b).sightings = x.sightings)
      ∨ (∃ e, l.next (some b) = .refuse e ∧ (x.push b).state = .error e
        ∧ (x.push b).sightings = x.sightings)
      ∨ (∃ e, l.next (some b) = .complete ∧ l.token = .error e
        ∧ (x.push b).state = .error e ∧ (x.push b).sightings = x.sightings)
      ∨ (∃ found, l.next (some b) = .complete ∧ l.token = .ok found
        ∧ (x.push b).state = (Lexeme.begin? l.stop b).map some
        ∧ (x.push b).sightings = x.sightings ++ found.toList) := by
  rw [push_of_lexeme hx]
  cases hn : l.next (some b) with
  | more s => exact .inl ⟨s, rfl, rfl, rfl⟩
  | refuse e => exact .inr (.inl ⟨e, rfl, rfl, rfl⟩)
  | complete =>
    cases ht : l.token with
    | error e =>
      exact .inr (.inr (.inl ⟨e, rfl, rfl, state_retire_of_error ht,
        sightings_retire_of_error ht⟩))
    | ok found =>
      exact .inr (.inr (.inr ⟨found, rfl, rfl, state_retire ht, sightings_retire ht⟩))

/-- With nothing in hand the byte begins a lexeme, or is at fault. -/
theorem state_push_of_none (hx : x.state = .ok none) (b : UInt8) :
    (x.push b).state = (Lexeme.begin? 0 b).map some := by
  unfold push
  rw [hx]

/-- Every byte keeps what is in hand the end of the bytes taken in. -/
theorem InHand.push {source : List UInt8} {before after : Option Lexeme}
    (hx : x.state = .ok before) (h : InHand source before)
    (hpush : (x.push b).state = .ok after) : InHand (source ++ [b]) after := by
  have hbegin (hfresh : (Lexeme.begin? source.length b).map some = .ok after) :
      InHand (source ++ [b]) after := by
    cases hb : Lexeme.begin? source.length b with
    | error e => rw [hb] at hfresh; cases hfresh
    | ok next =>
      rw [hb] at hfresh
      cases hfresh
      exact Lexeme.endOf_of_begin? hb
  cases before with
  | none =>
    -- Nothing is in hand before the first byte.
    cases (show source = [] from h)
    exact hbegin ((state_push_of_none hx b).symm.trans hpush)
  | some l =>
    have hl : l.EndOf source := h
    rcases push_cases hx b with
      ⟨s, hn, hs, -⟩ | ⟨e, -, hs, -⟩ | ⟨e, -, -, hs, -⟩ | ⟨_, -, -, hs, -⟩
    · cases hs.symm.trans hpush
      exact hl.push hn
    · cases hs.symm.trans hpush
    · cases hs.symm.trans hpush
    · exact hbegin (hl.stop_eq ▸ hs.symm.trans hpush)

/-- Why a byte makes a lexer fail: the lexeme in hand is refused, or is complete
but no text, or the byte begins nothing where it is met afresh. -/
theorem push_error_cases {source : List UInt8} {inHand : Option Lexeme}
    {e : LexicalError} (hx : x.state = .ok inHand) (h : InHand source inHand)
    (hpush : (x.push b).state = .error e) :
    (∃ l, inHand = some l ∧ l.next (some b) = .refuse e)
      ∨ (∃ l, inHand = some l ∧ l.next (some b) = .complete ∧ l.token = .error e)
      ∨ e = .unknownByte b source.length ∧ ∀ l ∈ inHand,
        l.next (some b) = .complete ∧ ∃ found, l.token = .ok found := by
  -- An error where nothing is in hand is about the byte alone.
  have hbegin (hfresh : (Lexeme.begin? source.length b).map some = .error e) :
      e = .unknownByte b source.length := by
    cases hb : Lexeme.begin? source.length b with
    | ok l => rw [hb] at hfresh; cases hfresh
    | error e' =>
      rw [hb] at hfresh
      cases hfresh
      exact Lexeme.begin?_eq_error hb
  cases inHand with
  | none =>
    cases (show source = [] from h)
    exact .inr (.inr ⟨hbegin ((state_push_of_none hx b).symm.trans hpush), nofun⟩)
  | some l =>
    have hl : l.EndOf source := h
    rcases push_cases hx b with
      ⟨_, -, hs, -⟩ | ⟨_, hn, hs, -⟩ | ⟨_, hn, ht, hs, -⟩ | ⟨found, hn, ht, hs, -⟩
    · cases hs.symm.trans hpush
    · cases hs.symm.trans hpush
      exact .inl ⟨l, rfl, hn⟩
    · cases hs.symm.trans hpush
      exact .inr (.inl ⟨l, rfl, hn, ht⟩)
    · refine .inr (.inr ⟨hbegin (hl.stop_eq ▸ hs.symm.trans hpush), fun m hm => ?_⟩)
      cases hm
      exact ⟨hn, found, ht⟩

/-- What a lexer that has not failed has in hand is the end of the bytes that
it has taken in. -/
theorem inHand_pushAll {source : List UInt8} {inHand : Option Lexeme}
    (h : (Lexer.empty.pushAll source).state = .ok inHand) : InHand source inHand := by
  -- The last byte goes to what was in hand after the bytes before it.
  induction source using List.reverseRecOn generalizing inHand with
  | nil =>
    cases h
    rfl
  | append_singleton source b ih =>
    rw [pushAll_append, pushAll_cons, pushAll_nil] at h
    cases hx : (Lexer.empty.pushAll source).state with
    | error e => cases hx.symm.trans ((congrArg state (push_of_error hx b)).symm.trans h)
    | ok before => exact InHand.push hx (ih hx) h

end Lexer

/-! ## §2. What is refused. -/

namespace Lexeme

variable {l : Lexeme} {base : Base} {bare : Bool} {e : LexicalError}

/-- What may end an integer is refused only where the digits are missing. -/
theorem endInteger_eq_refuse (h : l.endInteger base bare = .refuse e) :
    bare = true ∧ e = .noDigits base.sign l.start := by
  cases bare <;> cases h
  exact ⟨rfl, rfl⟩

/-- A byte that cannot come after the lexeme, and what the error says then. -/
inductive Refused (l : Lexeme) (b : UInt8) : LexicalError → Prop
  | noDigits {base : Base} (hs : l.shape = .bare base) :
    Refused l b (.noDigits base.sign l.start)
  | fraction (hb : b = Mark.dot.byte)
    (hs : l.shape = .zero ∨ l.shape = .digits .decimal) :
    Refused l b (.fraction l.stop)
  | badDigit (base : Base) : Refused l b (.badDigit b base l.stop)
  | badFollower : Refused l b (.badFollower b l.stop)

/-- An integer is refused at a byte that could end it if it has no digits, and
at one that can neither end it nor go on with it. -/
theorem refused_of_nextInteger {b : UInt8}
    (hbare : bare = true → l.shape = .bare base)
    (hdecimal : base = .decimal → l.shape = .zero ∨ l.shape = .digits .decimal)
    (h : l.nextInteger base bare (some b) = .refuse e) : l.Refused b e := by
  simp only [nextInteger] at h
  split at h
  · obtain ⟨hb, rfl⟩ := endInteger_eq_refuse h
    exact .noDigits (hbare hb)
  split at h
  · cases h
  split at h
  · next hdot =>
    cases h
    exact .fraction hdot.1 (hdecimal hdot.2)
  split at h <;> cases h
  · exact .badDigit base
  · exact .badFollower

/-- Only an integer can be refused at a byte. -/
theorem refused_of_next {b : UInt8} (hf : l.shape.Fits l.bytes)
    (h : l.next (some b) = .refuse e) : l.Refused b e := by
  cases hs : l.shape with
  | mark m =>
    rw [next_of_mark hs] at h
    cases h
  | blank =>
    rw [next_of_blank hs] at h
    split at h <;> cases h
  | word =>
    rw [next_of_word hs] at h
    split at h <;> cases h
  -- A zero is a digit already, so that no digits can be missing.
  | zero =>
    rw [next_of_zero hs] at h
    split at h
    · cases h
    · exact refused_of_nextInteger (fun hb => by cases hb) (fun _ => .inl hs) h
  | bare base =>
    rw [next_of_bare hs] at h
    rw [hs] at hf
    exact refused_of_nextInteger (fun _ => hs) (fun hb => absurd hb hf.1) h
  | digits base =>
    rw [next_of_digits hs] at h
    exact refused_of_nextInteger (fun hb => by cases hb) (fun hb => .inr (hb ▸ hs)) h
  | quoted q =>
    -- An open string takes any byte, and a closed one none.
    by_cases hq : q = .closed
    · rw [next_of_closed (hq ▸ hs)] at h
      cases h
    · rw [next_of_quoted hs hq] at h
      cases h

/-- At the end of the input an open string is refused, and a base without
digits. -/
theorem next_none_eq_refuse (h : l.next none = .refuse e) :
    (∃ q, q ≠ .closed ∧ l.shape = .quoted q
        ∧ e = .unfinished .string (Utf8.lossy l.bytes))
      ∨ ∃ base, l.shape = .bare base ∧ e = .noDigits base.sign l.start := by
  cases hs : l.shape with
  | mark m =>
    rw [next_of_mark hs] at h
    cases h
  | blank =>
    rw [next_of_blank hs] at h
    cases h
  | word =>
    rw [next_of_word hs] at h
    cases h
  | zero =>
    rw [next_of_zero hs] at h
    cases h
  | bare base =>
    rw [next_of_bare hs] at h
    exact .inr ⟨base, rfl, (endInteger_eq_refuse h).2⟩
  | digits base =>
    rw [next_of_digits hs] at h
    cases (endInteger_eq_refuse h).1
  | quoted q =>
    by_cases hq : q = .closed
    · rw [next_of_closed (hq ▸ hs)] at h
      cases h
    · rw [next_none_of_quoted hs hq] at h
      cases h
      exact .inl ⟨q, hq, rfl, rfl⟩

end Lexeme

/-! ## §3. What is no text. -/

/-- The bytes of words are text by themselves. -/
theorem ByteClass.toNat_lt_of_isWordPart {b : UInt8} (h : (of b).isWordPart) :
    b.toNat < 128 := by
  revert b
  apply forall_byte
  decide +kernel

theorem Base.toNat_lt_of_mem_sign {base : Base} {b : UInt8}
    (h : b ∈ Utf8.bytes base.sign) : b.toNat < 128 := by
  revert b
  cases base <;> decide +kernel

/-- Every lexeme other than a string is text. -/
theorem Kind.Lexeme.exists_bytes {k : Kind} {bs : List UInt8} (h : k.Lexeme bs)
    (hk : k ≠ .string) : ∃ text, Utf8.bytes text = bs := by
  -- All of its bytes are below 128.
  apply Utf8.exists_bytes_of_ascii
  cases k with
  | string => exact absurd rfl hk
  | mark m =>
    cases (show bs = [m.byte] from h)
    intro b hb
    rw [List.mem_singleton.1 hb]
    cases m <;> decide
  | identifier =>
    obtain ⟨first, others, rfl, hfirst, hothers⟩ := h
    intro b hb
    apply ByteClass.toNat_lt_of_isWordPart
    rcases List.mem_cons.1 hb with rfl | hb
    · exact ByteClass.isWordPart_of_iff.2 (.inl hfirst)
    · exact ByteClass.isWordPart_of_iff.2 (hothers b hb)
  | integer =>
    obtain ⟨base, digits, -, hdigits, rfl⟩ := h
    intro b hb
    rcases List.mem_append.1 hb with hb | hb
    · exact Base.toNat_lt_of_mem_sign hb
    · exact ByteClass.toNat_lt_of_isWordPart (hdigits b hb).isWordPart

namespace Lexeme

variable {l : Lexeme} {e : LexicalError}

/-- A lexeme that makes no token is no text, and the error tells from where
on. -/
theorem eq_notUtf8_of_token_eq_error (h : l.token = .error e) :
    e = .notUtf8 (l.start + Utf8.validLength l.bytes) := by
  unfold token at h
  split at h
  · cases h
  · split at h <;> cases h
    rfl

/-- A complete lexeme that is no text is a closed string. -/
theorem closed_of_token_eq_error {ahead : Option UInt8}
    (hf : l.shape.Fits l.bytes) (hn : l.next ahead = .complete)
    (h : l.token = .error e) : l.shape = .quoted .closed := by
  cases hk : l.shape.kind? with
  | none => cases (token_of_blank hk).symm.trans h
  | some k =>
    obtain ⟨hlexeme, -⟩ := lexeme_of_next hf hn hk
    by_cases hstring : k = .string
    · subst hstring
      cases hs : l.shape with
      | quoted q => rw [closed_of_complete hs hn]
      | _ =>
        rw [hs] at hk
        cases hk
    · obtain ⟨text, htext⟩ := hlexeme.exists_bytes hstring
      cases h.symm.trans ((token_eq_ok_iff hk).2 ⟨text, htext, rfl⟩)

end Lexeme

end ByteLayout
