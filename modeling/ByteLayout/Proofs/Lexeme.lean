/-
  ByteLayout.Proofs.Lexeme
  ────────────────────────
  **THE LEXEMES OF EACH KIND.**

  `Kind.Lexeme` says which bytes are a lexeme of a kind, without reading them:

      integer      digits of base ten, or `0x`, `0o` or `0b` and digits of
                   that base; one digit or more
      string       a quotation mark up to the first one after it that closes
      identifier   a letter, then letters and digits
      mark         its one byte

  and `Kind.EndsBefore` says what may come after one.  The reading of tokens
  is tied to these languages by `Shape.Fits`: what the shape of a lexeme in
  hand says about its bytes.  A byte that the lexeme takes keeps the shape
  fitting (`Lexeme.fits_of_next`), and a shape that is complete fits a whole
  lexeme of its kind (`Lexeme.lexeme_of_next`).
-/
import ByteLayout.Token.Lexeme
import Mathlib.Data.List.Basic

namespace ByteLayout

/-! ## §1. Integers and identifiers. -/

/-- The digits of a base, as ranges of bytes. -/
def Base.IsDigit : Base → UInt8 → Prop
  | .decimal, b => '0'.toUInt8 ≤ b ∧ b ≤ '9'.toUInt8
  | .hexadecimal, b =>
    ('0'.toUInt8 ≤ b ∧ b ≤ '9'.toUInt8) ∨ ('a'.toUInt8 ≤ b ∧ b ≤ 'f'.toUInt8)
      ∨ ('A'.toUInt8 ≤ b ∧ b ≤ 'F'.toUInt8)
  | .octal, b => '0'.toUInt8 ≤ b ∧ b ≤ '7'.toUInt8
  | .binary, b => b = '0'.toUInt8 ∨ b = '1'.toUInt8

instance : (base : Base) → (b : UInt8) → Decidable (base.IsDigit b)
  | .decimal, _ | .octal, _ => inferInstanceAs (Decidable (_ ∧ _))
  | .hexadecimal, _ => inferInstanceAs (Decidable (_ ∨ _ ∨ _))
  | .binary, _ => inferInstanceAs (Decidable (_ ∨ _))

/-- The lexer takes the digits of a base, and nothing else. -/
theorem Base.accepts_iff {base : Base} {b : UInt8} :
    base.accepts b ↔ base.IsDigit b := by
  revert b
  apply ByteClass.forall_byte
  cases base <;> decide +kernel

/-- Whatever the base, its digits can stand in an identifier. -/
theorem Base.IsDigit.isWordPart {base : Base} {b : UInt8}
    (h : base.IsDigit b) : (ByteClass.of b).isWordPart := by
  revert b
  apply ByteClass.forall_byte
  cases base <;> decide +kernel

/-- A letter announces the base whose sign it ends. -/
theorem Base.ofLetter?_eq_some_iff {b : UInt8} {base : Base} :
    ofLetter? b = some base ↔
      base ≠ .decimal ∧ Utf8.bytes base.sign = ['0'.toUInt8, b] := by
  revert b
  apply ByteClass.forall_byte
  cases base <;> decide +kernel

/-- No digit after a zero announces a base. -/
theorem Base.ofLetter?_of_isDigit {b : UInt8} (h : decimal.IsDigit b) :
    ofLetter? b = none := by
  revert b
  apply ByteClass.forall_byte
  decide +kernel

/-- Nor does what ends an integer. -/
theorem Base.ofLetter?_of_endsInteger {b : UInt8}
    (h : (ByteClass.of b).endsInteger) : ofLetter? b = none := by
  revert b
  apply ByteClass.forall_byte
  decide +kernel

/-- Every base, once. -/
def Base.all : List Base :=
  [.decimal, .hexadecimal, .octal, .binary]

theorem Base.mem_all (base : Base) : base ∈ all := by
  cases base <;> decide

/-- Some digits, after the announcement of their base. -/
def IsInteger (bs : List UInt8) : Prop :=
  ∃ (base : Base) (digits : List UInt8),
    digits ≠ [] ∧ (∀ d ∈ digits, base.IsDigit d)
      ∧ bs = Utf8.bytes base.sign ++ digits

instance : DecidablePred IsInteger := fun bs =>
  decidable_of_iff
    (Base.all.any (fun base =>
      (Utf8.bytes base.sign).isPrefixOf bs
        && !(bs.drop (Utf8.bytes base.sign).length).isEmpty
        && (bs.drop (Utf8.bytes base.sign).length).all base.accepts)) <| by
    simp only [List.any_eq_true, Bool.and_eq_true, List.isPrefixOf_iff_prefix,
      Bool.not_eq_true', List.isEmpty_eq_false_iff, List.all_eq_true, Base.accepts_iff]
    constructor
    · intro h
      obtain ⟨base, -, ⟨⟨digits, rfl⟩, hne⟩, hall⟩ := h
      rw [List.drop_left] at hne hall
      exact ⟨base, digits, hne, hall, rfl⟩
    · intro h
      obtain ⟨base, digits, hne, hall, rfl⟩ := h
      refine ⟨base, base.mem_all, ⟨List.prefix_append _ _, ?_⟩, ?_⟩
      · rwa [List.drop_left]
      · rwa [List.drop_left]

/-- A letter, then letters and digits. -/
def IsIdentifier (bs : List UInt8) : Prop :=
  ∃ (first : UInt8) (others : List UInt8),
    bs = first :: others ∧ ByteClass.isLetter first
      ∧ ∀ b ∈ others, ByteClass.isLetter b ∨ ByteClass.isDigit b

instance : DecidablePred IsIdentifier
  | [] => isFalse (fun h => by obtain ⟨_, _, hnil, _⟩ := h; cases hnil)
  | b :: bs =>
    decidable_of_iff
      (ByteClass.isLetter b
        && bs.all (fun c => ByteClass.isLetter c || ByteClass.isDigit c)) <| by
      simp only [Bool.and_eq_true, List.all_eq_true, Bool.or_eq_true]
      constructor
      · intro h
        exact ⟨b, bs, rfl, h⟩
      · intro h
        obtain ⟨_, _, heq, h⟩ := h
        cases heq
        exact h

/-- A name goes on with letters and digits. -/
theorem IsIdentifier.concat {bs : List UInt8} {b : UInt8} (h : IsIdentifier bs)
    (hb : ByteClass.isLetter b ∨ ByteClass.isDigit b) :
    IsIdentifier (bs ++ [b]) := by
  obtain ⟨first, others, rfl, hf, ho⟩ := h
  refine ⟨first, others ++ [b], rfl, hf, fun c hc => ?_⟩
  rcases List.mem_append.1 hc with hc | hc
  · exact ho c hc
  · rwa [List.mem_singleton.1 hc]

/-! ## §2. Strings. -/

/-- The bytes end in one backslash that comes after none. -/
def EndsEscaping (bs : List UInt8) : Prop :=
  bs[bs.length - 1]? = some backslash ∧ bs[bs.length - 2]? ≠ some backslash

/-- A quotation mark after the first byte closes the string that the bytes
begin, unless it comes after a backslash that comes after none. -/
def ClosesAt (bs : List UInt8) (j : Nat) : Prop :=
  1 ≤ j ∧ bs[j]? = some quotationMark
    ∧ ¬ (bs[j - 1]? = some backslash ∧ bs[j - 2]? ≠ some backslash)

instance (bs : List UInt8) (j : Nat) : Decidable (ClosesAt bs j) :=
  inferInstanceAs (Decidable (_ ∧ _ ∧ ¬ (_ ∧ _)))

/-- A quotation mark, up to the first one after it that closes. -/
def IsString (bs : List UInt8) : Prop :=
  bs[0]? = some quotationMark
    ∧ ∃ j, bs.length = j + 1 ∧ ClosesAt bs j ∧ ∀ i < j, ¬ ClosesAt bs i

/-- A string that has begun, and not ended. -/
def IsOpenString (bs : List UInt8) : Prop :=
  bs[0]? = some quotationMark ∧ ∀ i, ¬ ClosesAt bs i

/-- Whether a string is closed at a place does not depend on what comes after
it. -/
theorem closesAt_append {bs rest : List UInt8} {j : Nat} (h : j < bs.length) :
    ClosesAt (bs ++ rest) j ↔ ClosesAt bs j := by
  unfold ClosesAt
  rw [List.getElem?_append_left h, List.getElem?_append_left (by omega),
    List.getElem?_append_left (by omega)]

/-- The byte after an open string closes it if it is a quotation mark that
the string does not escape. -/
theorem closesAt_concat_length {bs : List UInt8} {b : UInt8} (h : bs ≠ []) :
    ClosesAt (bs ++ [b]) bs.length ↔ b = quotationMark ∧ ¬ EndsEscaping bs := by
  have hl := List.length_pos_of_ne_nil h
  unfold ClosesAt EndsEscaping
  rw [List.getElem?_append_left (by omega : bs.length - 1 < bs.length),
    List.getElem?_append_left (by omega : bs.length - 2 < bs.length)]
  constructor
  · intro hc
    obtain ⟨_, hb, hn⟩ := hc
    exact ⟨by simpa using hb, hn⟩
  · intro hc
    obtain ⟨rfl, hn⟩ := hc
    exact ⟨hl, by simp, hn⟩

theorem ClosesAt.lt_length {bs : List UInt8} {j : Nat} (h : ClosesAt bs j) :
    j < bs.length :=
  (List.getElem?_eq_some_iff.1 h.2.1).1

instance : DecidablePred IsString := fun bs =>
  decidable_of_iff
    (bs[0]? = some quotationMark ∧ ClosesAt bs (bs.length - 1)
      ∧ ∀ i < bs.length - 1, ¬ ClosesAt bs i) <| by
    constructor
    · intro h
      have hlt := h.2.1.lt_length
      exact ⟨h.1, bs.length - 1, by omega, h.2⟩
    · intro h
      obtain ⟨hfirst, j, hl, h⟩ := h
      rw [hl]
      exact ⟨hfirst, h⟩

theorem isOpenString_quotationMark : IsOpenString [quotationMark] := by
  refine ⟨rfl, fun i hi => ?_⟩
  have hlt := hi.lt_length
  have hpos := hi.1
  simp only [List.length_singleton] at hlt
  omega

theorem IsOpenString.ne_nil {bs : List UInt8} (h : IsOpenString bs) : bs ≠ [] := by
  intro hnil
  subst hnil
  cases h.1

/-- An open string goes on with any byte that does not close it. -/
theorem IsOpenString.concat {bs : List UInt8} {b : UInt8} (h : IsOpenString bs)
    (hb : ¬ (b = quotationMark ∧ ¬ EndsEscaping bs)) :
    IsOpenString (bs ++ [b]) := by
  refine ⟨List.getElem?_append_left (List.length_pos_of_ne_nil h.ne_nil) ▸ h.1,
    fun i hi => ?_⟩
  have hlt := hi.lt_length
  rw [List.length_append, List.length_singleton] at hlt
  rcases Nat.lt_succ_iff_lt_or_eq.1 hlt with hlt | rfl
  · exact h.2 i ((closesAt_append hlt).1 hi)
  · exact hb ((closesAt_concat_length h.ne_nil).1 hi)

/-- A quotation mark closes it, unless a backslash escapes that. -/
theorem IsOpenString.close {bs : List UInt8} (h : IsOpenString bs)
    (he : ¬ EndsEscaping bs) : IsString (bs ++ [quotationMark]) := by
  refine ⟨List.getElem?_append_left (List.length_pos_of_ne_nil h.ne_nil) ▸ h.1,
    bs.length, by simp, (closesAt_concat_length h.ne_nil).2 ⟨rfl, he⟩, ?_⟩
  intro i hi hc
  exact h.2 i ((closesAt_append hi).1 hc)

/-- Where a whole string ends, no longer one is still open. -/
theorem IsString.not_isOpenString {bs : List UInt8} (h : IsString bs)
    (rest : List UInt8) : ¬ IsOpenString (bs ++ rest) := by
  obtain ⟨_, j, hl, hj, _⟩ := h
  exact fun ho => ho.2 j ((closesAt_append (by omega)).2 hj)

/-- No string begins with a shorter one. -/
theorem IsString.not_isString_prefix {bs rest : List UInt8}
    (h : IsString (bs ++ rest)) (hrest : rest ≠ []) : ¬ IsString bs := by
  intro hc
  obtain ⟨_, j, hl, hj, _⟩ := hc
  -- The shorter one would close the longer one before its end.
  obtain ⟨_, k, hk, _, hmin⟩ := h
  have hpos := List.length_pos_of_ne_nil hrest
  rw [List.length_append] at hk
  exact hmin j (by omega) ((closesAt_append (by omega)).2 hj)

/-- How far a string has come, by its last two bytes. -/
def Quoting.Fits : Quoting → List UInt8 → Prop
  | .plain, bs => IsOpenString bs ∧ bs[bs.length - 1]? ≠ some ByteLayout.backslash
  | .backslash, bs => IsOpenString bs ∧ EndsEscaping bs
  | .backslashes, bs =>
    IsOpenString bs ∧ bs[bs.length - 1]? = some ByteLayout.backslash
      ∧ bs[bs.length - 2]? = some ByteLayout.backslash
  | .closed, bs => IsString bs

/-- Until it is closed, what the lexer has in hand is an open string. -/
theorem Quoting.Fits.isOpenString {q : Quoting} {bs : List UInt8}
    (h : q.Fits bs) (hq : q ≠ .closed) : IsOpenString bs := by
  cases q with
  | closed => exact absurd rfl hq
  | _ => exact h.1

theorem getElem?_concat_before {bs : List UInt8} (h : bs ≠ []) (b : UInt8) :
    (bs ++ [b])[(bs ++ [b]).length - 2]? = bs[bs.length - 1]? := by
  have hl := List.length_pos_of_ne_nil h
  rw [List.length_append, List.length_singleton,
    List.getElem?_append_left (by omega)]
  rfl

/-- One more byte keeps a string's progress in step with its bytes. -/
theorem Quoting.fits_push {q : Quoting} {bs : List UInt8} (h : q.Fits bs)
    (hq : q ≠ .closed) (b : UInt8) : (q.push b).Fits (bs ++ [b]) := by
  have ho := h.isOpenString hq
  have hlast : (bs ++ [b])[(bs ++ [b]).length - 1]? = some b := by simp
  have hbefore := getElem?_concat_before ho.ne_nil b
  by_cases hb : b = ByteLayout.backslash
  · -- A backslash closes nothing; the byte before it tells one from two.
    subst hb
    have ho' : IsOpenString (bs ++ [ByteLayout.backslash]) :=
      ho.concat (fun hc => absurd hc.1 (by decide))
    cases q with
    | plain => exact ⟨ho', hlast, hbefore ▸ h.2⟩
    | backslash => exact ⟨ho', hlast, hbefore.trans h.2.1⟩
    | backslashes => exact ⟨ho', hlast, hbefore.trans h.2.1⟩
    | closed => exact absurd rfl hq
  · have hplain (ho' : IsOpenString (bs ++ [b])) : plain.Fits (bs ++ [b]) :=
      ⟨ho', by rw [hlast]; simpa using hb⟩
    by_cases hc : b = quotationMark
    · -- A quotation mark closes unless exactly one backslash is before it.
      subst hc
      cases q with
      | plain => exact ho.close (fun he => h.2 he.1)
      | backslash => exact hplain (ho.concat (fun hn => hn.2 h.2))
      | backslashes => exact ho.close (fun he => he.2 h.2.2)
      | closed => exact absurd rfl hq
    · have hpush : q.push b = .plain := by
        cases q with
        | closed => exact absurd rfl hq
        | _ => simp [push, hb, hc]
      rw [hpush]
      exact hplain (ho.concat (fun hn => hc hn.1))

/-! ## §3. Lexemes, and where they may end. -/

/-- The bytes are a lexeme of the kind. -/
def Kind.Lexeme : Kind → List UInt8 → Prop
  | .integer, bs => IsInteger bs
  | .string, bs => IsString bs
  | .identifier, bs => IsIdentifier bs
  | .mark m, bs => bs = [m.byte]

/-- A lexeme of the kind may have this byte, or the end of the input, right
after it. -/
def Kind.EndsBefore : Kind → Option UInt8 → Prop
  | .integer, some b =>
    ByteClass.isBlank b ∨ b = Mark.comma.byte ∨ b = Mark.slash.byte
      ∨ b = Mark.closeBracket.byte
  | .identifier, some b => ¬ (ByteClass.isLetter b ∨ ByteClass.isDigit b)
  | _, _ => True

instance : (k : Kind) → DecidablePred k.EndsBefore
  | .integer, some _ => inferInstanceAs (Decidable (_ ∨ _ ∨ _ ∨ _))
  | .identifier, some _ => inferInstanceAs (Decidable (¬ (_ ∨ _)))
  | .integer, none | .identifier, none | .string, _ | .mark _, _ => isTrue trivial

/-- Where an integer may end, every lexeme may. -/
theorem Kind.endsBefore_of_integer {ahead : Option UInt8}
    (h : Kind.integer.EndsBefore ahead) (k : Kind) : k.EndsBefore ahead := by
  cases k with
  | integer => exact h
  | string | mark m => trivial
  | identifier =>
    cases ahead with
    | none => trivial
    | some b =>
      intro hb
      have hw := ByteClass.isWordPart_of_iff.2 hb
      have he := ByteClass.endsInteger_of_iff.2 h
      revert hw he
      cases ByteClass.of b <;> simp [ByteClass.isWordPart, ByteClass.endsInteger]

/-! ## §4. What becomes of a lexeme in hand. -/

namespace Lexeme

theorem endInteger_ne_more (l : Lexeme) (base : Base) (bare : Bool) (s : Shape) :
    l.endInteger base bare ≠ .more s := by
  cases bare <;> simp [endInteger]

/-- An integer that may end is complete if it has a digit. -/
theorem endInteger_eq_complete_iff {l : Lexeme} {base : Base} {bare : Bool} :
    l.endInteger base bare = .complete ↔ bare = false := by
  cases bare <;> simp [endInteger]

/-- Only a digit of its base goes on with an integer. -/
theorem nextInteger_eq_more {l : Lexeme} {base : Base} {bare : Bool} {b : UInt8}
    {s : Shape} (h : l.nextInteger base bare (some b) = .more s) :
    s = .digits base ∧ base.IsDigit b := by
  simp only [nextInteger] at h
  split at h
  · exact absurd h (endInteger_ne_more l base bare s)
  · split at h
    · next hb =>
      cases h
      exact ⟨rfl, Base.accepts_iff.1 hb⟩
    · repeat' split at h
      all_goals cases h

/-- And only before what ends it is an integer complete. -/
theorem nextInteger_eq_complete {l : Lexeme} {base : Base} {bare : Bool}
    {ahead : Option UInt8} (h : l.nextInteger base bare ahead = .complete) :
    bare = false ∧ Kind.integer.EndsBefore ahead := by
  cases ahead with
  | none => exact ⟨endInteger_eq_complete_iff.1 h, trivial⟩
  | some b =>
    simp only [nextInteger] at h
    split at h
    · next hb =>
      exact ⟨endInteger_eq_complete_iff.1 h, ByteClass.endsInteger_of_iff.1 hb⟩
    · repeat' split at h
      all_goals cases h

/-- Any digit of its base goes on with an integer. -/
theorem nextInteger_of_isDigit {base : Base} {b : UInt8} (h : base.IsDigit b)
    (l : Lexeme) (bare : Bool) :
    l.nextInteger base bare (some b) = .more (.digits base) := by
  -- What ends an integer is no part of a word, as every digit is.
  have hw := h.isWordPart
  have hends : ¬ (ByteClass.of b).endsInteger := by
    revert hw
    cases ByteClass.of b <;> simp [ByteClass.isWordPart, ByteClass.endsInteger]
  simp only [nextInteger]
  rw [if_neg hends, if_pos (Base.accepts_iff.2 h)]

/-- An integer with a digit is complete before what may end it. -/
theorem nextInteger_of_endsBefore {ahead : Option UInt8}
    (h : Kind.integer.EndsBefore ahead) (l : Lexeme) (base : Base) :
    l.nextInteger base false ahead = .complete := by
  cases ahead with
  | none => rfl
  | some b =>
    simp only [nextInteger]
    rw [if_pos (ByteClass.endsInteger_of_iff.2 h)]
    rfl

section

variable {l : Lexeme} {base : Base} {q : Quoting}

/-- A mark is complete as it stands. -/
theorem next_of_mark {m : Mark} (h : l.shape = .mark m) (ahead : Option UInt8) :
    l.next ahead = .complete := by
  rw [next, h]

/-- Blank space goes on with blank space. -/
theorem next_of_blank (h : l.shape = .blank) (ahead : Option UInt8) :
    l.next ahead
      = if ahead.map ByteClass.of = some .blank then .more .blank else .complete := by
  rw [next, h]
  dsimp only
  split <;> simp_all

/-- A word goes on with letters and digits. -/
theorem next_of_word (h : l.shape = .word) (ahead : Option UInt8) :
    l.next ahead
      = if (ByteClass.ahead ahead).isWordPart then .more .word else .complete := by
  rw [next, h]

/-- A zero may announce a base; if not, it is a number of base ten. -/
theorem next_of_zero (h : l.shape = .zero) (ahead : Option UInt8) :
    l.next ahead =
      match ahead.bind Base.ofLetter? with
      | some base => .more (.bare base)
      | none => l.nextInteger .decimal false ahead := by
  unfold next
  cases ahead.bind Base.ofLetter? <;> simp only [h]

/-- An announcement has to be followed by a digit of its base. -/
theorem next_of_bare (h : l.shape = .bare base) (ahead : Option UInt8) :
    l.next ahead = l.nextInteger base true ahead := by
  rw [next, h]

/-- After a digit an integer may end. -/
theorem next_of_digits (h : l.shape = .digits base) (ahead : Option UInt8) :
    l.next ahead = l.nextInteger base false ahead := by
  rw [next, h]

/-- A string is complete once it is closed. -/
theorem next_of_closed (h : l.shape = .quoted .closed) (ahead : Option UInt8) :
    l.next ahead = .complete := by
  rw [next, h]

/-- An open string takes any byte. -/
theorem next_of_quoted (h : l.shape = .quoted q) (hq : q ≠ .closed) (b : UInt8) :
    l.next (some b) = .more (.quoted (q.push b)) := by
  rw [next, h]
  cases q with
  | closed => exact absurd rfl hq
  | _ => rfl

/-- An open string cannot end. -/
theorem next_none_of_quoted (h : l.shape = .quoted q) (hq : q ≠ .closed) :
    l.next none = .refuse (.unfinished .string (Utf8.lossy l.bytes)) := by
  rw [next, h]
  cases q with
  | closed => exact absurd rfl hq
  | _ => rfl

/-- Whatever lies ahead, only a closed string is complete. -/
theorem closed_of_complete {ahead : Option UInt8} (h : l.shape = .quoted q)
    (hn : l.next ahead = .complete) : q = .closed := by
  by_contra hq
  cases ahead with
  | none => cases (next_none_of_quoted h hq).symm.trans hn
  | some b => cases (next_of_quoted h hq b).symm.trans hn

end

end Lexeme

/-! ## §5. What the shape of a lexeme in hand says. -/

/-- The bytes in hand are of the shape. -/
def Shape.Fits : Shape → List UInt8 → Prop
  | .mark m, bs => bs = [m.byte]
  | .blank, bs => bs ≠ [] ∧ ∀ b ∈ bs, ByteClass.isBlank b
  | .word, bs => IsIdentifier bs
  | .zero, bs => bs = ['0'.toUInt8]
  | .bare base, bs => base ≠ .decimal ∧ bs = Utf8.bytes base.sign
  | .digits base, bs =>
    ∃ digits, digits ≠ [] ∧ (∀ d ∈ digits, base.IsDigit d)
      ∧ bs = Utf8.bytes base.sign ++ digits
  | .quoted q, bs => q.Fits bs

/-- A lexeme that begins has the shape that its first byte gives it. -/
theorem Shape.fits_start {b : UInt8} {s : Shape} (h : start? b = some s) :
    s.Fits [b] := by
  unfold start? at h
  split at h <;> cases h
  case h_1 m hm => exact congrArg (fun c => [c]) (ByteClass.of_eq_mark_iff.1 hm)
  case h_2 hb =>
    exact ⟨List.cons_ne_nil _ _, by simpa using ByteClass.of_eq_blank_iff.1 hb⟩
  case h_3 hb =>
    cases ByteClass.of_eq_quote_iff.1 hb
    exact ⟨isOpenString_quotationMark, by decide⟩
  case h_4 hb =>
    have hd := ByteClass.of_eq_digit_iff.1 hb
    split
    · next hz => exact congrArg (fun c => [c]) hz
    · refine ⟨[b], List.cons_ne_nil _ _, fun d hd' => ?_, rfl⟩
      rw [List.mem_singleton.1 hd']
      simpa [ByteClass.isDigit, Base.IsDigit] using hd
  case h_5 hb =>
    exact ⟨b, [], rfl, ByteClass.of_eq_letter_iff.1 hb, by simp⟩

namespace Lexeme

/-- A byte that the lexeme in hand takes keeps its shape fitting. -/
theorem fits_of_next {l : Lexeme} {b : UInt8} {s : Shape}
    (h : l.shape.Fits l.bytes) (hn : l.next (some b) = .more s) :
    s.Fits (l.bytes ++ [b]) := by
  cases hs : l.shape with
  | mark m =>
    rw [next_of_mark hs] at hn
    cases hn
  | blank =>
    rw [hs] at h
    rw [next_of_blank hs] at hn
    split at hn
    · next hb =>
      cases hn
      have hb' := ByteClass.of_eq_blank_iff.1 (Option.some.inj hb)
      exact ⟨by simp, by simpa [or_imp, forall_and] using ⟨h.2, hb'⟩⟩
    · cases hn
  | word =>
    rw [hs] at h
    rw [next_of_word hs] at hn
    split at hn
    · next hb =>
      cases hn
      exact IsIdentifier.concat h (ByteClass.isWordPart_of_iff.1 hb)
    · cases hn
  | zero =>
    rw [hs] at h
    rw [next_of_zero hs] at hn
    split at hn
    · next base hb =>
      -- The letter and the zero before it are the sign of the base.
      cases hn
      obtain ⟨hd, hsign⟩ := Base.ofLetter?_eq_some_iff.1 hb
      exact ⟨hd, by rw [hsign, h]; rfl⟩
    · obtain ⟨rfl, hb⟩ := nextInteger_eq_more hn
      refine ⟨['0'.toUInt8, b], List.cons_ne_nil _ _, ?_, by rw [h]; rfl⟩
      simpa using ⟨by decide, hb⟩
  | bare base =>
    -- The first digit comes right after the sign of the base.
    rw [hs] at h
    obtain ⟨rfl, hb⟩ := nextInteger_eq_more ((next_of_bare hs _).symm.trans hn)
    exact ⟨[b], List.cons_ne_nil _ _, by simpa using hb, congrArg (· ++ [b]) h.2⟩
  | digits base =>
    rw [hs] at h
    obtain ⟨digits, hd, hall, hbytes⟩ := h
    obtain ⟨rfl, hb⟩ := nextInteger_eq_more ((next_of_digits hs _).symm.trans hn)
    refine ⟨digits ++ [b], by simp, ?_, by rw [hbytes, List.append_assoc]⟩
    simpa [or_imp, forall_and] using ⟨hall, hb⟩
  | quoted q =>
    rw [hs] at h
    by_cases hq : q = .closed
    · rw [next_of_closed (hq ▸ hs)] at hn
      cases hn
    · rw [next_of_quoted hs hq] at hn
      cases hn
      exact Quoting.fits_push h hq b

/-- A lexeme that is complete is a whole one of its kind, and what lies ahead
may come after it. -/
theorem lexeme_of_next {l : Lexeme} {ahead : Option UInt8} {k : Kind}
    (h : l.shape.Fits l.bytes) (hn : l.next ahead = .complete)
    (hk : l.shape.kind? = some k) : k.Lexeme l.bytes ∧ k.EndsBefore ahead := by
  cases hs : l.shape with
  | mark m =>
    rw [hs] at h hk
    cases hk
    exact ⟨h, trivial⟩
  | blank =>
    rw [hs] at hk
    cases hk
  | word =>
    rw [hs] at h hk
    cases hk
    refine ⟨h, ?_⟩
    cases ahead with
    | none => trivial
    | some b =>
      -- A letter or a digit would have gone on with the word.
      intro hw
      have hmore : l.next (some b) = .more .word :=
        (next_of_word hs _).trans (if_pos (ByteClass.isWordPart_of_iff.2 hw))
      cases hn.symm.trans hmore
  | zero =>
    rw [hs] at h hk
    cases hk
    rw [next_of_zero hs] at hn
    split at hn
    · cases hn
    · -- A zero alone is an integer of one digit, without a sign.
      refine ⟨⟨.decimal, ['0'.toUInt8], List.cons_ne_nil _ _, ?_, h⟩,
        (nextInteger_eq_complete hn).2⟩
      simpa using (by decide)
  | bare base =>
    -- Without digits an integer is never complete.
    rw [next_of_bare hs] at hn
    cases (nextInteger_eq_complete hn).1
  | digits base =>
    rw [hs] at h hk
    cases hk
    rw [next_of_digits hs] at hn
    exact ⟨⟨base, h⟩, (nextInteger_eq_complete hn).2⟩
  | quoted q =>
    rw [hs] at h hk
    cases hk
    cases closed_of_complete hs hn
    exact ⟨h, trivial⟩

end Lexeme

end ByteLayout
