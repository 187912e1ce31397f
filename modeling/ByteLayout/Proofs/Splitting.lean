/-
  ByteLayout.Proofs.Splitting
  ───────────────────────────
  **A SOURCE IN TWO PARTS.**

  A source can be split where the tokens of its first part are complete.  The
  second part is then read as if it stood alone, only further on:

      tokens    those of the second part come after those of the first
      errors    those of the second part count offsets from the start of the
                whole

  Two facts carry this.  Reading does not depend on where a source starts
  (`scanFrom_add`), and bytes that spell tokens leave what comes after them to
  itself (`Spelled.splits`).

  Blank space is such a place wherever it does not stand in a string.  For it
  has the effect that the end of the input has (`Lexeme.next_of_isBlank`), on
  complete lexemes and on those that are refused.  The main result states
  this for whole sources (`blank_splits`).
-/
import ByteLayout.Proofs.EarlyEnd

namespace ByteLayout

/-! ## §1. Reading does not depend on where a source starts. -/

/-- The error, in a source that stands so many bytes further on. -/
def LexicalError.shift (n : Nat) : LexicalError → LexicalError
  | .unknownByte byte offset => .unknownByte byte (offset + n)
  | .fraction offset => .fraction (offset + n)
  | .badFollower byte offset => .badFollower byte (offset + n)
  | .badDigit byte base offset => .badDigit byte base (offset + n)
  | .noDigits text offset => .noDigits text (offset + n)
  | .notUtf8 offset => .notUtf8 (offset + n)
  | .unreadable reason => .unreadable reason
  | .unfinished kind text => .unfinished kind text
  | .tooLong limit => .tooLong limit

/-- The sighting, in a source that stands so many bytes further on. -/
def Sighting.shift (n : Nat) (s : Sighting) : Sighting :=
  { s with start := s.start + n }

/-- What a scan comes to, in a source that stands so many bytes further on. -/
def shifted (n : Nat) (found : Except LexicalError (List Sighting)) :
    Except LexicalError (List Sighting) :=
  (found.map (List.map (Sighting.shift n))).mapError (LexicalError.shift n)

/-- The verdict, in a source that stands so many bytes further on. -/
def Verdict.shift (n : Nat) : Verdict → Verdict
  | .more s => .more s
  | .complete => .complete
  | .refuse e => .refuse (e.shift n)

namespace Lexeme

/-- The lexeme, in a source that stands so many bytes further on. -/
def shift (n : Nat) (l : Lexeme) : Lexeme :=
  { l with start := l.start + n }

variable (n : Nat) (l : Lexeme)

theorem stop_shift : (l.shift n).stop = l.stop + n :=
  Nat.add_right_comm l.start n l.held.length

/-- An integer ends in the same way further on. -/
theorem endInteger_shift (base : Base) (bare : Bool) :
    (l.shift n).endInteger base bare = (l.endInteger base bare).shift n := by
  cases bare <;> rfl

theorem nextInteger_shift (base : Base) (bare : Bool) (ahead : Option UInt8) :
    (l.shift n).nextInteger base bare ahead
      = (l.nextInteger base bare ahead).shift n := by
  cases ahead with
  | none => exact endInteger_shift n l base bare
  | some b =>
    unfold nextInteger
    rw [stop_shift, endInteger_shift]
    repeat' split
    all_goals rfl

/-- Where a lexeme starts bears on nothing but the offsets in errors. -/
theorem next_shift (ahead : Option UInt8) :
    (l.shift n).next ahead = (l.next ahead).shift n := by
  have hs : (l.shift n).shape = l.shape := rfl
  -- Only the offset in an error depends on where the lexeme is.
  cases hl : l.shape with
  | mark m => rw [next_of_mark (hs.trans hl), next_of_mark hl]; rfl
  | blank =>
    rw [next_of_blank (hs.trans hl), next_of_blank hl]
    split <;> rfl
  | word =>
    rw [next_of_word (hs.trans hl), next_of_word hl]
    split <;> rfl
  | zero =>
    rw [next_of_zero (hs.trans hl), next_of_zero hl]
    cases ahead.bind Base.ofLetter? with
    | none => exact nextInteger_shift n l .decimal false ahead
    | some base => rfl
  | bare base =>
    rw [next_of_bare (hs.trans hl), next_of_bare hl]
    exact nextInteger_shift n l base true ahead
  | digits base =>
    rw [next_of_digits (hs.trans hl), next_of_digits hl]
    exact nextInteger_shift n l base false ahead
  | quoted q =>
    by_cases hq : q = .closed
    · subst hq
      rw [next_of_closed (hs.trans hl), next_of_closed hl]
      rfl
    · cases ahead with
      | none => rw [next_none_of_quoted (hs.trans hl) hq, next_none_of_quoted hl hq]; rfl
      | some b => rw [next_of_quoted (hs.trans hl) hq, next_of_quoted hl hq]; rfl

/-- The token that it makes is the same, at an offset further on. -/
theorem token_shift :
    (l.shift n).token
      = (l.token.map (Option.map (Sighting.shift n))).mapError (LexicalError.shift n) := by
  have hs : (l.shift n).shape = l.shape := rfl
  have hb : (l.shift n).bytes = l.bytes := rfl
  unfold token
  rw [hs, hb]
  cases l.shape.kind? with
  | none => rfl
  | some kind =>
    cases Utf8.text? l.bytes with
    | some text => rfl
    | none =>
      have hoffset : (l.shift n).start + Utf8.validLength l.bytes
          = l.start + Utf8.validLength l.bytes + n :=
        Nat.add_right_comm l.start n _
      dsimp only
      rw [hoffset]
      rfl

/-- A byte begins the same lexeme wherever it stands. -/
theorem begin?_add (offset : Nat) (b : UInt8) :
    begin? (offset + n) b
      = ((begin? offset b).map (shift n)).mapError (LexicalError.shift n) := by
  unfold begin?
  cases Shape.start? b <;> rfl

/-- If scans of the bytes after the first can be shifted, so can those that
begin a lexeme with the first. -/
theorem scanFrom_add_of_scan {bs : List UInt8}
    (h : ∀ l : Lexeme, (l.shift n).scan bs = shifted n (l.scan bs))
    (offset : Nat) (b : UInt8) :
    scanFrom (offset + n) (b :: bs) = shifted n (scanFrom offset (b :: bs)) := by
  rw [scanFrom, scanFrom, begin?_add]
  cases begin? offset b with
  | error e => rfl
  | ok next => exact h next

/-- A complete lexeme makes its token, and what comes after it is shifted as
well. -/
theorem scan_shift_of_complete {bs : List UInt8} (hn : l.next bs.head? = .complete)
    (hrest : scanFrom (l.stop + n) bs = shifted n (scanFrom l.stop bs)) :
    (l.shift n).scan bs = shifted n (l.scan bs) := by
  have hn' : (l.shift n).next bs.head? = .complete := by
    rw [next_shift, hn]
    rfl
  rw [scan_of_complete bs hn', scan_of_complete bs hn, token_shift, stop_shift, hrest]
  cases l.token with
  | error e => rfl
  | ok found =>
    cases scanFrom l.stop bs with
    | error e => rfl
    | ok others => cases found <;> rfl

/-- An error is the same further on, but for its offset. -/
theorem scan_shift_of_refuse {bs : List UInt8} {e : LexicalError}
    (hn : l.next bs.head? = .refuse e) :
    (l.shift n).scan bs = shifted n (l.scan bs) := by
  have hn' : (l.shift n).next bs.head? = .refuse (e.shift n) := by
    rw [next_shift, hn]
    rfl
  rw [scan_of_refuse bs hn', scan_of_refuse bs hn]
  rfl

/-- So a scan is the same scan wherever its lexeme starts. -/
theorem scan_shift (bs : List UInt8) :
    (l.shift n).scan bs = shifted n (l.scan bs) := by
  induction bs generalizing l with
  | nil =>
    cases hn : l.next none with
    | more s => exact absurd hn (l.next_none_ne_more s)
    | complete => exact scan_shift_of_complete n l hn rfl
    | refuse e => exact scan_shift_of_refuse n l hn
  | cons b bs ih =>
    cases hn : l.next (some b) with
    | more s =>
      have hn' : (l.shift n).next (some b) = .more s := by
        rw [next_shift, hn]
        rfl
      rw [scan_of_more hn', scan_of_more hn]
      exact ih (l.push s b)
    | complete =>
      exact scan_shift_of_complete n l hn (scanFrom_add_of_scan n ih l.stop b)
    | refuse e => exact scan_shift_of_refuse n l hn

end Lexeme

/-- A source is read alike wherever it starts, with other offsets. -/
theorem scanFrom_add (offset n : Nat) (bs : List UInt8) :
    scanFrom (offset + n) bs = shifted n (scanFrom offset bs) := by
  cases bs with
  | nil => rfl
  | cons b bs =>
    exact Lexeme.scanFrom_add_of_scan n (fun l => l.scan_shift n bs) offset b

/-! ## §2. Where a source splits. -/

/-- The first bytes make the tokens, and leave what comes after them to
itself: wherever they start, it is read as if no tokens came before it. -/
def Splits (front : List UInt8) (ts : List Token) (rest : List UInt8) : Prop :=
  ∀ offset, ∃ found, found.map Sighting.token = ts
    ∧ scanFrom offset (front ++ rest)
      = (scanFrom (offset + front.length) rest).map (found ++ ·)

section

variable {front mid rest : List UInt8} {ts us : List Token}

/-- A source splits after blank space, which makes no token. -/
theorem splits_blank {blank : List UInt8} (hblank : ∀ b ∈ blank, ByteClass.isBlank b)
    (rest : List UInt8) : Splits blank [] rest := by
  intro offset
  refine ⟨[], rfl, ?_⟩
  rw [scanFrom_blank_append hblank]
  cases scanFrom (offset + blank.length) rest <;> rfl

/-- It splits after a lexeme that may end there. -/
theorem splits_lexeme {t : Token} (h : t.kind.Lexeme (Utf8.bytes t.text))
    (hends : t.kind.EndsBefore rest.head?) : Splits (Utf8.bytes t.text) [t] rest := by
  intro offset
  refine ⟨[⟨t, offset⟩], rfl, ?_⟩
  exact scanFrom_lexeme_append h hends offset

/-- And what splits after one part and after the next splits after both. -/
theorem Splits.append (h : Splits front ts (mid ++ rest)) (h' : Splits mid us rest) :
    Splits (front ++ mid) (ts ++ us) rest := by
  intro offset
  obtain ⟨found, rfl, hfront⟩ := h offset
  obtain ⟨others, rfl, hmid⟩ := h' (offset + front.length)
  refine ⟨found ++ others, List.map_append, ?_⟩
  rw [List.append_assoc, hfront, hmid, List.length_append, ← Nat.add_assoc]
  cases scanFrom (offset + front.length + mid.length) rest with
  | error e => rfl
  | ok last => exact congrArg Except.ok (List.append_assoc found others last).symm

theorem Spelled.eq_nil (h : Spelled [] ts) : ts = [] :=
  Except.ok.inj ((tokensOf_eq_ok_iff.2 h).symm.trans rfl)

/-- A source splits after any bytes that spell tokens, if what comes after
them may come after the last token. -/
theorem Spelled.splits (h : Spelled front ts)
    (hends : ∀ t ∈ ts.getLast?, t.kind.EndsBefore rest.head?) :
    Splits front ts rest := by
  -- The last token ends before the rest; the others end as they did.
  induction h with
  | gap hblank => exact splits_blank hblank rest
  | @token blank others t ts hblank hlexeme hnext hothers ih =>
    have hlexeme' : t.kind.EndsBefore (others ++ rest).head? := by
      cases others with
      | cons b bs => exact hnext
      | nil =>
        -- Here the token is the last one.
        cases hothers.eq_nil
        exact hends t rfl
    have hlast : ∀ u ∈ ts.getLast?, u.kind.EndsBefore rest.head? := by
      intro u hu
      apply hends
      rw [List.getLast?_cons, hu]
      rfl
    exact ((splits_blank hblank _).append (splits_lexeme hlexeme hlexeme')).append
      (ih hlast)

/-- What may come after an integer may come after every token, so that a source
splits in front of it wherever the tokens are whole. -/
theorem splits_of_tokensOf (h : tokensOf front = .ok ts) {b : UInt8}
    (hb : Kind.integer.EndsBefore (some b)) (rest : List UInt8) :
    Splits front ts (b :: rest) := by
  apply (tokensOf_eq_ok_iff.1 h).splits
  intro t _
  exact Kind.endsBefore_of_integer hb t.kind

/-- Where a source splits, its tokens are those of both parts, or the error is
that of the second part, further on. -/
theorem Splits.tokensOf_append (h : Splits front ts rest) :
    tokensOf (front ++ rest)
      = ((tokensOf rest).map (ts ++ ·)).mapError (LexicalError.shift front.length) := by
  obtain ⟨found, rfl, hfront⟩ := h 0
  rw [tokensOf_eq_scan, tokensOf_eq_scan, hfront, scanFrom_add]
  cases scanFrom 0 rest with
  | error e => rfl
  | ok others =>
    show Except.ok ((found ++ others.map (Sighting.shift front.length)).map Sighting.token)
      = Except.ok (found.map Sighting.token ++ others.map Sighting.token)
    rw [List.map_append, List.map_map]
    rfl

end

/-! ## §3. Blank space and the end of the input. -/

namespace Lexeme

variable {l : Lexeme} {w : UInt8}

/-- To an integer, blank space ahead is the end of the input. -/
theorem nextInteger_of_isBlank (hw : ByteClass.isBlank w) (base : Base) (bare : Bool) :
    l.nextInteger base bare (some w) = l.nextInteger base bare none := by
  simp only [nextInteger]
  exact if_pos (ByteClass.endsInteger_of_iff.2 (.inl hw))

/-- To a lexeme that makes a token, blank space ahead is the end of the input;
only an open string goes on with the one and lacks something at the other. -/
theorem next_of_isBlank (hw : ByteClass.isBlank w) {k : Kind}
    (hk : l.shape.kind? = some k) :
    l.next (some w) = l.next none
      ∨ ∃ s, l.next (some w) = .more s
        ∧ l.next none = .refuse (.unfinished .string (Utf8.lossy l.bytes)) := by
  have hclass : ByteClass.of w = .blank := ByteClass.of_eq_blank_iff.2 hw
  cases hs : l.shape with
  | mark m =>
    left
    rw [next_of_mark hs, next_of_mark hs]
  | blank =>
    rw [hs] at hk
    cases hk
  | word =>
    left
    have hahead : ByteClass.ahead (some w) = ByteClass.ahead none := hclass
    rw [next_of_word hs, next_of_word hs, hahead]
  | zero =>
    left
    -- Blank space announces no base after a zero.
    have hletter : Base.ofLetter? w = none :=
      Base.ofLetter?_of_endsInteger (ByteClass.endsInteger_of_iff.2 (.inl hw))
    rw [next_of_zero hs, next_of_zero hs, Option.bind_some, hletter]
    exact nextInteger_of_isBlank hw .decimal false
  | bare base =>
    left
    rw [next_of_bare hs, next_of_bare hs]
    exact nextInteger_of_isBlank hw base true
  | digits base =>
    left
    rw [next_of_digits hs, next_of_digits hs]
    exact nextInteger_of_isBlank hw base false
  | quoted q =>
    by_cases hq : q = .closed
    · left
      rw [next_of_closed (hq ▸ hs), next_of_closed (hq ▸ hs)]
    · -- An open string takes the blank, and would be refused without it.
      right
      exact ⟨_, next_of_quoted hs hq w, next_none_of_quoted hs hq⟩

/-- So the verdict at the end of the input is the one before blank space,
unless it is that a string is unfinished. -/
theorem next_blank_of_next_none (hw : ByteClass.isBlank w) {k : Kind}
    (hk : l.shape.kind? = some k) {v : Verdict} (hn : l.next none = v)
    (hv : ∀ text, v ≠ .refuse (.unfinished .string text)) : l.next (some w) = v := by
  rcases next_of_isBlank hw hk with hsame | ⟨s, -, hopen⟩
  · exact hsame.trans hn
  · exact absurd (hn.symm.trans hopen) (hv _)

/-- Only what makes a token can be refused at the end of the input. -/
theorem exists_kind_of_refuse {e : LexicalError} (h : l.next none = .refuse e) :
    ∃ k, l.shape.kind? = some k := by
  rcases next_none_eq_refuse h with ⟨q, -, hs, -⟩ | ⟨base, hs, -⟩
  · exact ⟨.string, by rw [hs]; rfl⟩
  · exact ⟨.integer, by rw [hs]; rfl⟩

theorem exists_kind_of_token_eq_error {e : LexicalError} (h : l.token = .error e) :
    ∃ k, l.shape.kind? = some k := by
  cases hk : l.shape.kind? with
  | some k => exact ⟨k, rfl⟩
  | none => cases (token_of_blank hk).symm.trans h

/-- What the end of the input has against a lexeme, blank space has against
it too. -/
theorem scan_blank_of_error {e : LexicalError} (h : l.scan [] = .error e)
    (he : ∀ kind text, e ≠ .unfinished kind text) (hw : ByteClass.isBlank w)
    (rest : List UInt8) : l.scan (w :: rest) = .error e := by
  rcases scan_nil_eq_error h with hn | ⟨hn, ht⟩
  · obtain ⟨k, hk⟩ := exists_kind_of_refuse hn
    refine scan_of_refuse (w :: rest) (next_blank_of_next_none hw hk hn ?_)
    intro text hv
    cases hv
    exact he _ _ rfl
  · obtain ⟨k, hk⟩ := exists_kind_of_token_eq_error ht
    refine scan_of_token_eq_error (w :: rest) (next_blank_of_next_none hw hk hn ?_) ht
    intro text hv
    cases hv

end Lexeme

section

variable {front rest : List UInt8} {w : UInt8}

/-- A source splits at blank space after whole tokens. -/
theorem tokensOf_blank_of_ok {ts : List Token} (h : tokensOf front = .ok ts)
    (hw : ByteClass.isBlank w) (rest : List UInt8) :
    tokensOf (front ++ w :: rest)
      = ((tokensOf rest).map (ts ++ ·)).mapError
          (LexicalError.shift (front.length + 1)) := by
  have hfront : Splits front ts (w :: rest) := splits_of_tokensOf h (.inl hw) rest
  have hblank : Splits [w] [] rest :=
    splits_blank (List.forall_mem_singleton.2 hw) rest
  have hboth := (hfront.append hblank).tokensOf_append
  rwa [List.append_nil, ← List.append_cons, List.length_append] at hboth

/-- A fault before blank space stays, unless it is that the source ends within
a string. -/
theorem tokensOf_blank_of_error {e : LexicalError} (h : tokensOf front = .error e)
    (he : ∀ kind text, e ≠ .unfinished kind text) (hw : ByteClass.isBlank w)
    (rest : List UInt8) : tokensOf (front ++ w :: rest) = .error e := by
  simp only [tokensOf, Lexer.pushAll_append] at h ⊢
  cases hx : (Lexer.empty.pushAll front).state with
  | error e' =>
    -- A byte in front is at fault, and stays so.
    have hstays := Lexer.outcome_of_error hx
    cases (hstays []).symm.trans h
    exact hstays (w :: rest)
  | ok inHand =>
    cases inHand with
    | none =>
      -- Nothing in front is no fault.
      cases (show front = [] from Lexer.inHand_pushAll hx)
      cases h
    | some l =>
      have hscan := (Lexer.outcome_eq_error_iff_scan hx []).1 h
      exact (Lexer.outcome_eq_error_iff_scan hx (w :: rest)).2
        (Lexeme.scan_blank_of_error hscan he hw rest)

end

/-- **Blank space splits a source.**  After tokens and blank space the rest of
a source is read as it would be alone, with offsets from the start of the
whole.  A fault in front of blank space is the fault of the whole, unless it is
that a string is open there.  For to a lexeme that makes a token, other than an
open string, blank space ahead is the end of the input. -/
theorem blank_splits (front rest : List UInt8) (w : UInt8)
    (hw : ByteClass.isBlank w) :
    (∀ ts, (Intake.standard.read (.ofBytes front)).outcome = .ok ts →
        (Intake.standard.read (.ofBytes (front ++ w :: rest))).outcome
          = ((Intake.standard.read (.ofBytes rest)).outcome.map (ts ++ ·)).mapError
              (LexicalError.shift (front.length + 1)))
      ∧ (∀ e, (Intake.standard.read (.ofBytes front)).outcome = .error e →
        (∀ kind text, e ≠ .unfinished kind text) →
        (Intake.standard.read (.ofBytes (front ++ w :: rest))).outcome = .error e)
      ∧ ∀ (l : Lexeme) (k : Kind), l.shape.kind? = some k →
        l.next (some w) = l.next none
          ∨ ∃ s, l.next (some w) = .more s
            ∧ l.next none = .refuse (.unfinished .string (Utf8.lossy l.bytes)) := by
  simp only [Intake.outcome_read_standard]
  refine ⟨fun ts h => ?_, fun e h he => ?_, fun l k hk => ?_⟩
  · exact tokensOf_blank_of_ok h hw rest
  · exact tokensOf_blank_of_error h he hw rest
  · exact Lexeme.next_of_isBlank hw hk

/-- An integer and blank space in front of a byte that begins no token, whose
offset is from the start of the whole; and, in front of blank space, a base
without digits and a string that is no text. -/
theorem blank_splits_before_and_after_faults :
    ((Intake.standard.read (.ofBytes (Utf8.bytes "a:0"))).outcome
          = .ok [⟨.identifier, "a"⟩, ⟨.mark .colon, ":"⟩, ⟨.integer, "0"⟩]
        ∧ (Intake.standard.read (.ofBytes
          (Utf8.bytes "a:0" ++ ' '.toUInt8 :: Utf8.bytes "x1#"))).outcome
            = .error (.unknownByte '#'.toUInt8 6))
      ∧ ((Intake.standard.read (.ofBytes (Utf8.bytes "1,0x"))).outcome
          = .error (.noDigits "0x" 2)
        ∧ ∀ rest, (Intake.standard.read (.ofBytes
          (Utf8.bytes "1,0x" ++ '\n'.toUInt8 :: rest))).outcome
            = .error (.noDigits "0x" 2))
      ∧ ((Intake.standard.read (.ofBytes [0x22, 0xFF, 0x22])).outcome
          = .error (.notUtf8 1)
        ∧ ∀ rest, (Intake.standard.read (.ofBytes
          ([0x22, 0xFF, 0x22] ++ '\r'.toUInt8 :: rest))).outcome
            = .error (.notUtf8 1))
      ∧ (⟨0, .zero, ['0'.toUInt8]⟩ : Lexeme).next (some ' '.toUInt8) = .complete := by
  have htokens : (Intake.standard.read (.ofBytes (Utf8.bytes "a:0"))).outcome
      = .ok [⟨.identifier, "a"⟩, ⟨.mark .colon, ":"⟩, ⟨.integer, "0"⟩] := by
    decide +kernel
  have hunknown : (Intake.standard.read (.ofBytes (Utf8.bytes "x1#"))).outcome
      = .error (.unknownByte '#'.toUInt8 2) := by decide +kernel
  have hbare : (Intake.standard.read (.ofBytes (Utf8.bytes "1,0x"))).outcome
      = .error (.noDigits "0x" 2) := by decide +kernel
  have hbroken : (Intake.standard.read (.ofBytes [0x22, 0xFF, 0x22])).outcome
      = .error (.notUtf8 1) := by decide +kernel
  refine ⟨⟨htokens, ?_⟩, ⟨hbare, fun rest => ?_⟩, ⟨hbroken, fun rest => ?_⟩, ?_⟩
  · rw [(blank_splits _ _ _ (by decide)).1 _ htokens, hunknown]
    rfl
  · exact (blank_splits _ rest _ (by decide)).2.1 _ hbare (fun _ _ h => by cases h)
  · exact (blank_splits _ rest _ (by decide)).2.1 _ hbroken (fun _ _ h => by cases h)
  · rcases (blank_splits [] [] ' '.toUInt8 (by decide)).2.2
      ⟨0, .zero, ['0'.toUInt8]⟩ .integer rfl with hsame | ⟨s, -, hopen⟩
    · exact hsame
    · cases hopen

end ByteLayout
