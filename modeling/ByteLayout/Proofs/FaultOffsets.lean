/-
  ByteLayout.Proofs.FaultOffsets
  ──────────────────────────────
  **WHERE A SOURCE IS AT FAULT.**

  An error carries a byte and an offset, or the text of an announcement and
  its offset, or the text of a string that is open.  `LexicalError.Describes`
  says what of this stands in the source, and where.

  A byte at fault is the first that cannot be accepted (`FirstFault`): the
  bytes before it are read as tokens, unless the last two of them announce a
  base (`Lexer.tokensOf_of_push`).  A string that is open begins where tokens
  end, as every lexeme in hand does (`Lexer.tokensOf_take_start`).

  The main result is `faults_located`.
-/
import ByteLayout.Proofs.EarlyEnd
import ByteLayout.Proofs.Sightings

namespace ByteLayout

/-! ## §1. What an error says of a source. -/

/-- The byte at the offset is the first that cannot be accepted.  What comes
before it is read as tokens, or is said to lack digits after its last two
bytes; some bytes after it are read with it in any case; and whatever comes
after the byte, the error is this one. -/
structure FirstFault (source : List UInt8) (offset : Nat) (e : LexicalError) : Prop where
  before : (∃ ts, (Intake.standard.read (.ofBytes (source.take offset))).outcome = .ok ts)
    ∨ 2 ≤ offset ∧ ∃ text, (Intake.standard.read (.ofBytes (source.take offset))).outcome
      = .error (.noDigits text (offset - 2))
  mended : ∃ more ts, (Intake.standard.read
    (.ofBytes (source.take offset ++ more))).outcome = .ok ts
  stays : ∀ more, (Intake.standard.read
    (.ofBytes (source.take (offset + 1) ++ more))).outcome = .error e

/-- What the error says holds of the source.  A byte at fault stands at its
offset, and a point after a digit; an announcement stands at its offset, where
an integer could end after it; and the text of an unfinished string is that of
the source from a quotation mark on, before which there are tokens. -/
def LexicalError.Describes (source : List UInt8) (e : LexicalError) : Prop :=
  match e with
  | .unknownByte b offset | .badFollower b offset | .badDigit b _ offset =>
    source[offset]? = some b ∧ FirstFault source offset e
  | .fraction offset =>
    source[offset]? = some Mark.dot.byte ∧ FirstFault source offset e
      ∧ 0 < offset ∧ ∃ d, source[offset - 1]? = some d ∧ ByteClass.isDigit d
  | .noDigits text offset =>
    offset + 2 ≤ source.length ∧ (source.drop offset).take 2 = Utf8.bytes text
      ∧ Kind.integer.EndsBefore source[offset + 2]?
  | .unfinished kind text =>
    kind = .string ∧ ∃ start ts, source[start]? = some quotationMark
      ∧ text = Utf8.lossy (source.drop start)
      ∧ (Intake.standard.read (.ofBytes (source.take start))).outcome = .ok ts
  | .notUtf8 _ => True
  | .unreadable _ | .tooLong _ => False

/-! ## §2. What the lexeme in hand is, where it is refused. -/

/-- The announcement of a base is a zero and a letter. -/
theorem Base.length_sign {base : Base} (h : base ≠ .decimal) :
    (Utf8.bytes base.sign).length = 2 := by
  cases base with
  | decimal => exact absurd rfl h
  | _ => decide +kernel

namespace Lexeme

variable {l : Lexeme} {source : List UInt8} {base : Base} {b : UInt8} {e : LexicalError}

/-- A lexeme that begins has the offset of its byte. -/
theorem start_of_begin? {offset : Nat} (h : (begin? offset b).map some = .ok (some l)) :
    l.start = offset := by
  cases hb : begin? offset b with
  | error e => rw [hb] at h; cases h
  | ok next =>
    rw [hb] at h
    cases h
    obtain ⟨s, -, rfl⟩ := begin?_eq_ok_iff.1 hb
    rfl

/-- Only where an integer could end are digits said to be missing. -/
theorem endsBefore_of_noDigits {text : String} {offset : Nat}
    (hs : l.shape = .bare base) (h : l.next (some b) = .refuse (.noDigits text offset)) :
    Kind.integer.EndsBefore (some b) := by
  rw [next_of_bare hs] at h
  simp only [nextInteger] at h
  split at h
  · next hends => exact ByteClass.endsInteger_of_iff.1 hends
  · repeat' split at h
    all_goals cases h

/-- An announcement in hand is the last two bytes. -/
theorem EndOf.length_of_bare (hl : l.EndOf source) (hs : l.shape = .bare base) :
    source.length = l.start + 2 := by
  have hf := hl.fits
  rw [hs] at hf
  rw [← hl.stop_eq, stop_eq_add_length, hf.2, Base.length_sign hf.1]

/-- An announcement that ends without digits is what its error says it is. -/
theorem EndOf.describes_noDigits (hl : l.EndOf source) (hs : l.shape = .bare base)
    {rest : List UInt8} (hends : Kind.integer.EndsBefore rest.head?) :
    (LexicalError.noDigits base.sign l.start).Describes (source ++ rest) := by
  have hlength := hl.length_of_bare hs
  have hf := hl.fits
  rw [hs] at hf
  refine ⟨?_, ?_, ?_⟩
  · rw [List.length_append]
    omega
  · rw [List.drop_append_of_le_length hl.start_le, hl.drop_start, hf.2,
      List.take_left' (Base.length_sign hf.1)]
  · rwa [← hlength, List.getElem?_append_right (Nat.le_refl _), Nat.sub_self,
      ← List.head?_eq_getElem?]

/-- Before a point that is refused comes a digit. -/
theorem EndOf.exists_last_digit (hl : l.EndOf source)
    (hs : l.shape = .zero ∨ l.shape = .digits .decimal) :
    ∃ front d, source = front ++ [d] ∧ ByteClass.isDigit d := by
  have hf := hl.fits
  obtain ⟨init, d, hbytes, hd⟩ :
      ∃ init d, l.bytes = init ++ [d] ∧ ByteClass.isDigit d := by
    rcases hs with hs | hs <;> rw [hs] at hf
    · exact ⟨[], '0'.toUInt8, hf, by decide⟩
    · obtain ⟨digits, hne, hall, hbytes⟩ := hf
      have hlast := hall _ (List.getLast_mem hne)
      refine ⟨digits.dropLast, digits.getLast hne, ?_, ?_⟩
      · rw [List.dropLast_append_getLast, hbytes]
        rfl
      · simpa [ByteClass.isDigit, Base.IsDigit] using hlast
  exact ⟨source.take l.start ++ init, d,
    by rw [List.append_assoc, ← hbytes, hl.take_append], hd⟩

end Lexeme

/-! ## §3. What comes before a fault. -/

namespace Lexer

variable {source : List UInt8} {inHand : Option Lexeme} {l : Lexeme} {b : UInt8}
  {e : LexicalError}

/-- A byte that begins the next lexeme, or goes on with the one in hand, keeps
the bytes before the lexeme read as the tokens found. -/
theorem tokensOf_take_start_push {m : Lexeme}
    (hx : (empty.pushAll source).state = .ok (some m))
    (hm : tokensOf (source.take m.start) = .ok (empty.pushAll source).tokens)
    (hpush : ((empty.pushAll source).push b).state = .ok (some l)) :
    tokensOf ((source ++ [b]).take l.start)
      = .ok ((empty.pushAll source).push b).tokens := by
  have hsource : m.EndOf source := inHand_pushAll hx
  rcases push_cases hx b with
    ⟨s, -, hs, hsame⟩ | ⟨e, -, hs, -⟩ | ⟨e, -, -, hs, -⟩ | ⟨found, hn, ht, hs, hmore⟩
  · -- The lexeme goes on, and begins where it did.
    cases hs.symm.trans hpush
    show tokensOf ((source ++ [b]).take m.start) = _
    rw [List.take_append_of_le_length hsource.start_le, hm, tokens, tokens, hsame]
  · cases hs.symm.trans hpush
  · cases hs.symm.trans hpush
  · -- The next lexeme begins where the source would end.
    rw [Lexeme.start_of_begin? (hs.symm.trans hpush), hsource.stop_eq, List.take_left,
      tokens, hmore]
    exact outcome_close_of_complete hx (Lexeme.next_none_of_complete hn) ht

/-- The lexeme in hand begins where the tokens found end: the bytes before it
are read as these. -/
theorem tokensOf_take_start (hx : (empty.pushAll source).state = .ok (some l)) :
    tokensOf (source.take l.start) = .ok (empty.pushAll source).tokens := by
  induction source using List.reverseRecOn generalizing l with
  | nil => cases hx
  | append_singleton source b ih =>
    rw [pushAll_append, pushAll_cons, pushAll_nil] at hx ⊢
    cases hbefore : (empty.pushAll source).state with
    | error e => cases hx.symm.trans ((congrArg state (push_of_error hbefore b)).trans hbefore)
    | ok before =>
      cases before with
      -- The byte may have completed a lexeme, which is then the last one found.
      | some m => exact tokensOf_take_start_push hbefore (ih hbefore) hx
      | none =>
        cases (show source = [] from inHand_pushAll hbefore)
        rw [Lexeme.start_of_begin? ((state_push_of_none hbefore b).symm.trans hx), tokens,
          sightings_push_of_none hbefore]
        rfl

/-- What a byte is refused after is read as tokens, if it is not the
announcement of a base. -/
theorem tokensOf_of_push (hx : (empty.pushAll source).state = .ok inHand)
    (hpush : ((empty.pushAll source).push b).state = .error e)
    (hne : ∀ offset, e ≠ .notUtf8 offset) :
    (∃ ts, tokensOf source = .ok ts)
      ∨ ∃ l base, inHand = some l ∧ l.shape = .bare base
        ∧ tokensOf source = .error (.noDigits base.sign l.start) := by
  have hsource := inHand_pushAll hx
  cases inHand with
  | none =>
    cases (show source = [] from hsource)
    exact .inl ⟨[], rfl⟩
  | some l =>
    have hl : l.EndOf source := hsource
    rcases close_cases hx with
      ⟨e', hn, hs, -⟩ | ⟨e', hn, ht, -, -⟩ | ⟨found, hn, ht, -, -⟩
    · rcases Lexeme.next_none_eq_refuse hn with ⟨q, hq, hquoted, -⟩ | ⟨base, hbare, rfl⟩
      · -- An open string takes any byte.
        rw [push_of_lexeme hx, Lexeme.next_of_quoted hquoted hq] at hpush
        cases hpush
      · -- The announcement of a base is an error without the byte, too.
        exact .inr ⟨l, base, rfl, hbare, outcome_eq_error hs⟩
    · -- The byte completes a closed string that is no text.
      have hclosed := Lexeme.closed_of_token_eq_error hl.fits hn ht
      rw [push_of_lexeme hx, Lexeme.next_of_closed hclosed] at hpush
      cases (state_retire_of_error ht).symm.trans hpush
      exact absurd (Lexeme.eq_notUtf8_of_token_eq_error ht) (hne _)
    · exact .inl ⟨_, outcome_close_of_complete hx hn ht⟩

/-- A byte at fault is the first that cannot be accepted. -/
theorem firstFault_of_push (hx : (empty.pushAll source).state = .ok inHand)
    (hpush : ((empty.pushAll source).push b).state = .error e)
    (hne : ∀ offset, e ≠ .notUtf8 offset) (after : List UInt8) :
    FirstFault (source ++ b :: after) source.length e := by
  have htake : (source ++ b :: after).take source.length = source := List.take_left
  have hsucc : (source ++ b :: after).take (source.length + 1) = source ++ [b] := by
    rw [List.take_length_add_append]
    rfl
  have hstays (more : List UInt8) : tokensOf (source ++ [b] ++ more) = .error e := by
    rw [tokensOf, pushAll_append]
    exact outcome_of_error (by rw [pushAll_append]; exact hpush) more
  constructor <;> simp only [Intake.outcome_read_standard, htake, hsucc]
  case stays => exact hstays
  case before =>
    refine (tokensOf_of_push hx hpush hne).imp_right fun h => ?_
    obtain ⟨l, base, rfl, hbare, herror⟩ := h
    have hlength := (show l.EndOf source from inHand_pushAll hx).length_of_bare hbare
    exact ⟨by omega, base.sign, by rw [herror, hlength, Nat.add_sub_cancel]⟩
  case mended =>
    rcases tokensOf_of_push hx hpush hne with ⟨ts, hts⟩ | ⟨l, base, rfl, hbare, -⟩
    · exact ⟨[], ts, by rw [List.append_nil, hts]⟩
    · have hf := (show l.EndOf source from inHand_pushAll hx).fits
      -- A digit after the announcement mends what is before the byte.
      obtain ⟨ts, hts⟩ := exists_outcome_of_scan hx (Lexeme.exists_scan_bare hbare hf)
      exact ⟨_, ts, by rw [tokensOf, pushAll_append, hts]⟩

/-! ## §4. Every error describes its source. -/

/-- An error that a byte raises describes the source, whatever comes after the
byte. -/
theorem describes_of_push (hx : (empty.pushAll source).state = .ok inHand)
    (hpush : ((empty.pushAll source).push b).state = .error e) (after : List UInt8) :
    e.Describes (source ++ b :: after) := by
  have hbyte : (source ++ b :: after)[source.length]? = some b := by simp
  have hfirst (hne : ∀ offset, e ≠ .notUtf8 offset) :
      FirstFault (source ++ b :: after) source.length e :=
    firstFault_of_push hx hpush hne after
  rcases push_error_cases hx (inHand_pushAll hx) hpush with
    ⟨l, rfl, hn⟩ | ⟨l, rfl, -, ht⟩ | ⟨rfl, -⟩
  · have hl : l.EndOf source := inHand_pushAll hx
    have hstop : l.stop = source.length := hl.stop_eq
    -- Each error of an integer carries what stands at its offset.
    cases Lexeme.refused_of_next hl.fits hn with
    | noDigits hs => exact hl.describes_noDigits hs (Lexeme.endsBefore_of_noDigits hs hn)
    | fraction hb hs =>
      obtain ⟨front, d, rfl, hd⟩ := hl.exists_last_digit hs
      refine ⟨hstop ▸ hb ▸ hbyte, hstop ▸ hfirst nofun, ?_, d, ?_, hd⟩
      · rw [hstop, List.length_append]
        exact Nat.succ_pos _
      · rw [hstop]
        simp
    | badDigit base => exact ⟨hstop ▸ hbyte, hstop ▸ hfirst nofun⟩
    | badFollower => exact ⟨hstop ▸ hbyte, hstop ▸ hfirst nofun⟩
  · cases Lexeme.eq_notUtf8_of_token_eq_error ht
    trivial
  · exact ⟨hbyte, hfirst nofun⟩

/-- And so does an error that the end of the source raises. -/
theorem describes_of_close (hx : (empty.pushAll source).state = .ok inHand)
    (h : (empty.pushAll source).close.state = .error e) : e.Describes source := by
  cases inHand with
  | none => cases hx.symm.trans ((congrArg state (close_of_none hx)).symm.trans h)
  | some l =>
    have hl : l.EndOf source := inHand_pushAll hx
    rcases close_cases hx with
      ⟨e', hn, hs, -⟩ | ⟨e', -, ht, hs, -⟩ | ⟨found, -, -, hs, -⟩
    · cases hs.symm.trans h
      rcases Lexeme.next_none_eq_refuse hn with ⟨q, hq, hquoted, rfl⟩ | ⟨base, hbare, rfl⟩
      · -- An open string begins with its quotation mark.
        have hf := hl.fits
        rw [hquoted] at hf
        refine ⟨rfl, l.start, _, ?_, by rw [hl.drop_start],
          (Intake.outcome_read_standard _).trans (tokensOf_take_start hx)⟩
        rw [← (Quoting.Fits.isOpenString hf hq).1, ← hl.drop_start, List.getElem?_drop]
        rfl
      · rw [← List.append_nil source]
        exact hl.describes_noDigits hbare trivial
    · cases hs.symm.trans h
      cases Lexeme.eq_notUtf8_of_token_eq_error ht
      trivial
    · cases hs.symm.trans h

end Lexer

/-- **Where a source is at fault.**  Whatever error a source is rejected with
describes it: the bytes and texts that the error carries stand in the source
at its offset, and a byte at fault is the first that cannot be accepted. -/
theorem faults_located (source : List UInt8) (e : LexicalError)
    (h : (Intake.standard.read (.ofBytes source)).outcome = .error e) :
    e.Describes source := by
  rw [Intake.outcome_read_standard] at h
  rcases Lexer.fault_cases h with
    ⟨before, b, after, inHand, rfl, hx, hpush⟩ | ⟨inHand, hx, hclose⟩
  · exact Lexer.describes_of_push hx hpush after
  · exact Lexer.describes_of_close hx hclose

/-- A byte that begins nothing; a point; a byte that is no digit of the base
announced before it; an announcement before a mark; and a string that is
open. -/
theorem faults_located_of_each :
    ((Intake.standard.read (.ofBytes (Utf8.bytes "a:~"))).outcome
          = .error (.unknownByte 0x7E 2)
        ∧ (LexicalError.unknownByte 0x7E 2).Describes (Utf8.bytes "a:~"))
      ∧ ((Intake.standard.read (.ofBytes (Utf8.bytes "12.5"))).outcome
          = .error (.fraction 2)
        ∧ (LexicalError.fraction 2).Describes (Utf8.bytes "12.5"))
      ∧ ((Intake.standard.read (.ofBytes (Utf8.bytes "a, 0xg"))).outcome
          = .error (.badDigit 0x67 .hexadecimal 5)
        ∧ (LexicalError.badDigit 0x67 .hexadecimal 5).Describes (Utf8.bytes "a, 0xg"))
      ∧ ((Intake.standard.read (.ofBytes (Utf8.bytes "[0o]"))).outcome
          = .error (.noDigits "0o" 1)
        ∧ (LexicalError.noDigits "0o" 1).Describes (Utf8.bytes "[0o]"))
      ∧ ((Intake.standard.read (.ofBytes (Utf8.bytes "7 \x22a\x5c\x22"))).outcome
          = .error (.unfinished .string "\x22a\x5c\x22")
        ∧ (LexicalError.unfinished .string "\x22a\x5c\x22").Describes
          (Utf8.bytes "7 \x22a\x5c\x22")) := by
  have hunknown : (Intake.standard.read (.ofBytes (Utf8.bytes "a:~"))).outcome
      = .error (.unknownByte 0x7E 2) := by decide +kernel
  have hpoint : (Intake.standard.read (.ofBytes (Utf8.bytes "12.5"))).outcome
      = .error (.fraction 2) := by decide +kernel
  have hdigit : (Intake.standard.read (.ofBytes (Utf8.bytes "a, 0xg"))).outcome
      = .error (.badDigit 0x67 .hexadecimal 5) := by decide +kernel
  have hbare : (Intake.standard.read (.ofBytes (Utf8.bytes "[0o]"))).outcome
      = .error (.noDigits "0o" 1) := by decide +kernel
  have hopen : (Intake.standard.read (.ofBytes (Utf8.bytes "7 \x22a\x5c\x22"))).outcome
      = .error (.unfinished .string "\x22a\x5c\x22") := by decide +kernel
  exact ⟨⟨hunknown, faults_located _ _ hunknown⟩, ⟨hpoint, faults_located _ _ hpoint⟩,
    ⟨hdigit, faults_located _ _ hdigit⟩, ⟨hbare, faults_located _ _ hbare⟩,
    hopen, faults_located _ _ hopen⟩

end ByteLayout
