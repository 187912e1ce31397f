/-
  ByteLayout.Proofs.EarlyEnd
  ──────────────────────────
  **WHAT MORE INPUT CAN MEND.**

  A source that cannot be read as tokens either ends too early, within a
  string or right after the announcement of a base, or it has a fault that no
  input after it removes.  The error tells which (`LexicalError.AtEnd`).

  A byte at fault is one of the second sort: a lexer that fails on a byte has
  something other to say than that the source ends
  (`Lexer.not_atEnd_of_push`).  At the end of the source, a string that is
  open can be closed and a base be given a digit (`Lexeme.exists_scan_open`,
  `Lexeme.exists_scan_bare`); a closed string that is no text stays one.

  The main result puts these together (`early_end_or_final`).
-/
import ByteLayout.Proofs.FirstError
import ByteLayout.Proofs.InHand

namespace ByteLayout

/-! ## §1. Errors about the end of a source. -/

/-- The error is that the source ends too early: within a token, or right
after the announcement of a base, which is then the last of the source. -/
def LexicalError.AtEnd (source : List UInt8) : LexicalError → Prop
  | .unfinished _ _ => True
  | .noDigits text offset => source.drop offset = Utf8.bytes text
  | _ => False

instance (source : List UInt8) : DecidablePred (LexicalError.AtEnd source)
  | .unfinished _ _ => isTrue trivial
  | .noDigits text offset =>
    inferInstanceAs (Decidable (source.drop offset = Utf8.bytes text))
  | .unreadable _ | .unknownByte _ _ | .fraction _ | .badFollower _ _
  | .badDigit _ _ _ | .notUtf8 _ | .tooLong _ => isFalse id

/-- An error that a byte raises is not about the end of the source. -/
theorem Lexer.not_atEnd_of_push {x : Lexer} {source : List UInt8}
    {inHand : Option Lexeme} {b : UInt8} {e : LexicalError}
    (hx : x.state = .ok inHand) (hsource : InHand source inHand)
    (h : (x.push b).state = .error e) (after : List UInt8) :
    ¬ e.AtEnd (source ++ b :: after) := by
  rcases push_error_cases hx hsource h with
    ⟨l, rfl, hn⟩ | ⟨l, rfl, -, ht⟩ | ⟨rfl, -⟩
  · have hl : l.EndOf source := hsource
    cases Lexeme.refused_of_next hl.fits hn with
    | @noDigits base hbare =>
      -- The byte comes after the announcement, which is not the last then.
      have hf := hl.fits
      rw [hbare] at hf
      intro hend
      have hend' : l.bytes ++ b :: after = Utf8.bytes base.sign := by
        rw [← hl.drop_start, ← List.drop_append_of_le_length hl.start_le]
        exact hend
      rw [hf.2] at hend'
      simpa using congrArg List.length hend'
    | fraction | badDigit | badFollower => exact id
  · cases Lexeme.eq_notUtf8_of_token_eq_error ht
    exact id
  · exact id

/-! ## §2. What mends an early end. -/

namespace Lexeme

variable {l l' : Lexeme} {e : LexicalError}

/-- A string that is no text is an error however the source goes on. -/
theorem scan_of_token_eq_error (rest : List UInt8)
    (hn : l.next rest.head? = .complete) (ht : l.token = .error e) :
    l.scan rest = .error e := by
  rw [scan_of_complete rest hn, ht]
  rfl

/-- What the end of the input can have against a lexeme. -/
theorem scan_nil_eq_error (h : l.scan [] = .error e) :
    l.next none = .refuse e ∨ l.next none = .complete ∧ l.token = .error e := by
  cases hn : l.next none with
  | more s => exact absurd hn (l.next_none_ne_more s)
  | refuse e' =>
    rw [scan_of_refuse [] hn] at h
    cases h
    exact .inl rfl
  | complete =>
    cases ht : l.token with
    | ok found =>
      rw [scan_of_complete [] hn, ht] at h
      cases h
    | error e' =>
      rw [scan_of_token_eq_error [] hn ht] at h
      cases h
      exact .inr ⟨rfl, rfl⟩

/-- Bytes that a lexeme takes mend it if it is complete and text then. -/
theorem exists_scan_of_take? {bs : List UInt8} {k : Kind} (text : String)
    (htake : l.take? bs = some l') (hn : l'.next none = .complete)
    (hk : l'.shape.kind? = some k) (htext : Utf8.bytes text = l'.bytes) :
    ∃ found, l.scan bs = .ok found := by
  have hscan := scan_append_of_take? htake []
  rw [List.append_nil, scan_of_complete [] hn,
    (token_eq_ok_iff hk).2 ⟨text, htext, rfl⟩] at hscan
  exact ⟨_, hscan⟩

/-- A space and a quotation mark close an open string: after the space no
backslash escapes the mark. -/
theorem exists_scan_open {q : Quoting} {text : String} (hs : l.shape = .quoted q)
    (hq : q ≠ .closed) (htext : Utf8.bytes text = l.bytes) :
    ∃ found, l.scan (Utf8.bytes " \x22") = .ok found := by
  have hmore : Utf8.bytes " \x22" = [' '.toUInt8, quotationMark] := rfl
  have hpush : q.push ' '.toUInt8 = .plain := by
    cases q with
    | closed => exact absurd rfl hq
    | _ => decide
  have hspace := next_of_quoted hs hq ' '.toUInt8
  have hquote := next_of_quoted (l := l.push (.quoted (q.push ' '.toUInt8)) ' '.toUInt8)
    rfl (by rw [hpush]; decide) quotationMark
  have htake := take?_of_more hspace [quotationMark]
  rw [take?_of_more hquote, hpush] at htake
  refine exists_scan_of_take? (text ++ " \x22") (hmore ▸ htake)
    (next_of_closed rfl none) rfl ?_
  rw [Utf8.bytes_append, htext, bytes_push, bytes_push, hmore, List.append_assoc]
  rfl

/-- A zero is a digit of whatever base. -/
theorem exists_scan_bare {base : Base} (hs : l.shape = .bare base)
    (hf : l.shape.Fits l.bytes) : ∃ found, l.scan (Utf8.bytes "0") = .ok found := by
  rw [hs] at hf
  have hmore : Utf8.bytes "0" = ['0'.toUInt8] := rfl
  have hzero : base.IsDigit '0'.toUInt8 := by cases base <;> decide
  have hnext : l.next (some '0'.toUInt8) = .more (.digits base) := by
    rw [next_of_bare hs]
    exact nextInteger_of_isDigit hzero l true
  refine exists_scan_of_take? (base.sign ++ "0")
    (hmore ▸ take?_of_more hnext []) (next_of_digits_of_endsBefore rfl trivial) rfl ?_
  rw [Utf8.bytes_append, bytes_push, hf.2]
  rfl

end Lexeme

/-! ## §3. An early end, or a final fault. -/

/-- An error of the lexeme in hand is the error of the source. -/
theorem Lexer.outcome_eq_error_iff_scan {x : Lexer} {l : Lexeme}
    {e : LexicalError} (hx : x.state = .ok (some l)) (bs : List UInt8) :
    (x.pushAll bs).close.outcome = .error e ↔ l.scan bs = .error e := by
  rw [outcome_of_lexeme hx]
  cases l.scan bs <;> simp [Except.map]

/-- And where the lexeme in hand can go on to an end, so can the source. -/
theorem Lexer.exists_outcome_of_scan {x : Lexer} {l : Lexeme} {bs : List UInt8}
    (hx : x.state = .ok (some l)) (h : ∃ found, l.scan bs = .ok found) :
    ∃ ts, (x.pushAll bs).close.outcome = .ok ts := by
  obtain ⟨found, hfound⟩ := h
  exact ⟨_, by rw [outcome_of_lexeme hx, hfound]; rfl⟩

/-- The text of a source can be cut in front of a string that is open at its
end. -/
theorem Lexeme.EndOf.exists_bytes_of_quoted {l : Lexeme} {source : String}
    {q : Quoting} (h : l.EndOf (Utf8.bytes source)) (hs : l.shape = .quoted q)
    (hq : q ≠ .closed) : ∃ text, Utf8.bytes text = l.bytes := by
  have hf := h.fits
  rw [hs] at hf
  have hopen : IsOpenString l.bytes := Quoting.Fits.isOpenString hf hq
  cases hbytes : l.bytes with
  | nil => exact absurd hbytes hopen.ne_nil
  | cons b bs =>
    obtain rfl : b = quotationMark := by simpa [hbytes] using hopen.1
    exact (Utf8.exists_bytes_of_append (hbytes ▸ h.take_append.symm) (by decide)).2

/-- A source that cannot be read ends too early, and is then mended by more
text if it is text itself; or it stays as it is whatever comes after. -/
theorem tokensOf_error_cases {source : List UInt8} {e : LexicalError}
    (h : tokensOf source = .error e) :
    (e.AtEnd source ∧ ∀ text, Utf8.bytes text = source →
        ∃ more ts, tokensOf (source ++ Utf8.bytes more) = .ok ts)
      ∨ (¬ e.AtEnd source ∧ ∀ more, tokensOf (source ++ more) = .error e) := by
  simp only [tokensOf, Lexer.pushAll_append] at h ⊢
  cases hx : (Lexer.empty.pushAll source).state with
  | error e' =>
    -- A byte is at fault, and the lexer takes in nothing after it.
    have hstays := Lexer.outcome_of_error hx
    cases (hstays []).symm.trans h
    obtain ⟨before, b, after, rfl, ⟨inHand, hbefore⟩, hpush⟩ :=
      Lexer.exists_push_eq_error (x := .empty) rfl hx
    exact .inr ⟨Lexer.not_atEnd_of_push hbefore (Lexer.inHand_pushAll hbefore) hpush
      after, hstays⟩
  | ok inHand =>
    have hsource := Lexer.inHand_pushAll hx
    cases inHand with
    | none =>
      cases (show source = [] from hsource)
      cases h
    | some l =>
      have hl : l.EndOf source := hsource
      have hscan := (Lexer.outcome_eq_error_iff_scan hx []).1 h
      rcases Lexeme.scan_nil_eq_error hscan with hn | ⟨hn, ht⟩
      · rcases Lexeme.next_none_eq_refuse hn with ⟨q, hq, hs, rfl⟩ | ⟨base, hs, rfl⟩
        · refine .inl ⟨trivial, ?_⟩
          -- The string can be closed, for what is in hand of a text is text.
          rintro text rfl
          obtain ⟨held, hheld⟩ := hl.exists_bytes_of_quoted hs hq
          exact ⟨_, Lexer.exists_outcome_of_scan hx (Lexeme.exists_scan_open hs hq hheld)⟩
        · -- And the base can be given a digit, whatever is before it.
          have hf := hl.fits
          refine .inl ⟨hl.drop_start.trans (hs ▸ hf).2, fun _ _ => ?_⟩
          exact ⟨_, Lexer.exists_outcome_of_scan hx (Lexeme.exists_scan_bare hs hf)⟩
      · -- A closed string takes no byte that could make it text.
        have hs := Lexeme.closed_of_token_eq_error hl.fits hn ht
        refine .inr ⟨?_, fun more => ?_⟩
        · cases Lexeme.eq_notUtf8_of_token_eq_error ht
          exact id
        · refine (Lexer.outcome_eq_error_iff_scan hx more).2 ?_
          exact Lexeme.scan_of_token_eq_error more (Lexeme.next_of_closed hs _) ht

/-- **An early end, or a final fault.**  If a text cannot be read as tokens
because it ends too early, some text after it mends it; and if bytes cannot be
read as tokens for any other reason, the error is the same whatever bytes come
after them. -/
theorem early_end_or_final (source : List UInt8) (e : LexicalError)
    (h : (Intake.standard.read (.ofBytes source)).outcome = .error e) :
    (e.AtEnd source → (∃ text, Utf8.bytes text = source) →
        ∃ (more : String) (ts : List Token), (Intake.standard.read
          (.ofBytes (source ++ Utf8.bytes more))).outcome = .ok ts)
      ∧ (¬ e.AtEnd source → ∀ more : List UInt8,
        (Intake.standard.read (.ofBytes (source ++ more))).outcome = .error e) := by
  simp only [Intake.outcome_read_standard] at h ⊢
  rcases tokensOf_error_cases h with ⟨hend, hmended⟩ | ⟨hnot, hfinal⟩
  · refine ⟨fun _ htext => ?_, fun hnot => absurd hend hnot⟩
    obtain ⟨text, htext⟩ := htext
    exact hmended text htext
  · exact ⟨fun hend => absurd hend hnot, fun _ => hfinal⟩

/-- A string that is open after a backslash; a base without digits before a
comma, though the source ends in the announcement of one; and a string that is
closed by the last byte, and no text. -/
theorem early_end_and_final_faults :
    ((Intake.standard.read (.ofBytes (Utf8.bytes "a:\x22\x5c"))).outcome
          = .error (.unfinished .string "\x22\x5c")
        ∧ ∃ (more : String) (ts : List Token), (Intake.standard.read
          (.ofBytes (Utf8.bytes "a:\x22\x5c" ++ Utf8.bytes more))).outcome = .ok ts)
      ∧ ((Intake.standard.read (.ofBytes (Utf8.bytes "0x,0x"))).outcome
          = .error (.noDigits "0x" 0)
        ∧ ∀ more, (Intake.standard.read
          (.ofBytes (Utf8.bytes "0x,0x" ++ more))).outcome = .error (.noDigits "0x" 0))
      ∧ ((Intake.standard.read (.ofBytes [0x22, 0xFF, 0x22])).outcome
          = .error (.notUtf8 1)
        ∧ ∀ more, (Intake.standard.read
          (.ofBytes ([0x22, 0xFF, 0x22] ++ more))).outcome = .error (.notUtf8 1)) := by
  have hopen : (Intake.standard.read (.ofBytes (Utf8.bytes "a:\x22\x5c"))).outcome
      = .error (.unfinished .string "\x22\x5c") := by decide +kernel
  have hbare : (Intake.standard.read (.ofBytes (Utf8.bytes "0x,0x"))).outcome
      = .error (.noDigits "0x" 0) := by decide +kernel
  have hbroken : (Intake.standard.read (.ofBytes [0x22, 0xFF, 0x22])).outcome
      = .error (.notUtf8 1) := by decide +kernel
  refine ⟨⟨hopen, (early_end_or_final _ _ hopen).1 trivial ⟨_, rfl⟩⟩, ⟨hbare, ?_⟩,
    hbroken, ?_⟩
  · exact (early_end_or_final _ _ hbare).2 (by decide +kernel)
  · exact (early_end_or_final _ _ hbroken).2 id

end ByteLayout
