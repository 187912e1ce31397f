/-
  ByteLayout.Proofs.ViablePrefix
  ──────────────────────────────
  **THE FIRST TOKEN THAT CANNOT STAND.**

  From every place in the grammar some tokens lead to the end of a layout
  (`Place.completion`).  So whatever tokens a builder has come through are
  the beginning of a layout, and what stops it is one of two things:

      the end     no token is at fault, and further tokens mend it
      a token     the error is about this token, those before it begin a
                  layout, and with it no tokens after it make one

  The error tells which (`GrammarError.AtEnd`, `GrammarError.Blames`), and
  the main result is that it tells the truth (`first_bad_token`).
-/
import ByteLayout.Proofs.Canonical
import ByteLayout.Proofs.FirstError

namespace ByteLayout

/-! ## §1. What errors are about. -/

/-- The error is that the tokens end too early. -/
def GrammarError.AtEnd : GrammarError → Prop
  | .commaAtEnd | .openList _ => True
  | .noTerm found | .noComma found | .noLength found | .shortEllipsis found
  | .noType found => found = none
  | .unknownType _ => False

/-- The error is about the token: it is what was found, or its text names no
type. -/
def GrammarError.Blames (t : Token) : GrammarError → Prop
  | .commaAtEnd | .openList _ => False
  | .noTerm found | .noComma found | .noLength found | .shortEllipsis found
  | .noType found => found = some t
  | .unknownType text => text = t.text

instance : DecidablePred GrammarError.AtEnd
  | .commaAtEnd | .openList _ => isTrue trivial
  | .noTerm found | .noComma found | .noLength found | .shortEllipsis found
  | .noType found => inferInstanceAs (Decidable (found = none))
  | .unknownType _ => isFalse id

/-- No error is about a token and about the end. -/
theorem GrammarError.Blames.not_atEnd {e : GrammarError} {t : Token}
    (h : e.Blames t) : ¬ e.AtEnd := by
  intro hend
  cases e <;> simp_all [Blames, AtEnd]

namespace Place

/-- A token that is refused is the one the error is about. -/
theorem blames_of_refuse {place : Place} {t : Token} {e : GrammarError}
    (h : place.move t = .refuse e) : e.Blames t := by
  cases place with
  | opening | next | colon | dot | dots =>
    simp only [move, Move.start] at h
    split at h <;> cases h
    rfl
  | slash name length =>
    simp only [move] at h
    split at h
    · split at h <;> cases h
      rfl
    · cases h
      rfl
  | named | within | listed | measured =>
    -- Here a token goes on with the term or comes after it.
    simp only [move] at h
    split at h <;> cases h
  | done => cases h

/-- An end that cannot be is what the error is about. -/
theorem atEnd_of_close {place : Place} {e : GrammarError}
    (h : place.close = .error e) : e.AtEnd := by
  cases place <;> cases h <;> trivial

/-! ## §2. Every place leads to the end of a layout. -/

/-- Tokens that lead from a place to the end of a layout. -/
def completion : Place → List Token
  | .opening | .named _ | .listed _ | .measured _ _ | .done _ => []
  | .next | .colon _ => [⟨.integer, "0"⟩]
  | .within _ depth => List.replicate (depth + 1) Mark.closeBracket.token
  | .dot _ => [Mark.dot.token, Mark.dot.token]
  | .dots _ => [Mark.dot.token]
  | .slash _ _ => [⟨.identifier, FieldType.bytes.keyword⟩]

/-- All brackets that are open can be closed. -/
theorem exists_read_completion_within (name : String) (depth : Nat) :
    ∃ terms, (within name depth).read (within name depth).completion = .ok terms := by
  -- One more bracket is closed first.
  induction depth with
  | zero => exact ⟨[.list name [] none], rfl⟩
  | succ depth ih =>
    have hmove : (within name (depth + 1)).move Mark.closeBracket.token
        = .go (.within name depth) := rfl
    rw [completion, List.replicate_succ, read_of_go hmove]
    exact ih

/-- Every place can be completed, at whatever depth. -/
theorem exists_read_completion (place : Place) :
    ∃ terms, place.read place.completion = .ok terms := by
  cases place with
  | within name depth => exact exists_read_completion_within name depth
  | colon subject | dot subject | dots subject =>
    cases subject <;> exact ⟨_, rfl⟩
  | _ => exact ⟨_, rfl⟩

end Place

/-! ## §3. What stops a builder. -/

namespace Builder

/-- What a builder has come through begins a layout. -/
theorem exists_completion {x : Builder} {place : Place} (h : x.state = .ok place) :
    ∃ rest layout, (x.pushAll rest).close.outcome = .ok layout := by
  obtain ⟨terms, hterms⟩ := place.exists_read_completion
  refine ⟨place.completion, ⟨x.terms ++ terms⟩, ?_⟩
  rw [outcome_of_place h, hterms]
  rfl

/-- The token that a builder fails on is the one the error is about. -/
theorem blames_of_push {x : Builder} {place : Place} {t : Token}
    {e : GrammarError} (hx : x.state = .ok place) (h : (x.push t).state = .error e) :
    e.Blames t := by
  cases hmove : place.move t with
  | go mid =>
    rw [push_of_go hx hmove] at h
    cases h
  | refuse e' =>
    rw [push_of_refuse hx hmove] at h
    cases h
    exact Place.blames_of_refuse hmove
  | ended term =>
    -- The term was complete, and the token is not the comma after it.
    rw [push_of_ended hx hmove] at h
    by_cases hcomma : t.kind = .mark .comma
    · simp [hcomma] at h
    · simp only [if_neg hcomma] at h
      cases h
      rfl

theorem atEnd_of_close {x : Builder} {place : Place} {e : GrammarError}
    (hx : x.state = .ok place) (h : x.close.outcome = .error e) : e.AtEnd := by
  cases hclose : place.close with
  | ok term =>
    rw [close_of_ok hx hclose] at h
    cases h
  | error e' =>
    rw [close_of_refuse hx hclose] at h
    cases h
    exact Place.atEnd_of_close hclose

end Builder

/-- Tokens that make no layout end too early, or have a first token that
cannot stand where it does. -/
theorem Layout.ofTokens_error_cases {ts : List Token} {e : GrammarError}
    (h : Layout.ofTokens ts = .error e) :
    (e.AtEnd ∧ ∃ rest layout, Layout.ofTokens (ts ++ rest) = .ok layout)
      ∨ ∃ before t after, ts = before ++ t :: after ∧ e.Blames t
        ∧ (∃ rest layout, Layout.ofTokens (before ++ rest) = .ok layout)
        ∧ ∀ rest, Layout.ofTokens (before ++ t :: rest) = .error e := by
  simp only [ofTokens, Builder.ofTokens, Builder.pushAll_append] at h ⊢
  cases hx : (Builder.empty.pushAll ts).state with
  | ok place =>
    exact .inl ⟨Builder.atEnd_of_close hx h, Builder.exists_completion hx⟩
  | error e' =>
    have he : e' = e := by
      have := Builder.outcome_of_error hx []
      exact Except.error.inj (this.symm.trans h)
    subst he
    -- Some token is the first that a builder refuses.
    obtain ⟨before, t, after, rfl, ⟨place, hbefore⟩, hfails⟩ :=
      Builder.exists_push_eq_error (x := .empty) rfl hx
    refine .inr ⟨before, t, after, rfl, Builder.blames_of_push hbefore hfails,
      Builder.exists_completion hbefore, fun rest => ?_⟩
    exact Builder.outcome_of_error hfails rest

/-- **An error is about the first token that cannot stand.**  If tokens make no
layout because they end too early, further tokens make them one.  Else the
error is about one of them; those before it begin a layout, and with it the
error is the same whatever comes after. -/
theorem first_bad_token (ts : List Token) (e : GrammarError)
    (h : Layout.ofTokens ts = .error e) :
    (e.AtEnd → ∃ rest layout, Layout.ofTokens (ts ++ rest) = .ok layout)
      ∧ (¬ e.AtEnd → ∃ p t, ts[p]? = some t ∧ e.Blames t
        ∧ (∃ rest layout, Layout.ofTokens (ts.take p ++ rest) = .ok layout)
        ∧ ∀ rest, Layout.ofTokens (ts.take (p + 1) ++ rest) = .error e) := by
  rcases Layout.ofTokens_error_cases h with
    ⟨hend, hmended⟩ | ⟨before, t, after, rfl, hblames, hbegins, hstays⟩
  · exact ⟨fun _ => hmended, fun hnot => absurd hend hnot⟩
  · refine ⟨fun hend => absurd hend hblames.not_atEnd, fun _ => ?_⟩
    refine ⟨before.length, t, by simp, hblames, ?_, fun rest => ?_⟩
    · rw [List.take_left]
      exact hbegins
    · rw [List.take_append, List.take_of_length_le (Nat.le_succ _)]
      simpa using hstays rest

/-- A length that is missing at the end, and a slash that cannot come after a
list, though it could come after a field. -/
theorem first_bad_token_at_end_and_within :
    (Layout.ofTokens [⟨.identifier, "a"⟩, Mark.colon.token] = .error (.noLength none)
        ∧ ∃ rest layout, Layout.ofTokens
          ([⟨.identifier, "a"⟩, Mark.colon.token] ++ rest) = .ok layout)
      ∧ Layout.ofTokens [⟨.identifier, "a"⟩, Mark.openBracket.token, Mark.dot.token,
          Mark.closeBracket.token, Mark.slash.token, Mark.comma.token]
        = .error (.noComma (some Mark.slash.token))
      ∧ ∃ (p : Nat) (t : Token), (GrammarError.noComma (some Mark.slash.token)).Blames t
        ∧ ∀ rest, Layout.ofTokens ([⟨.identifier, "a"⟩, Mark.openBracket.token,
            Mark.dot.token, Mark.closeBracket.token, Mark.slash.token,
            Mark.comma.token].take (p + 1) ++ rest)
          = .error (.noComma (some Mark.slash.token)) := by
  have hend : Layout.ofTokens [⟨.identifier, "a"⟩, Mark.colon.token]
      = .error (.noLength none) := rfl
  have hwithin : Layout.ofTokens [⟨.identifier, "a"⟩, Mark.openBracket.token,
      Mark.dot.token, Mark.closeBracket.token, Mark.slash.token, Mark.comma.token]
      = .error (.noComma (some Mark.slash.token)) := rfl
  obtain ⟨p, t, -, hblames, -, hstays⟩ := (first_bad_token _ _ hwithin).2 (by decide)
  exact ⟨⟨hend, (first_bad_token _ _ hend).1 rfl⟩, hwithin, p, t, hblames, hstays⟩

end ByteLayout
