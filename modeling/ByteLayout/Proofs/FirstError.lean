/-
  ByteLayout.Proofs.FirstError
  ────────────────────────────
  **WHERE A READING FAILS.**

  Bytes and tokens are taken in one at a time, and a reading that has failed
  takes in nothing more.  So a reading that fails before the end of its input
  fails on one item of it: it has come without an error to the items before,
  and none of those after matters (`exists_first_error`).
-/
import ByteLayout.Layout.Builder
import ByteLayout.Token.Lexer

namespace ByteLayout

/-- If errors stay, a run that ends in an error has met it at one item. -/
theorem exists_first_error {σ α β ε : Type} {push : σ → α → σ}
    {state : σ → Except ε β}
    (hstays : ∀ {x e}, state x = .error e → ∀ as : List α, as.foldl push x = x)
    {x : σ} {b : β} {e : ε} {as : List α} (hx : state x = .ok b)
    (h : state (as.foldl push x) = .error e) :
    ∃ before a after, as = before ++ a :: after
      ∧ (∃ c, state (before.foldl push x) = .ok c)
      ∧ state (push (before.foldl push x) a) = .error e := by
  induction as generalizing x b with
  | nil => cases hx.symm.trans h
  | cons a as ih =>
    rw [List.foldl_cons] at h
    cases ha : state (push x a) with
    | error e' =>
      -- The run fails here, and what comes after leaves it as it is.
      rw [hstays ha as] at h
      exact ⟨[], a, as, rfl, ⟨b, hx⟩, h⟩
    | ok c =>
      obtain ⟨before, a', after, rfl, hbefore, hfails⟩ := ih ha h
      exact ⟨a :: before, a', after, rfl, hbefore, hfails⟩

/-- A lexer that fails on some bytes fails on one of them. -/
theorem Lexer.exists_push_eq_error {x : Lexer} {inHand : Option Lexeme}
    {e : LexicalError} {bs : List UInt8} (hx : x.state = .ok inHand)
    (h : (x.pushAll bs).state = .error e) :
    ∃ before b after, bs = before ++ b :: after
      ∧ (∃ inHand', (x.pushAll before).state = .ok inHand')
      ∧ ((x.pushAll before).push b).state = .error e :=
  exists_first_error pushAll_of_error hx h

/-- A source that is not read as tokens has a byte that fails, or else its end
does. -/
theorem Lexer.fault_cases {source : List UInt8} {e : LexicalError}
    (h : tokensOf source = .error e) :
    (∃ before b after inHand, source = before ++ b :: after
        ∧ (empty.pushAll before).state = .ok inHand
        ∧ ((empty.pushAll before).push b).state = .error e)
      ∨ ∃ inHand, (empty.pushAll source).state = .ok inHand
        ∧ (empty.pushAll source).close.state = .error e := by
  have hclose : (empty.pushAll source).close.state = .error e := by
    rw [tokensOf, outcome] at h
    split at h <;> cases h
    assumption
  cases hx : (empty.pushAll source).state with
  | ok inHand => exact .inr ⟨inHand, rfl, hclose⟩
  | error e' =>
    rw [close_of_error hx] at hclose
    obtain ⟨before, b, after, rfl, ⟨inHand, hbefore⟩, hpush⟩ :=
      exists_push_eq_error (x := .empty) rfl hclose
    exact .inl ⟨before, b, after, inHand, rfl, hbefore, hpush⟩

/-- A builder that fails on some tokens fails on one of them. -/
theorem Builder.exists_push_eq_error {x : Builder} {place : Place}
    {e : GrammarError} {ts : List Token} (hx : x.state = .ok place)
    (h : (x.pushAll ts).state = .error e) :
    ∃ before t after, ts = before ++ t :: after
      ∧ (∃ place', (x.pushAll before).state = .ok place')
      ∧ ((x.pushAll before).push t).state = .error e :=
  exists_first_error pushAll_of_error hx h

end ByteLayout
