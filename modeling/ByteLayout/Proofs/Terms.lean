/-
  ByteLayout.Proofs.Terms
  ───────────────────────
  **WHICH TERMS ARE COMPLETE.**

  A term is complete when the token after it has come, and that token is not
  one that goes on with the term (`Term.GoesOnWith`).  So after some tokens the
  complete terms are the longest sequence that tokens at the front write, up to
  one that does not go on with the last of them (`Builder.isLongest_pushAll`);
  an error adds none to them, and takes none away.

  One lemma says what a token adds to the complete terms
  (`Builder.terms_push_written`), and one that none of them is missed
  (`Builder.prefix_push_of_writtenBy`).
-/
import ByteLayout.Proofs.Builder
import ByteLayout.Proofs.Complete

namespace ByteLayout

/-! ## §1. What ends a term. -/

/-- A token of this kind goes on with the term: with a name a list, a length or
a type, with a length of a field its type, and with a list its length. -/
def Term.GoesOnWith : Term → Kind → Prop
  | .field _ none none, k =>
    k = .mark .openBracket ∨ k = .mark .colon ∨ k = .mark .slash
  | .field _ (some _) none, k => k = .mark .slash
  | .list _ _ none, k => k = .mark .colon
  | _, _ => False

/-- Some tokens at the front write the terms, and right after them comes one
that does not go on with the last of the terms. -/
def TermsCompleteIn : List Token → List Term → Prop :=
  CompleteIn (fun ts terms => Layout.WrittenBy ⟨terms⟩ ts)
    (fun term t => ¬ term.GoesOnWith t.kind)

/-- At the end of a term that nothing but a comma can follow, nothing goes on
with the term. -/
def Place.Ends (place : Place) : Prop :=
  ∀ term, place = .done term → ∀ k, ¬ term.GoesOnWith k

namespace Place

variable {place mid : Place} {t : Token} {term : Term}

/-- Every token that belongs to a term leads to such a place. -/
theorem ends_of_go (h : place.move t = .go mid) : mid.Ends := by
  -- Only a place after a complete term ends, and its term is of a form that no
  -- other token goes on with.
  rintro term rfl k
  have hat {subject : Subject} {length : Length}
      (hgo : subject.at length = .done term) : ¬ term.GoesOnWith k := by
    cases subject with
    | field name => cases hgo
    | list name =>
      cases hgo
      exact id
  cases place with
  | opening | next =>
    simp only [move, Move.start] at h
    split at h <;> cases h <;> exact id
  | named name | listed name | measured name length =>
    simp only [move] at h
    split at h <;> cases h
  | within name depth =>
    rcases move_within_eq_go h with ⟨-, -, hmid⟩ | ⟨n, -, hmid⟩ <;> cases hmid
  | colon subject | dot subject | dots subject =>
    simp only [move] at h
    split at h
    all_goals first | exact hat (Move.go.inj h) | cases h
  | slash name length =>
    obtain ⟨type, -, -, hdone⟩ := move_slash_eq_go h
    cases hdone
    cases length <;> exact id
  | done term' => cases h

/-- Where a term may end, the tokens that end it are those that do not go on
with it. -/
theorem move_eq_ended_iff (h : place.close = .ok (some term)) (hends : place.Ends) :
    place.move t = .ended term ↔ ¬ term.GoesOnWith t.kind := by
  cases place with
  | done term' =>
    cases h
    exact iff_of_true rfl (hends term rfl t.kind)
  | named name | listed name | measured name length =>
    cases h
    simp only [move, Term.GoesOnWith]
    split <;> simp_all
  | _ => cases h

end Place

/-! ## §2. What a builder has complete. -/

namespace Builder

variable {x : Builder} {t : Token} {ts : List Token} {terms : List Term} {term : Term}

/-- A token that ends a term adds that term. -/
theorem terms_push_of_ended {place : Place} (hx : x.state = .ok place)
    (hmove : place.move t = .ended term) : (x.push t).terms = x.terms ++ [term] := by
  rw [push_of_ended hx hmove]
  exact List.reverse_cons

/-- A token adds at most one term, which it ends. -/
theorem terms_push_cases (x : Builder) (t : Token) :
    (x.push t).terms = x.terms
      ∨ ∃ place term, x.state = .ok place ∧ place.move t = .ended term
        ∧ (x.push t).terms = x.terms ++ [term] := by
  cases hx : x.state with
  | error e => exact .inl (by rw [push_of_error hx])
  | ok place =>
    cases hmove : place.move t with
    | ended term => exact .inr ⟨place, term, rfl, hmove, terms_push_of_ended hx hmove⟩
    | _ =>
      left
      simp only [push, hx, hmove]
      rfl

/-- No token takes a term back. -/
theorem terms_prefix_push (x : Builder) (t : Token) : x.terms <+: (x.push t).terms := by
  rcases terms_push_cases x t with hsame | ⟨_, term, -, -, hmore⟩
  · exact hsame ▸ List.prefix_rfl
  · exact hmore ▸ List.prefix_append _ [term]

/-- A builder is never at the end of a term that something goes on with. -/
theorem ends_pushAll {place : Place} (h : (empty.pushAll ts).state = .ok place) :
    place.Ends := by
  -- Only the last token counts, since it leads to the place.
  cases ts using List.reverseRecOn with
  | nil =>
    cases h
    nofun
  | append_singleton ts t =>
    rw [pushAll_append, pushAll_cons, pushAll_nil] at h
    cases hx : (empty.pushAll ts).state with
    | error e => cases hx.symm.trans ((congrArg state (push_of_error hx t)).symm.trans h)
    | ok before =>
      unfold push at h
      simp only [hx] at h
      split at h
      · next mid hmove =>
        cases h
        exact Place.ends_of_go hmove
      · cases h
      · dsimp only at h
        split at h <;> cases h
        nofun

/-- At the end of the tokens the term in the making is the last one. -/
theorem outcome_close_of_ok {place : Place} {found : Option Term}
    (hx : x.state = .ok place) (hclose : place.close = .ok found) :
    x.close.outcome = .ok ⟨x.terms ++ found.toList⟩ := by
  rw [close_of_ok hx hclose]
  cases found <;> simp [outcome, Builder.terms]

/-- A builder that comes to its end at a place had a term that may end there,
or nothing at all. -/
theorem exists_close_of_outcome {place : Place} (hx : x.state = .ok place)
    (h : x.close.outcome = .ok ⟨terms⟩) :
    ∃ found, place.close = .ok found ∧ terms = x.terms ++ found.toList := by
  cases hclose : place.close with
  | error e =>
    simp only [close, outcome, hx, hclose] at h
    cases h
  | ok found =>
    cases (outcome_close_of_ok hx hclose).symm.trans h
    exact ⟨found, rfl, rfl⟩

/-- A term that is added is complete before the token. -/
theorem terms_push_written (ts : List Token) (t : Token) :
    ((empty.pushAll ts).push t).terms = (empty.pushAll ts).terms
      ∨ ∃ term, ((empty.pushAll ts).push t).terms = (empty.pushAll ts).terms ++ [term]
        ∧ Layout.WrittenBy ⟨(empty.pushAll ts).terms ++ [term]⟩ ts
        ∧ ¬ term.GoesOnWith t.kind := by
  rcases terms_push_cases (empty.pushAll ts) t with hsame | ⟨place, term, hx, hmove, hmore⟩
  · exact .inl hsame
  · have hclose := Place.close_of_ended hmove
    have hwritten := Layout.ofTokens_eq_ok_iff.1 (outcome_close_of_ok hx hclose)
    exact .inr ⟨term, hmore, hwritten,
      (Place.move_eq_ended_iff hclose (ends_pushAll hx)).1 hmove⟩

/-- Terms that are written are complete as soon as a token comes that does not
go on with the last of them. -/
theorem prefix_push_of_writtenBy (h : Layout.WrittenBy ⟨terms ++ [term]⟩ ts)
    (ht : ¬ term.GoesOnWith t.kind) :
    terms ++ [term] <+: ((empty.pushAll ts).push t).terms := by
  have hclosed : (empty.pushAll ts).close.outcome = .ok ⟨terms ++ [term]⟩ :=
    Layout.ofTokens_eq_ok_iff.2 h
  cases hx : (empty.pushAll ts).state with
  | error e => cases hclosed.symm.trans (outcome_of_error hx [])
  | ok place =>
    obtain ⟨found, hclose, hterms⟩ := exists_close_of_outcome hx hclosed
    cases found with
    | none =>
      rw [Option.toList_none, List.append_nil] at hterms
      exact hterms ▸ terms_prefix_push _ t
    | some last =>
      -- The last term is the one that may end here, and the token ends it.
      obtain ⟨hbefore, hlast⟩ := List.append_inj' hterms rfl
      cases hlast
      have hmove := (Place.move_eq_ended_iff hclose (ends_pushAll hx)).2 ht
      exact hbefore ▸ terms_push_of_ended hx hmove ▸ List.prefix_rfl

/-- **The terms complete after some tokens are the longest sequence that is
complete in them.** -/
theorem isLongest_pushAll (ts : List Token) :
    IsLongest (TermsCompleteIn ts) (empty.pushAll ts).terms := by
  refine isLongest_of_push (f := fun ts => (empty.pushAll ts).terms) rfl .empty
    (fun front t => ?_) (fun {front terms term t} hwritten hends => ?_) ts
  · rw [pushAll_append, pushAll_cons, pushAll_nil]
    exact terms_push_written front t
  · rw [pushAll_append, pushAll_cons, pushAll_nil]
    exact prefix_push_of_writtenBy hwritten hends

/-- At an end of the tokens that is an error no term is complete. -/
theorem terms_close_of_error {e : GrammarError} (h : x.close.state = .error e) :
    x.close.terms = x.terms := by
  cases hx : x.state with
  | error e' => rw [close_of_error hx]
  | ok place =>
    cases hclose : place.close with
    | error e' =>
      rw [close_of_refuse hx hclose]
      rfl
    | ok found =>
      rw [close_of_ok hx hclose] at h
      cases h

end Builder

end ByteLayout
