/-
  ByteLayout.Proofs.Builder
  ─────────────────────────
  **TOKENS ARE READ AS THE GRAMMAR SAYS.**

  The main result is that reading tokens decides the grammar
  (`Layout.ofTokens_eq_ok_iff`).

  In one direction every place holds the tokens of the term being read
  (`Place.Held`): one lemma says what a further token makes of that, one what
  the end of the term makes of it, and an induction on the tokens the rest.
  In the other direction the tokens of a term lead from the start of a term
  to a place where it may end (`Term.WrittenBy.exists_run?`), part by part.
-/
import ByteLayout.Proofs.Grammar

namespace ByteLayout

/-! ## §1. A layout, read from a place on. -/

namespace Place

/-- The terms that end in the tokens ahead of a place: the one being read and
those after it. -/
def read (place : Place) : List Token → Except GrammarError (List Term)
  | [] => place.close.map Option.toList
  | t :: ts =>
    match place.move t with
    | .go place => place.read ts
    | .ended term =>
      if t.kind = .mark .comma then (Place.next.read ts).map (term :: ·)
      else .error (.noComma (some t))
    | .refuse e => .error e

/-- The place that tokens lead to, if all of them belong to one term. -/
def run? (place : Place) : List Token → Option Place
  | [] => some place
  | t :: ts =>
    match place.move t with
    | .go place => place.run? ts
    | .ended _ | .refuse _ => none

variable {place mid : Place} {t : Token} {ts us : List Token}

/-- A token that leads on leaves the reading to the place it leads to. -/
theorem read_of_go (h : place.move t = .go mid) (ts : List Token) :
    place.read (t :: ts) = mid.read ts := by
  rw [read, h]

/-- A comma after a complete term starts the next one. -/
theorem read_of_comma {term : Term} (h : place.move t = .ended term)
    (ht : t.kind = .mark .comma) (ts : List Token) :
    place.read (t :: ts) = (Place.next.read ts).map (term :: ·) := by
  rw [read, h]
  exact if_pos ht

theorem run?_of_go (h : place.move t = .go mid) (ts : List Token) :
    place.run? (t :: ts) = mid.run? ts := by
  rw [run?, h]

/-- The way over some tokens leads from place to place. -/
theorem run?_cons_eq_some_iff {last : Place} :
    place.run? (t :: ts) = some last ↔
      ∃ p, place.move t = .go p ∧ p.run? ts = some last := by
  rw [run?]
  cases place.move t <;> simp

/-- One way after another is a way over all of their tokens. -/
theorem run?_append (h : place.run? ts = some mid) (us : List Token) :
    place.run? (ts ++ us) = mid.run? us := by
  induction ts generalizing place with
  | nil =>
    cases h
    rfl
  | cons t ts ih =>
    obtain ⟨p, hmove, hrun⟩ := run?_cons_eq_some_iff.1 h
    rw [List.cons_append, run?_of_go hmove, ih hrun]

/-- Where tokens complete no term, what is read after them is read from the
place they lead to. -/
theorem read_append_of_run? (h : place.run? ts = some mid) (us : List Token) :
    place.read (ts ++ us) = mid.read us := by
  induction ts generalizing place with
  | nil =>
    cases h
    rfl
  | cons t ts ih =>
    obtain ⟨p, hmove, hrun⟩ := run?_cons_eq_some_iff.1 h
    rw [List.cons_append, read_of_go hmove, ih hrun]

end Place

namespace Builder

variable {x : Builder} {place : Place} {t : Token}

/-- A token that goes on with the term leads to another place. -/
theorem push_of_go {mid : Place} (hx : x.state = .ok place)
    (h : place.move t = .go mid) : x.push t = { x with state := .ok mid } := by
  unfold push
  simp only [hx, h]

/-- One that cannot stand at the place ends the reading. -/
theorem push_of_refuse {e : GrammarError} (hx : x.state = .ok place)
    (h : place.move t = .refuse e) : x.push t = { x with state := .error e } := by
  unfold push
  simp only [hx, h]

/-- One before which a term is complete adds the term, and has to be a comma. -/
theorem push_of_ended {term : Term} (hx : x.state = .ok place)
    (h : place.move t = .ended term) :
    x.push t
      = ⟨term :: x.complete,
          if t.kind = .mark .comma then .ok .next
          else .error (.noComma (some t)),
          term.record :: x.log⟩ := by
  unfold push
  simp only [hx, h]

/-- Where a term may end, the end of the tokens adds the term. -/
theorem close_of_ok {term : Option Term} (hx : x.state = .ok place)
    (h : place.close = .ok term) :
    x.close = ⟨term.toList ++ x.complete, .ok .opening,
      term.toList.map Term.record ++ x.log⟩ := by
  unfold close
  simp only [hx, h]

/-- Where none may, it is an error. -/
theorem close_of_refuse {e : GrammarError} (hx : x.state = .ok place)
    (h : place.close = .error e) : x.close = { x with state := .error e } := by
  unfold close
  simp only [hx, h]

/-- An error that ended the reading is its outcome. -/
theorem outcome_of_error {e : GrammarError} (h : x.state = .error e)
    (ts : List Token) : (x.pushAll ts).close.outcome = .error e := by
  rw [pushAll_of_error h, close_of_error h]
  simp only [outcome, h]

/-- A builder at a place comes to the terms that it has and those read from
the place on. -/
theorem outcome_of_place (hx : x.state = .ok place) (ts : List Token) :
    (x.pushAll ts).close.outcome
      = (place.read ts).map (fun terms => ⟨x.terms ++ terms⟩) := by
  induction ts generalizing x place with
  | nil =>
    rw [pushAll_nil, Place.read]
    cases h : place.close with
    | error e =>
      rw [close_of_refuse hx h]
      rfl
    | ok term =>
      rw [close_of_ok hx h]
      cases term <;> simp [outcome, terms, Except.map]
  | cons t ts ih =>
    rw [pushAll_cons, Place.read]
    cases h : place.move t with
    | go mid =>
      rw [push_of_go hx h]
      exact ih rfl
    | refuse e =>
      rw [push_of_refuse hx h]
      exact outcome_of_error rfl ts
    | ended term =>
      -- The term is complete either way, but only a comma goes on.
      rw [push_of_ended hx h]
      by_cases hc : t.kind = .mark .comma
      · simp only [if_pos hc]
        rw [ih rfl]
        cases Place.next.read ts <;> simp [terms, Except.map]
      · simp only [if_neg hc]
        exact outcome_of_error rfl ts

end Builder

/-- A layout is read from the opening on. -/
theorem Layout.ofTokens_eq_read (ts : List Token) :
    Layout.ofTokens ts = (Place.opening.read ts).map Layout.mk :=
  Builder.outcome_of_place (x := .empty) rfl ts

/-! ## §2. What is read is written. -/

/-- The term of a subject, with a length or without. -/
def Subject.term (subject : Subject) (length : Option Length) : Term :=
  match subject with
  | .field name => .field name length none
  | .list name => .list name [] length

/-- The tokens of the term being read at a place: those since the start of
the layout or the last comma. -/
inductive Place.Held : Place → List Token → Prop
  | next : Held .next []
  | named {t : Token} (ht : t.kind = .identifier) : Held (.named t.text) [t]
  | within {t bracket : Token} {depth : Nat} {body : List Token}
    (ht : t.kind = .identifier) (hbracket : bracket.kind = .mark .openBracket)
    (hbody : Nested 0 depth body) :
    Held (.within t.text depth) (t :: bracket :: body)
  | listed {name : String} {ts : List Token}
    (h : (Subject.term (.list name) none).WrittenBy ts) : Held (.listed name) ts
  | colon {subject : Subject} {ts : List Token} {colon : Token}
    (h : (subject.term none).WrittenBy ts) (hcolon : colon.kind = .mark .colon) :
    Held (.colon subject) (ts ++ [colon])
  | dot {subject : Subject} {ts : List Token} {colon a : Token}
    (h : (subject.term none).WrittenBy ts) (hcolon : colon.kind = .mark .colon)
    (ha : a.kind = .mark .dot) : Held (.dot subject) (ts ++ [colon, a])
  | dots {subject : Subject} {ts : List Token} {colon a b : Token}
    (h : (subject.term none).WrittenBy ts) (hcolon : colon.kind = .mark .colon)
    (ha : a.kind = .mark .dot) (hb : b.kind = .mark .dot) :
    Held (.dots subject) (ts ++ [colon, a, b])
  | measured {name : String} {length : Length} {ts : List Token}
    (h : (Term.field name (some length) none).WrittenBy ts) :
    Held (.measured name length) ts
  | slash {name : String} {length : Option Length} {ts : List Token}
    {slash : Token} (h : (Term.field name length none).WrittenBy ts)
    (hslash : slash.kind = .mark .slash) :
    Held (.slash name length) (ts ++ [slash])
  | done {term : Term} {ts : List Token} (h : term.WrittenBy ts) :
    Held (.done term) ts

/-- A field that is only a name. -/
theorem Term.WrittenBy.name {t : Token} (ht : t.kind = .identifier) :
    (Term.field t.text none none).WrittenBy [t] := by
  have h : (Term.field t.text none none).WrittenBy (t :: ([] ++ [])) :=
    .field ht rfl rfl
  exact h

/-- A length after a term that has none. -/
theorem Term.WrittenBy.append_length {subject : Subject} {length : Length}
    {ts ls : List Token} (h : (subject.term none).WrittenBy ts)
    (hlength : length.WrittenBy ls) :
    (subject.term (some length)).WrittenBy (ts ++ ls) := by
  cases subject with
  | field name =>
    cases h with
    | field ht hnone htype =>
      cases hnone
      cases htype
      have h' : (Term.field _ (some length) none).WrittenBy (_ :: (ls ++ [])) :=
        .field ht hlength rfl
      rwa [List.append_nil] at h'
  | list name =>
    cases h with
    | list ht hopen hbody hclose hnone =>
      cases hnone
      rw [List.cons_append, List.cons_append, List.append_assoc]
      exact .list ht hopen hbody hclose hlength

/-- A type after a field that has none. -/
theorem Term.WrittenBy.append_type {name : String} {length : Option Length}
    {type : FieldType} {ts ys : List Token}
    (h : (Term.field name length none).WrittenBy ts)
    (htype : type.WrittenBy ys) :
    (Term.field name length (some type)).WrittenBy (ts ++ ys) := by
  cases h with
  | field ht hlength hnone =>
    cases hnone
    rw [List.append_nil]
    exact .field ht hlength htype

namespace Place

variable {place mid : Place} {t : Token} {ts us : List Token}

/-- A term with a length is held where its subject has that length. -/
theorem Held.at {subject : Subject} {length : Length}
    (h : (subject.term (some length)).WrittenBy ts) :
    (subject.at length).Held ts := by
  cases subject with
  | field name => exact .measured h
  | list name => exact .done h

/-- Within brackets a token goes on at the depth that it leads to. -/
theorem move_within {name : String} {n n' : Nat}
    (h : opened [t] + n = closed [t] + n') :
    (within name n).move t = .go (.within name n') := by
  by_cases ho : t.kind = .mark .openBracket
  · have hn : n' = n + 1 := by
      simp [opened, closed, ho] at h
      omega
    simp [move, ho, hn]
  by_cases hc : t.kind = .mark .closeBracket
  · have hn : n = n' + 1 := by
      simp [opened, closed, hc] at h
      omega
    simp [move, hc, hn]
  · have hn : n = n' := by
      simpa [opened, closed, ho, hc] using h
    simp only [move]
    split <;> simp_all

/-- There is such a depth unless the token closes the outermost bracket. -/
theorem move_within_eq_go {name : String} {n : Nat}
    (h : (within name n).move t = .go mid) :
    (t.kind = .mark .closeBracket ∧ n = 0 ∧ mid = .listed name)
      ∨ ∃ n', opened [t] + n = closed [t] + n' ∧ mid = .within name n' := by
  by_cases hc : t.kind = .mark .closeBracket ∧ n = 0
  · obtain ⟨hk, rfl⟩ := hc
    simp only [move, hk] at h
    exact .inl ⟨hk, rfl, (Move.go.inj h).symm⟩
  · have hle : closed [t] ≤ n := by
      rcases Decidable.not_and_iff_or_not.1 hc with hk | hn
      · simp [closed, hk]
      · have : closed [t] ≤ 1 := List.countP_le_length
        omega
    obtain ⟨n', hn'⟩ := Nat.exists_eq_add_of_le (Nat.le_add_left_of_le hle)
    rw [move_within hn'] at h
    exact .inr ⟨n', hn', (Move.go.inj h).symm⟩

/-- Only the name of a type leads on from a slash. -/
theorem move_slash_eq_go {name : String} {length : Option Length}
    (h : (slash name length).move t = .go mid) :
    ∃ type : FieldType, t.kind = .identifier ∧ t.text = type.keyword
      ∧ mid = .done (.field name length (some type)) := by
  simp only [move] at h
  split at h
  · next hk =>
    split at h <;> cases h
    case h_1 type htype =>
      exact ⟨type, hk, FieldType.ofKeyword?_eq_some_iff.1 htype, rfl⟩
  · cases h

/-- A token that goes on with a term is held with those before it. -/
theorem Held.go (h : place.Held ts) (hmove : place.move t = .go mid) :
    mid.Held (ts ++ [t]) := by
  cases h with
  | next =>
    -- A mark starts no term, so three kinds of token are left.
    simp only [move, Move.start] at hmove
    split at hmove <;> cases hmove
    case h_1 hk => exact .done (.integer hk)
    case h_2 hk => exact .done (.string hk)
    case h_3 hk => exact .named hk
  | @named first ht =>
    have hbare : (Subject.term (.field first.text) none).WrittenBy [first] :=
      .name ht
    simp only [move] at hmove
    split at hmove <;> cases hmove
    case h_1 hk => exact .within ht hk (nested_nil_iff.2 rfl)
    case h_2 hk => exact .colon hbare hk
    case h_3 hk => exact .slash hbare hk
  | within ht hbracket hbody =>
    -- The body is complete when a bracket closes and no further one is open.
    rcases move_within_eq_go hmove with ⟨hk, rfl, rfl⟩ | ⟨n, hn, rfl⟩
    · exact .listed (.list ht hbracket hbody hk rfl)
    · exact .within ht hbracket (hbody.concat hn)
  | listed h =>
    simp only [move] at hmove
    split at hmove <;> cases hmove
    case h_1 hk => exact .colon h hk
  | colon h hcolon =>
    simp only [move] at hmove
    rw [List.append_assoc]
    split at hmove <;> cases hmove
    case h_1 hk => exact .at (h.append_length (.literal hcolon hk))
    case h_2 hk => exact .at (h.append_length (.field hcolon hk))
    case h_3 hk => exact .dot h hcolon hk
  | dot h hcolon ha =>
    simp only [move] at hmove
    rw [List.append_assoc]
    split at hmove <;> cases hmove
    case h_1 hk => exact .dots h hcolon ha hk
  | dots h hcolon ha hb =>
    simp only [move] at hmove
    rw [List.append_assoc]
    split at hmove <;> cases hmove
    case h_1 hk => exact .at (h.append_length (.rest hcolon ha hb hk))
  | measured h =>
    simp only [move] at hmove
    split at hmove <;> cases hmove
    case h_1 hk => exact .slash h hk
  | slash h hslash =>
    obtain ⟨type, hk, htype, rfl⟩ := move_slash_eq_go hmove
    rw [List.append_assoc]
    exact .done (h.append_type (.keyword hslash hk htype))
  | done h => cases hmove

/-- A term that is complete before a token is complete at the end of the
tokens. -/
theorem close_of_ended {term : Term} (h : place.move t = .ended term) :
    place.close = .ok (some term) := by
  cases place with
  | slash name length =>
    -- A token after a slash goes on or is refused.
    simp only [move] at h
    split at h
    · split at h <;> cases h
    · cases h
  | _ =>
    simp only [move, Move.start] at h
    first
      | cases h
        rfl
      | split at h <;> cases h <;> rfl

/-- What is held where a term may end is the term. -/
theorem Held.close (h : place.Held ts) {found : Option Term}
    (hclose : place.close = .ok found) :
    ∃ term, found = some term ∧ term.WrittenBy ts := by
  cases h with
  | named ht =>
    cases hclose
    exact ⟨_, rfl, .name ht⟩
  | listed h | measured h | done h =>
    cases hclose
    exact ⟨_, rfl, h⟩
  | _ => cases hclose

/-- The terms that are read from a place on are written by the tokens that it
holds and those ahead. -/
theorem Held.writtenBy_of_read {terms : List Term} (hheld : place.Held ts)
    (h : place.read us = .ok terms) : TermsWrittenBy terms (ts ++ us) := by
  -- The induction moves tokens from those ahead to those held; at a comma
  -- the held ones are a term, and nothing is held after it.
  induction us generalizing place ts terms with
  | nil =>
    rw [read] at h
    cases hclose : place.close with
    | error e =>
      rw [hclose] at h
      cases h
    | ok found =>
      obtain ⟨term, rfl, hterm⟩ := hheld.close hclose
      rw [hclose] at h
      cases h
      rw [List.append_nil]
      exact .one hterm
  | cons u us ih =>
    cases hmove : place.move u with
    | go mid =>
      rw [read_of_go hmove] at h
      rw [List.append_cons]
      exact ih (hheld.go hmove) h
    | refuse e =>
      rw [read, hmove] at h
      cases h
    | ended term =>
      obtain ⟨term, hsome, hterm⟩ := hheld.close (close_of_ended hmove)
      cases hsome
      by_cases hu : u.kind = .mark .comma
      · rw [read_of_comma hmove hu] at h
        cases hrest : Place.next.read us with
        | error e =>
          rw [hrest] at h
          cases h
        | ok others =>
          rw [hrest] at h
          cases h
          exact .more hterm hu (ih .next hrest)
      · rw [read, hmove] at h
        cases (if_neg hu).symm.trans h

end Place

/-! ## §3. What is written is read. -/

namespace Place

variable {place mid : Place} {t : Token} {ts us : List Token}

/-- A term that is complete at the end of the tokens is complete before a
comma. -/
theorem move_of_close {term : Term} (h : place.close = .ok (some term))
    (ht : t.kind = .mark .comma) : place.move t = .ended term := by
  cases place <;> cases h <;> simp [move, ht]

/-- Brackets that pair up lead back to the depth that they start from. -/
theorem run?_of_nested {name : String} {depth depth' : Nat}
    (h : Nested depth depth' ts) :
    (within name depth).run? ts = some (.within name depth') := by
  -- The induction follows the tokens; each leads to the depth after it.
  induction ts generalizing depth with
  | nil => rw [nested_nil_iff.1 h, run?]
  | cons t ts ih =>
    obtain ⟨n, hn, hts⟩ := h.exists_mid
    rw [run?_of_go (move_within hn)]
    exact ih hts

/-- The tokens of a length lead from a colon to where it has been read. -/
theorem run?_of_length (subject : Subject) {length : Length}
    (hplace : ∀ t, t.kind = .mark .colon → place.move t = .go (.colon subject))
    (h : length.WrittenBy ts) : place.run? ts = some (subject.at length) := by
  cases h with
  | literal hcolon ht | field hcolon ht =>
    rw [run?_of_go (hplace _ hcolon)]
    simp [run?, move, ht]
  | rest hcolon ha hb hc =>
    rw [run?_of_go (hplace _ hcolon)]
    simp [run?, move, ha, hb, hc]

end Place

namespace Term.WrittenBy

variable {ts ls ys : List Token}

/-- A name and an optional length lead to a place where the field may end or
its type may follow. -/
theorem exists_run?_of_length (name : String) {length : Option Length}
    (h : Optionally Length.WrittenBy length ls) :
    ∃ q : Place, (Place.named name).run? ls = some q
      ∧ q.close = .ok (some (.field name length none))
      ∧ ∀ t, t.kind = .mark .slash → q.move t = .go (.slash name length) := by
  cases length with
  | none =>
    cases h
    exact ⟨.named name, rfl, rfl, fun t ht => by simp [Place.move, ht]⟩
  | some length =>
    refine ⟨.measured name length, ?_, rfl, fun t ht => by simp [Place.move, ht]⟩
    exact Place.run?_of_length (.field name)
      (fun t ht => by simp [Place.move, ht]) h

/-- A name, an optional length and an optional type lead to a place where the
field may end. -/
theorem exists_run?_of_type (name : String) {length : Option Length}
    {type : Option FieldType}
    (hlength : Optionally Length.WrittenBy length ls)
    (htype : Optionally FieldType.WrittenBy type ys) :
    ∃ q : Place, (Place.named name).run? (ls ++ ys) = some q
      ∧ q.close = .ok (some (.field name length type)) := by
  obtain ⟨p, hrun, hclose, hslash⟩ := exists_run?_of_length name hlength
  cases type with
  | none =>
    cases htype
    exact ⟨p, by rwa [List.append_nil], hclose⟩
  | some type =>
    cases htype with
    | keyword hs ht hkeyword =>
      refine ⟨.done (.field name length (some type)), ?_, rfl⟩
      rw [Place.run?_append hrun, Place.run?_of_go (hslash _ hs)]
      simp [Place.run?, Place.move, ht, FieldType.ofKeyword?_eq_some_iff.2 hkeyword]

/-- The tokens of a term lead from its start to a place where it may end. -/
theorem exists_run? {term : Term} (h : term.WrittenBy ts) :
    ∃ q : Place, Place.next.run? ts = some q ∧ q.close = .ok (some term) := by
  cases h with
  | integer ht | string ht =>
    exact ⟨.done _, by simp [Place.run?, Place.move, Move.start, ht], rfl⟩
  | @field t length type ls ys ht hlength htype =>
    have hname : Place.next.move t = .go (.named t.text) := by
      simp [Place.move, Move.start, ht]
    rw [Place.run?_of_go hname]
    exact exists_run?_of_type t.text hlength htype
  | @list t bracket close length body ls ht hopen hbody hclose hlength =>
    have hname : Place.next.move t = .go (.named t.text) := by
      simp [Place.move, Move.start, ht]
    have hbracket : (Place.named t.text).move bracket = .go (.within t.text 0) := by
      simp [Place.move, hopen]
    have hlisted : (Place.within t.text 0).move close = .go (.listed t.text) := by
      simp [Place.move, hclose]
    -- The name, the bracket, the body back to its depth, the other bracket.
    rw [Place.run?_of_go hname, Place.run?_of_go hbracket,
      Place.run?_append (Place.run?_of_nested hbody.nested), Place.run?_of_go hlisted]
    cases length with
    | none =>
      cases hlength
      exact ⟨.listed t.text, rfl, rfl⟩
    | some length =>
      refine ⟨.done (.list t.text [] (some length)), ?_, rfl⟩
      exact Place.run?_of_length (.list t.text)
        (fun c hc => by simp [Place.move, hc]) hlength

end Term.WrittenBy

/-- Terms that are written are read. -/
theorem TermsWrittenBy.read_next {terms : List Term} {ts : List Token}
    (h : TermsWrittenBy terms ts) : Place.next.read ts = .ok terms := by
  -- The induction is on the grammar; a comma starts what is read afresh.
  induction h with
  | one hterm =>
    obtain ⟨q, hrun, hclose⟩ := hterm.exists_run?
    have := Place.read_append_of_run? hrun []
    rw [List.append_nil] at this
    rw [this, Place.read, hclose]
    rfl
  | more hterm hcomma _ ih =>
    obtain ⟨q, hrun, hclose⟩ := hterm.exists_run?
    rw [Place.read_append_of_run? hrun,
      Place.read_of_comma (Place.move_of_close hclose hcomma) hcomma, ih]
    rfl

/-! ## §4. Reading a layout is exact. -/

/-- Tokens are read as a layout exactly if they write it. -/
theorem Layout.ofTokens_eq_ok_iff {ts : List Token} {layout : Layout} :
    Layout.ofTokens ts = .ok layout ↔ layout.WrittenBy ts := by
  rw [ofTokens_eq_read]
  constructor
  · intro h
    cases ts with
    | nil =>
      cases h
      exact .empty
    | cons t ts =>
      -- The first token moves on from the opening as it does after a comma.
      cases hread : Place.next.read (t :: ts) with
      | error e =>
        rw [show Place.opening.read (t :: ts) = _ from hread] at h
        cases h
      | ok terms =>
        rw [show Place.opening.read (t :: ts) = _ from hread] at h
        cases h
        exact .terms (Place.Held.next.writtenBy_of_read hread)
  · intro h
    cases h with
    | empty => rfl
    | terms h =>
      cases ts with
      | nil => cases h.read_next
      | cons t ts => exact congrArg (Except.map Layout.mk) h.read_next

/-- **Reading a layout is exact**: tokens are read as a layout exactly if they
write it, and they write at most one layout. -/
theorem layout_exact (ts : List Token) :
    (∀ layout, Layout.ofTokens ts = .ok layout ↔ layout.WrittenBy ts)
      ∧ ∀ a b : Layout, a.WrittenBy ts → b.WrittenBy ts → a = b := by
  refine ⟨fun _ => Layout.ofTokens_eq_ok_iff, fun a b ha hb => ?_⟩
  have h := (Layout.ofTokens_eq_ok_iff.2 ha).symm.trans (Layout.ofTokens_eq_ok_iff.2 hb)
  exact Except.ok.inj h

end ByteLayout
