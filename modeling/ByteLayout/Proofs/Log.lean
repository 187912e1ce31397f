/-
  ByteLayout.Proofs.Log
  ─────────────────────
  **THE LOG IS AN ACCOUNT OF THE READING.**

  A reading leaves a record of every token found and of every complete term,
  whether or not it comes to its end.  The records of tokens tell where in the
  source they stand, and between them is blank space (`Placed`).

  The log is kept step by step.  Every byte leaves on record what the lexer has
  found (`Lexer.Logged.push`), and every token what the builder has complete
  (`Builder.Logged.push`); what is on record before a stage bears on nothing in
  it (`Builder.push_onto`).  So the log at the end is that of the first stage
  and then that of the second (`Reading.reverse_report`).

  Which tokens and terms are on record after an error is said without the
  reading: they are the longest sequence that is complete in the bytes, or in
  the tokens, that were read.  For tokens this is `Lexer.isLongest_pushAll`;
  for terms, which are complete before a token that cannot go on with them,
  it is `Builder.isLongest_pushAll`.

  The main result puts all of this together (`log_account`).
-/
import ByteLayout.Proofs.Sightings
import ByteLayout.Proofs.Terms

namespace ByteLayout

/-! ## §1. The tokens of a reading. -/

/-- The tokens stand in the source at their offsets: each text is what the
source has there, they come one after another without overlapping, and the
bytes before each that belong to none are blank. -/
structure Placed (source : List UInt8) (found : List Sighting) : Prop where
  text : ∀ s ∈ found, (source.drop s.start).take (Utf8.bytes s.token.text).length
    = Utf8.bytes s.token.text
  ordered : found.Pairwise (fun s t => s.start < t.start ∧ s.stop ≤ t.start)
  blank : ∀ s ∈ found, ∀ i < s.start, (∀ t ∈ found, ¬ (t.start ≤ i ∧ i < t.stop)) →
    ∀ b ∈ source[i]?, ByteClass.isBlank b

/-- Tokens at the front of a source stand in it at their offsets. -/
theorem Sighted.placed {front source : List UInt8} {found : List Sighting}
    (h : Sighted front found) (hfront : front <+: source) : Placed source found where
  text := by
    intro s hs
    obtain ⟨rest, rfl⟩ := hfront
    obtain ⟨hlt, hle⟩ := h.start_lt_stop_and_le s hs
    rw [List.drop_append_of_le_length (by omega)]
    exact (List.prefix_iff_eq_take.1
      ((h.text_prefix s hs).trans (List.prefix_append _ rest))).symm
  ordered := h.pairwise
  blank := by
    intro s hs i hi hnone b hb
    obtain ⟨rest, rfl⟩ := hfront
    obtain ⟨hlt, hle⟩ := h.start_lt_stop_and_le s hs
    rw [List.getElem?_append_left (by omega)] at hb
    exact h.isBlank_of_not_covered hb hnone

namespace Delivered

/-- The bytes that a limit lets in are at the front. -/
theorem within_isPrefix (limit : Option Nat) (bs : List UInt8) :
    within limit bs <+: bs := by
  cases limit with
  | none => exact List.prefix_rfl
  | some n => exact List.take_prefix n bs

/-- The lexer that is left has taken in the bytes within the limit, and then
failed or come to the end of the input. -/
theorem lexer_cases (limit : Option Nat) (d : Delivered) :
    (∃ e, d.lexer limit = (Lexer.empty.pushAll (within limit d.bytes)).fail e)
      ∨ d.lexer limit = (Lexer.empty.pushAll (within limit d.bytes)).close := by
  rw [lexer]
  cases exceeded limit d.bytes with
  | some n => exact .inl ⟨_, rfl⟩
  | none =>
    cases d.failure with
    | some reason => exact .inl ⟨_, rfl⟩
    | none => exact .inr rfl

end Delivered

namespace Lexer

variable {x : Lexer} {e : LexicalError}

/-- What was found before an error stays found. -/
theorem sightings_fail (x : Lexer) (e : LexicalError) :
    (x.fail e).sightings = x.sightings := by
  unfold fail
  cases x.state <;> rfl

/-- At an end of the input that is an error nothing is found. -/
theorem sightings_close_of_error (h : x.close.state = .error e) :
    x.close.sightings = x.sightings := by
  cases hx : x.state with
  | error e' => rw [close_of_error hx]
  | ok inHand =>
    cases inHand with
    | none => rw [close_of_none hx]
    | some l =>
      rcases close_cases hx with
        ⟨_, -, -, hsame⟩ | ⟨_, -, -, -, hsame⟩ | ⟨_, -, -, hs, -⟩
      · exact hsame
      · exact hsame
      · cases hs.symm.trans h

end Lexer

namespace Delivered

variable {limit : Option Nat} {d : Delivered} {e : LexicalError}

/-- The tokens on record stand in the source at their offsets. -/
theorem placed_lexer (limit : Option Nat) (d : Delivered) :
    Placed d.bytes (d.lexer limit).sightings := by
  have hplaced {x : Lexer} (h : x.Shows (within limit d.bytes)) :
      Placed d.bytes x.sightings := by
    obtain ⟨front, hfront, hfound⟩ := h.exists_front
    exact hfound.placed (hfront.trans (within_isPrefix limit d.bytes))
  rcases lexer_cases limit d with ⟨e, hlexer⟩ | hlexer
  · rw [hlexer, Lexer.sightings_fail]
    exact hplaced (Lexer.shows_pushAll _)
  · rw [hlexer]
    exact hplaced (Lexer.shows_close _)

/-- After an error they are the longest sequence that is complete in the bytes
within the limit. -/
theorem isLongest_lexer (h : (d.lexer limit).state = .error e) :
    IsLongest (TokensCompleteIn (within limit d.bytes))
      ((d.lexer limit).sightings.map Sighting.token) := by
  rcases lexer_cases limit d with ⟨e', hlexer⟩ | hlexer
  · rw [hlexer, Lexer.sightings_fail]
    exact Lexer.isLongest_pushAll _
  · rw [hlexer] at h ⊢
    rw [Lexer.sightings_close_of_error h]
    exact Lexer.isLongest_pushAll _

end Delivered

/-! ## §2. The log of each stage. -/

namespace Lexer

/-- On record are the tokens found, each of them once, in the order in which
they were found. -/
def Logged (x : Lexer) : Prop :=
  x.log = x.found.map Sighting.record

variable {x : Lexer}

theorem logged_empty : empty.Logged := rfl

/-- A lexeme that is complete is found and put on record at once. -/
theorem Logged.retire (h : x.Logged) (l : Lexeme)
    (next : Except LexicalError (Option Lexeme)) : (x.retire l next).Logged := by
  unfold Lexer.retire
  cases l.token with
  | error e => exact h
  | ok found =>
    show found.toList.map Sighting.record ++ x.log
      = (found.toList ++ x.found).map Sighting.record
    rw [List.map_append, show x.log = _ from h]

/-- Every byte leaves the tokens found on record. -/
theorem Logged.push (h : x.Logged) (b : UInt8) : (x.push b).Logged := by
  cases hx : x.state with
  | error e => rwa [push_of_error hx]
  | ok inHand =>
    cases inHand with
    | none =>
      unfold Lexer.push
      rw [hx]
      exact h
    | some l =>
      rw [push_of_lexeme hx]
      cases l.next (some b) with
      | more s => exact h
      | refuse e => exact h
      | complete => exact h.retire l _

theorem Logged.pushAll (h : x.Logged) (bs : List UInt8) : (x.pushAll bs).Logged := by
  induction bs generalizing x with
  | nil => exact h
  | cons b bs ih => exact ih (h.push b)

/-- An error adds nothing to the log. -/
theorem Logged.fail (h : x.Logged) (e : LexicalError) : (x.fail e).Logged := by
  unfold Lexer.fail
  cases x.state <;> exact h

/-- Nor is anything missing from it at the end of the input. -/
theorem Logged.close (h : x.Logged) : x.close.Logged := by
  cases hx : x.state with
  | error e => rwa [close_of_error hx]
  | ok inHand =>
    cases inHand with
    | none => rwa [close_of_none hx]
    | some l =>
      cases hn : l.next none with
      | more s => exact absurd hn (l.next_none_ne_more s)
      | refuse e =>
        rw [close_of_refuse hx hn]
        exact h
      | complete =>
        rw [close_of_complete hx hn]
        exact h.retire l _

/-- The records of the stage: of the tokens found, and of their number if it
came to its end. -/
def records (x : Lexer) : List Record :=
  x.sightings.map Sighting.record ++
    match x.state with
    | .ok _ => [.tokenCount x.sightings.length]
    | .error _ => []

/-- The log when the stage is over has these records, the last one first. -/
theorem Logged.reverse_report (h : x.Logged) : x.report.reverse = x.records := by
  have hlog : x.log.reverse = x.sightings.map Sighting.record := by
    rw [show x.log = _ from h, sightings, List.map_reverse]
  have hlength : x.sightings.length = x.found.length := List.length_reverse
  unfold report records
  cases x.state with
  | ok inHand => rw [List.reverse_cons, hlog, hlength]
  | error e => rw [hlog, List.append_nil]

end Lexer

namespace Builder

/-- On record are the complete terms, each of them once, in the order in which
they were complete. -/
def Logged (x : Builder) : Prop :=
  x.log = x.complete.map Term.record

variable {x : Builder}

theorem logged_empty : empty.Logged := rfl

/-- Every token leaves the complete terms on record. -/
theorem Logged.push (h : x.Logged) (t : Token) : (x.push t).Logged := by
  cases hx : x.state with
  | error e => rwa [push_of_error hx]
  | ok place =>
    cases hmove : place.move t with
    | go mid =>
      rw [push_of_go hx hmove]
      exact h
    | refuse e =>
      rw [push_of_refuse hx hmove]
      exact h
    | ended term =>
      rw [push_of_ended hx hmove]
      exact congrArg (term.record :: ·) h

theorem Logged.pushAll (h : x.Logged) (ts : List Token) : (x.pushAll ts).Logged := by
  induction ts generalizing x with
  | nil => exact h
  | cons t ts ih => exact ih (h.push t)

/-- And so does their end. -/
theorem Logged.close (h : x.Logged) : x.close.Logged := by
  cases hx : x.state with
  | error e => rwa [close_of_error hx]
  | ok place =>
    cases hclose : place.close with
    | error e =>
      rw [close_of_refuse hx hclose]
      exact h
    | ok found =>
      rw [close_of_ok hx hclose]
      show found.toList.map Term.record ++ x.log
        = (found.toList ++ x.complete).map Term.record
      rw [List.map_append, show x.log = _ from h]

/-- The records of the stage over so many tokens: of the complete terms, and of
their number if it came to its end. -/
def records (x : Builder) (tokens : Nat) : List Record :=
  x.terms.map Term.record ++
    match x.state with
    | .ok _ => [.termCount x.terms.length tokens]
    | .error _ => []

/-- The log when the stage is over has these records, the last one first. -/
theorem Logged.reverse_report (h : x.Logged) (tokens : Nat) :
    (x.report tokens).reverse = x.records tokens := by
  have hlog : x.log.reverse = x.terms.map Term.record := by
    rw [show x.log = _ from h, terms, List.map_reverse]
  have hlength : x.terms.length = x.complete.length := List.length_reverse
  unfold report records
  cases x.state with
  | ok place => rw [List.reverse_cons, hlog, hlength]
  | error e => rw [hlog, List.append_nil]

/-- The builder with other records under its own. -/
def onto (x : Builder) (log : List Record) : Builder :=
  { x with log := x.log ++ log }

variable {log : List Record}

/-- What a token does to a builder does not depend on what is under its
records, which stays there. -/
theorem push_onto (x : Builder) (log : List Record) (t : Token) :
    (x.onto log).push t = (x.push t).onto log := by
  cases hx : x.state with
  | error e => rw [push_of_error hx, push_of_error (x := x.onto log) hx]
  | ok place =>
    cases hmove : place.move t with
    | go mid =>
      rw [push_of_go hx hmove, push_of_go (x := x.onto log) hx hmove]
      rfl
    | refuse e =>
      rw [push_of_refuse hx hmove, push_of_refuse (x := x.onto log) hx hmove]
      rfl
    | ended term =>
      rw [push_of_ended hx hmove, push_of_ended (x := x.onto log) hx hmove]
      rfl

/-- Nor does what all of the tokens do. -/
theorem pushAll_onto (x : Builder) (log : List Record) (ts : List Token) :
    (x.onto log).pushAll ts = (x.pushAll ts).onto log := by
  induction ts generalizing x with
  | nil => rfl
  | cons t ts ih => rw [pushAll_cons, pushAll_cons, push_onto, ih]

/-- And the end of the tokens leaves those records where they are. -/
theorem close_onto (x : Builder) (log : List Record) :
    (x.onto log).close = x.close.onto log := by
  cases hx : x.state with
  | error e => rw [close_of_error hx, close_of_error (x := x.onto log) hx]
  | ok place =>
    cases hclose : place.close with
    | error e =>
      rw [close_of_refuse hx hclose, close_of_refuse (x := x.onto log) hx hclose]
      rfl
    | ok found =>
      rw [close_of_ok hx hclose, close_of_ok (x := x.onto log) hx hclose]
      cases found <;> rfl

/-- A builder reports its own records on top of them. -/
theorem report_onto (x : Builder) (log : List Record) (tokens : Nat) :
    (x.onto log).report tokens = x.report tokens ++ log := by
  have hstate : (x.onto log).state = x.state := rfl
  unfold report
  rw [hstate]
  cases x.state <;> rfl

/-- A stage that goes on with a log puts its own records after those in it. -/
theorem report_start (log : List Record) (ts : List Token) (tokens : Nat) :
    ((start log).pushAll ts).close.report tokens
      = (ofTokens ts).report tokens ++ log := by
  show ((empty.onto log).pushAll ts).close.report tokens = _
  rw [pushAll_onto, close_onto, report_onto]
  rfl

/-- The builder that has taken in all tokens has its terms on record. -/
theorem logged_ofTokens (ts : List Token) : (ofTokens ts).Logged :=
  (logged_empty.pushAll ts).close

end Builder

/-! ## §3. The log of a reading. -/

namespace Reading

/-- The records of reading a layout, in the order in which they are made. -/
def records (r : Reading) : List Record :=
  r.lexer.records ++
    match r.outcome with
    | .ok ts => (Builder.ofTokens ts).records ts.length
    | .error _ => []

/-- **The log that is kept has the records of the first stage, and after them
those of the second.** -/
theorem reverse_report {r : Reading} (h : r.lexer.Logged) :
    r.report.reverse = r.records := by
  unfold report records
  cases r.outcome with
  | ok ts =>
    have hlog : (Builder.ofTokens ts).Logged := Builder.logged_ofTokens ts
    dsimp only
    rw [Builder.report_start, List.reverse_append, h.reverse_report, hlog.reverse_report]
  | error e => rw [h.reverse_report, List.append_nil]

end Reading

/-- Whatever source is read, what the lexer has found is on record. -/
theorem Intake.logged_read (intake : Intake) (reader : Reader) :
    (intake.read reader).lexer.Logged := by
  rw [intake.lexer_read reader]
  have hbytes : (Lexer.empty.pushAll (Delivered.within intake.limit
      (Delivered.ofReader reader).bytes)).Logged := Lexer.logged_empty.pushAll _
  rcases Delivered.lexer_cases intake.limit (Delivered.ofReader reader) with
    ⟨e, hlexer⟩ | hlexer
  · rw [hlexer]
    exact hbytes.fail e
  · rw [hlexer]
    exact hbytes.close

/-! ## §4. The account of a reading. -/

/-- The log is an account of the reading of a source, with the tokens and the
terms that are on record. -/
structure Reading.Account (r : Reading) (source : List UInt8)
    (limit : Option Nat) (found : List Sighting) (terms : List Term) : Prop where
  /-- First come the tokens, and their number if the reading of tokens came to
  its end; and then so for the terms. -/
  trace : r.log .trace = found.map Sighting.record
    ++ (if r.outcome.isOk then [.tokenCount found.length] else [])
    ++ terms.map Term.record
    ++ (if r.layout.isOk then [.termCount terms.length found.length] else [])
  /-- The shorter log has all but the records of single tokens and terms. -/
  debug : r.log .debug = (r.log .trace).filter (fun record => record.level ≠ .trace)
  placed : Placed source found
  /-- The tokens on record are those that were read, or the longest sequence
  complete in the bytes within the limit. -/
  tokens : match r.outcome with
    | .ok ts => found.map Sighting.token = ts
    | .error _ => IsLongest (TokensCompleteIn (Delivered.within limit source))
      (found.map Sighting.token)
  /-- The terms on record are those of the layout that was read, or the longest
  sequence complete in the tokens, once all of these were read. -/
  terms : match r.layout with
    | .ok layout => terms = layout.terms
    | .error (.grammar _) =>
      IsLongest (TermsCompleteIn (found.map Sighting.token)) terms
    | .error (.lexical _) => terms = []

namespace Reading

/-- The terms on record: those that are complete at the end of the tokens, or
none if the reading of tokens did not come to its end. -/
def terms (r : Reading) : List Term :=
  match r.outcome with
  | .ok ts => (Builder.ofTokens ts).terms
  | .error _ => []

variable {r : Reading}

/-- The longer log has all records. -/
theorem log_trace (h : r.lexer.Logged) : r.log .trace = r.records := by
  rw [log, reverse_report h]
  exact List.filter_eq_self.2 (fun _ _ => rfl)

/-- Of the records, those about a number are for the shorter log. -/
theorem log_debug (r : Reading) :
    r.log .debug = (r.log .trace).filter (fun record => record.level ≠ .trace) := by
  simp only [log, List.filter_filter]
  refine List.filter_congr (fun record _ => ?_)
  cases hlevel : record.level <;> rfl

/-- The tokens that were read are those found. -/
theorem outcome_eq_ok {ts : List Token} (h : r.outcome = .ok ts) :
    r.lexer.sightings.map Sighting.token = ts := by
  rw [outcome, Lexer.outcome] at h
  split at h <;> cases h
  rfl

/-- And an error is that of the lexer that is left. -/
theorem state_of_outcome {e : LexicalError} (h : r.outcome = .error e) :
    r.lexer.state = .error e := by
  rw [outcome, Lexer.outcome] at h
  split at h <;> cases h
  assumption

theorem exists_state_of_outcome {ts : List Token} (h : r.outcome = .ok ts) :
    ∃ inHand, r.lexer.state = .ok inHand := by
  cases hx : r.lexer.state with
  | ok inHand => exact ⟨inHand, rfl⟩
  | error e => cases h.symm.trans (Lexer.outcome_eq_error hx)

/-- First come the records of the tokens, with their number if their stage came
to its end, and then those of the terms with theirs. -/
theorem records_eq (r : Reading) :
    r.records = r.lexer.sightings.map Sighting.record
      ++ (if r.outcome.isOk then [.tokenCount r.lexer.sightings.length] else [])
      ++ r.terms.map Term.record
      ++ (if r.layout.isOk then [.termCount r.terms.length r.lexer.sightings.length]
          else []) := by
  cases hr : r.outcome with
  | error e =>
    have hlayout : r.layout = .error (.lexical e) := by rw [layout, hr]; rfl
    rw [records, Lexer.records, state_of_outcome hr, hlayout, terms, hr]
    simp [Except.isOk, Except.toBool]
  | ok ts =>
    -- Both stages count the tokens that the lexer has found.
    obtain ⟨inHand, hstate⟩ := exists_state_of_outcome hr
    have hlength : ts.length = r.lexer.sightings.length := by
      rw [← outcome_eq_ok hr, List.length_map]
    have hlayout : r.layout = (Builder.ofTokens ts).outcome.mapError .grammar := by
      rw [layout, hr]
      rfl
    rw [records, Lexer.records, hstate, hlayout, terms, hr]
    dsimp only
    rw [hlength, Builder.records, Builder.outcome]
    cases (Builder.ofTokens ts).state <;> simp [Except.isOk, Except.toBool, Except.mapError]

/-- The account of a reading, given that its tokens are on record and stand in
the source, and which tokens they are after an error. -/
theorem account {source : List UInt8} {limit : Option Nat} (hlogged : r.lexer.Logged)
    (hplaced : Placed source r.lexer.sightings)
    (hlongest : ∀ e, r.lexer.state = .error e →
      IsLongest (TokensCompleteIn (Delivered.within limit source))
        (r.lexer.sightings.map Sighting.token)) :
    r.Account source limit r.lexer.sightings r.terms := by
  have htrace := (log_trace hlogged).trans r.records_eq
  cases hr : r.outcome with
  | error e =>
    have hlayout : r.layout = .error (.lexical e) := by rw [layout, hr]; rfl
    -- Without all tokens there are no terms.
    refine ⟨htrace, log_debug r, hplaced, ?_, ?_⟩
    · rw [hr]
      exact hlongest e (state_of_outcome hr)
    · rw [hlayout, terms, hr]
  | ok ts =>
    have hts := outcome_eq_ok hr
    have hlayout : r.layout = (Layout.ofTokens ts).mapError .grammar := by
      rw [layout, hr]; rfl
    have hterms : r.terms = (Builder.ofTokens ts).terms := by rw [terms, hr]
    refine ⟨htrace, log_debug r, hplaced, ?_, ?_⟩
    · rw [hr]
      exact hts
    · rw [hlayout, hterms, Layout.ofTokens, Builder.outcome]
      -- The terms of a layout are all that are complete; after an error they
      -- are the longest sequence complete in the tokens.
      cases hx : (Builder.ofTokens ts).state with
      | ok place => rfl
      | error e =>
        rw [Builder.ofTokens] at hx ⊢
        rw [Builder.terms_close_of_error hx, hts]
        exact Builder.isLongest_pushAll ts

end Reading

/-- **The log is an account of the reading**, however a source arrives and
whatever comes of it. -/
theorem log_account (intake : Intake) (reader : Reader) :
    ∃ found terms, (intake.read reader).Account (Delivered.ofReader reader).bytes
      intake.limit found terms := by
  have hlexer := intake.lexer_read reader
  refine ⟨_, _, Reading.account (intake.logged_read reader) ?_ (fun e he => ?_)⟩
  · rw [hlexer]
    exact Delivered.placed_lexer _ _
  · rw [hlexer] at he ⊢
    exact Delivered.isLongest_lexer he

/-- A missing comma: the tokens and their number are on record, and the terms
that are complete before it. -/
example :
    ((Intake.standard.read (.ofBytes (Utf8.bytes "a:2, 5 c"))).log .trace).map Record.text
      = ["token a (Identifier) at offset 0", "token : (Colon) at offset 1",
        "token 2 (Integer) at offset 2", "token , (Comma) at offset 3",
        "token 5 (Integer) at offset 5", "token c (Identifier) at offset 7",
        "tokenized 6 tokens", "node a:2", "node 5"] := by
  decide +kernel

end ByteLayout
