/-
  ByteLayout.Proofs.Session
  ─────────────────────────
  **WHAT A SESSION KEEPS.**

  A reading that fails changes nothing (`eq_of_error`).  One that does not
  changes what it is for: the tokens of a source take the place of those before
  them, and a layout moves the last one back.  `Session.Step` is any one step of
  a session, and `Step.cases` says all that it can leave.

  So whatever sources a session has met, good or bad and under whatever limits,
  its tokens are those of some source and its layouts are well-formed
  (`Reachable.kept`).  The main result is that a layout which a session keeps
  can be written down and read again, and is then found to be unchanged
  (`parse_render`).
-/
import ByteLayout.Proofs.RoundTrip
import ByteLayout.Session

namespace ByteLayout.Session

variable {s t : Session} {source : List UInt8}

/-! ## §1. One reading. -/

@[simp]
theorem adopt_ok {ε : Type} (s : Session) (layout : Layout) :
    s.adopt (.ok layout : Except ε Layout)
      = { s with previous := s.current, current := layout } := rfl

@[simp]
theorem adopt_error {ε : Type} (s : Session) (e : ε) :
    s.adopt (.error e) = s := rfl

/-- Tokens that are read take the place of those before them, and nothing else
is touched. -/
theorem tokenize_of_ok {ts : List Token} (h : (s.tokenize source).1 = .ok ts) :
    (s.tokenize source).2 = { s with tokens := ts } := by
  unfold tokenize at h ⊢
  dsimp only at h ⊢
  rw [h]

/-- If there is an error, those before them stay. -/
theorem tokenize_of_error {e : LexicalError} (h : (s.tokenize source).1 = .error e) :
    (s.tokenize source).2 = s := by
  unfold tokenize at h ⊢
  dsimp only at h ⊢
  rw [h]

/-- A layout that is read becomes the current one, and that one the one
before. -/
theorem parse_of_ok {layout : Layout} (h : (s.parse source).1 = .ok layout) :
    (s.parse source).2 = { s with previous := s.current, current := layout } := by
  show s.adopt (s.parse source).1 = _
  rw [h, adopt_ok]

/-- And so it does if it is read from tokens. -/
theorem parseSlice_of_ok {start stop : Nat} {layout : Layout}
    (h : (s.parseSlice start stop).1 = .ok layout) :
    (s.parseSlice start stop).2
      = { s with previous := s.current, current := layout } := by
  show s.adopt (s.parseSlice start stop).1 = _
  rw [h, adopt_ok]

/-- **A reading that fails changes nothing.**  Whatever is read, be it as
tokens or as a layout, from a source or from tokens, the session after an error
is the session before it. -/
theorem eq_of_error (s : Session) :
    (∀ source e, (s.tokenize source).1 = .error e → (s.tokenize source).2 = s)
      ∧ (∀ source e, (s.parse source).1 = .error e → (s.parse source).2 = s)
      ∧ ∀ start stop e, (s.parseSlice start stop).1 = .error e →
        (s.parseSlice start stop).2 = s := by
  refine ⟨fun source e => tokenize_of_error, fun source e h => ?_,
    fun start stop e h => ?_⟩
  · show s.adopt (s.parse source).1 = s
    rw [h, adopt_error]
  · show s.adopt (s.parseSlice start stop).1 = s
    rw [h, adopt_error]

/-! ## §2. Slices. -/

/-- A slice is some of the tokens, one after another. -/
theorem slice_infix (s : Session) (start stop : Nat) :
    s.slice start stop <:+: s.tokens :=
  (List.drop_suffix start _).isInfix.trans (List.take_prefix stop _).isInfix

/-- A slice that is long enough has all of them. -/
theorem slice_of_length_le {stop : Nat} (h : s.tokens.length ≤ stop) :
    s.slice 0 stop = s.tokens := by
  show (s.tokens.take stop).drop 0 = s.tokens
  rw [List.drop_zero, List.take_of_length_le h]

/-- Reading a source as tokens and then all of these as a layout comes to what
reading the source as a layout comes to, but for the tokens that are kept. -/
theorem parseSlice_tokenize {ts : List Token} (h : (s.tokenize source).1 = .ok ts)
    {stop : Nat} (hstop : ts.length ≤ stop) :
    (s.tokenize source).2.parseSlice 0 stop
      = ((s.parse source).1, { (s.parse source).2 with tokens := ts }) := by
  -- Both ways the second stage goes on with the same tokens.
  have hlayout : (s.parse source).1 = Layout.ofTokenized (.ok ts) :=
    congrArg Layout.ofTokenized h
  have hall : { s with tokens := ts }.slice 0 stop = ts := slice_of_length_le hstop
  rw [tokenize_of_ok h, parseSlice, hall]
  show (Layout.ofTokenized (.ok ts), adopt _ (Layout.ofTokenized (.ok ts)))
    = (_, { s.adopt (s.parse source).1 with tokens := ts })
  rw [hlayout]
  cases Layout.ofTokenized (.ok ts) with
  | ok layout => rfl
  | error e => rfl

/-! ## §3. What every step leaves. -/

/-- One step of a session: the intake is changed, or something is read. -/
inductive Step (s : Session) : Session → Prop
  | configure (intake : Intake) : Step s (s.configure intake)
  | tokenize (source : List UInt8) : Step s (s.tokenize source).2
  | parse (source : List UInt8) : Step s (s.parse source).2
  | parseSlice (start stop : Nat) : Step s (s.parseSlice start stop).2

/-- The sessions that steps lead to from the start. -/
inductive Reachable : Session → Prop
  | start : Reachable .start
  | step {s t : Session} (h : Reachable s) (hstep : s.Step t) : Reachable t

/-- A step leaves another intake; or the tokens of a source; or a layout that
the tokens of a source make, or some of those that were kept; or nothing new. -/
theorem Step.cases (h : s.Step t) :
    (∃ intake, t = { s with intake := intake })
      ∨ (∃ source ts, tokensOf source = .ok ts ∧ t = { s with tokens := ts })
      ∨ (∃ ts layout, ((∃ source, tokensOf source = .ok ts) ∨ ts <:+: s.tokens)
        ∧ Layout.ofTokens ts = .ok layout
        ∧ t = { s with previous := s.current, current := layout })
      ∨ t = s := by
  cases h with
  | configure intake => exact .inl ⟨intake, rfl⟩
  | tokenize source =>
    cases hout : (s.tokenize source).1 with
    | ok ts =>
      -- A limit that lets the source in bears on nothing.
      have hts : tokensOf source = .ok ts := (Intake.outcome_read_eq_ok_iff.1 hout).2
      exact .inr (.inl ⟨source, ts, hts, tokenize_of_ok hout⟩)
    | error e => exact .inr (.inr (.inr (tokenize_of_error hout)))
  | parse source =>
    cases hout : (s.parse source).1 with
    | ok layout =>
      obtain ⟨ts, hread, hlayout⟩ := Layout.ofTokenized_eq_ok_iff.1 hout
      have hts : tokensOf source = .ok ts := (Intake.outcome_read_eq_ok_iff.1 hread).2
      exact .inr (.inr (.inl ⟨ts, layout, .inl ⟨source, hts⟩, hlayout, parse_of_ok hout⟩))
    | error e => exact .inr (.inr (.inr (s.eq_of_error.2.1 source e hout)))
  | parseSlice start stop =>
    cases hout : (s.parseSlice start stop).1 with
    | ok layout =>
      obtain ⟨ts, hslice, hlayout⟩ :=
        Layout.ofTokenized_eq_ok_iff.1 (show Layout.ofTokenized (.ok _) = _ from hout)
      cases hslice
      exact .inr (.inr (.inl
        ⟨_, layout, .inr (s.slice_infix start stop), hlayout, parseSlice_of_ok hout⟩))
    | error e => exact .inr (.inr (.inr (s.eq_of_error.2.2 start stop e hout)))

/-- What a session keeps was read: its tokens are those of some source, and its
layouts are well-formed. -/
structure Kept (s : Session) : Prop where
  tokens : ∃ source, Spelled source s.tokens
  current : s.current.WellFormed
  previous : s.previous.WellFormed

theorem kept_start : Kept start where
  tokens := ⟨[], .gap (List.forall_mem_nil _)⟩
  current := List.forall_mem_nil _
  previous := List.forall_mem_nil _

/-- Tokens that a source spells are lexemes, and so is any slice of them; and
lexemes make well-formed layouts only. -/
theorem Kept.step (h : s.Kept) (hstep : s.Step t) : t.Kept := by
  rcases hstep.cases with ⟨intake, rfl⟩ | ⟨source, ts, hts, rfl⟩
    | ⟨ts, layout, hfrom, hlayout, rfl⟩ | rfl
  · exact ⟨h.tokens, h.current, h.previous⟩
  · exact ⟨⟨source, tokensOf_eq_ok_iff.1 hts⟩, h.current, h.previous⟩
  · -- Slices are of the tokens kept, which some source spells.
    have hlexemes : ∀ u ∈ ts, u.kind.Lexeme (Utf8.bytes u.text) := by
      intro u hu
      rcases hfrom with ⟨source, hts⟩ | hslice
      · exact (tokensOf_eq_ok_iff.1 hts).lexeme_of_mem hu
      · obtain ⟨source, hspelled⟩ := h.tokens
        exact hspelled.lexeme_of_mem (hslice.subset hu)
    have hwritten : layout.WrittenBy ts := Layout.ofTokens_eq_ok_iff.1 hlayout
    exact ⟨h.tokens, hwritten.wellFormed hlexemes, h.current⟩
  · exact h

/-- Whatever steps a session has taken, what it keeps was read. -/
theorem Reachable.kept (h : s.Reachable) : s.Kept := by
  induction h with
  | start => exact kept_start
  | step _ hstep ih => exact ih.step hstep

/-! ## §4. What is kept can be read again. -/

/-- **A session's layout can be read again.**  Whatever steps a session has
taken, the canonical text of its last layout is read as that layout, unless it
is beyond the limit; and the session then finds that nothing has changed. -/
theorem parse_render (h : s.Reachable)
    (hfits : ∀ n ∈ s.intake.limit, (Utf8.bytes s.current.render).length ≤ n) :
    s.parse (Utf8.bytes s.current.render)
        = (.ok s.current, { s with previous := s.current })
      ∧ (s.parse (Utf8.bytes s.current.render)).2.unchanged := by
  have hread : (s.parse (Utf8.bytes s.current.render)).1 = .ok s.current := by
    show (s.intake.read (.ofBytes _)).layout = _
    rw [Intake.layout_read_ofBytes hfits, h.kept.current.ofBytes_render]
  have hsession := parse_of_ok hread
  refine ⟨Prod.ext hread hsession, ?_⟩
  rw [hsession]
  exact decide_eq_true rfl

end ByteLayout.Session
