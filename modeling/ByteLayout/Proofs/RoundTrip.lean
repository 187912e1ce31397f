/-
  ByteLayout.Proofs.RoundTrip
  ───────────────────────────
  **WHICH LAYOUTS ROUND-TRIP.**

  A layout built by hand can hold anything; one that was read holds lexemes
  only, and lists without elements (`Layout.WrittenBy.wellFormed`).  These
  are the layouts that their canonical texts are read back as, so every
  layout that was read once is read again from its canonical text.

  A layout of lexemes whose lists have elements is read back without them
  (`filled_round_trip`).
-/
import ByteLayout.Proofs.Canonical
import Mathlib.Tactic.TFAE

namespace ByteLayout

/-! ## §1. What is read is well-formed. -/

/-- Names, constants and lengths are lexemes, and the list of the term has no
elements. -/
def Term.WellFormed : Term → Prop
  | .literal value => value.Lexical
  | .field name length _ =>
    IsIdentifier (Utf8.bytes name) ∧ ∀ l ∈ length, l.Lexical
  | .list name elements length =>
    IsIdentifier (Utf8.bytes name) ∧ elements = [] ∧ ∀ l ∈ length, l.Lexical

/-- Every term is well-formed. -/
def Layout.WellFormed (layout : Layout) : Prop :=
  ∀ t ∈ layout.terms, t.WellFormed

/-- The texts of a well-formed term are lexemes. -/
theorem Term.WellFormed.lexical {term : Term} (h : term.WellFormed) :
    term.Lexical := by
  cases term with
  | literal value => exact .literal h
  | field name length type => exact .field h.1 h.2
  | list name elements length =>
    obtain ⟨hname, rfl, hlength⟩ := h
    exact .list hname (List.forall_mem_nil _) hlength

theorem Term.WellFormed.strip_eq {term : Term} (h : term.WellFormed) :
    term.strip = term := by
  cases term with
  | literal value => rfl
  | field name length type => rfl
  | list name elements length => rw [strip, h.2.1]

/-- A well-formed layout has no elements to lose. -/
theorem Layout.WellFormed.strip_eq {layout : Layout} (h : layout.WellFormed) :
    layout.strip = layout := by
  rw [strip, List.map_congr_left (fun t ht => (h t ht).strip_eq), List.map_id']

section

variable {ts : List Token} (hts : ∀ t ∈ ts, t.kind.Lexeme (Utf8.bytes t.text))
include hts

theorem lexeme_of_kind {t : Token} (ht : t ∈ ts) {k : Kind} (hk : t.kind = k) :
    k.Lexeme (Utf8.bytes t.text) :=
  hk ▸ hts t ht

/-- A length written by lexemes is one itself, or the rest. -/
theorem Length.lexical_of_writtenBy {length : Option Length}
    (h : Optionally Length.WrittenBy length ts) : ∀ l ∈ length, l.Lexical := by
  intro l hl
  cases hl
  cases h with
  | literal _ ht | field _ ht => exact lexeme_of_kind hts (by simp) ht
  | rest => trivial

/-- Tokens that are lexemes write well-formed terms. -/
theorem Term.WrittenBy.wellFormed {term : Term} (h : term.WrittenBy ts) :
    term.WellFormed := by
  cases h with
  | integer ht | string ht => exact lexeme_of_kind hts (by simp) ht
  | field ht hlength htype =>
    refine ⟨lexeme_of_kind hts List.mem_cons_self ht, ?_⟩
    exact Length.lexical_of_writtenBy (fun t h => hts t (by simp [h])) hlength
  | list ht hopen hbody hclose hlength =>
    refine ⟨lexeme_of_kind hts List.mem_cons_self ht, rfl, ?_⟩
    exact Length.lexical_of_writtenBy (fun t h => hts t (by simp [h])) hlength

/-- So are the terms that they write, by induction on the grammar. -/
theorem TermsWrittenBy.wellFormed {terms : List Term} (h : TermsWrittenBy terms ts) :
    ∀ t ∈ terms, t.WellFormed := by
  induction h with
  | one h => exact List.forall_mem_singleton.2 (h.wellFormed hts)
  | more h hcomma hrest ih =>
    refine List.forall_mem_cons.2 ⟨h.wellFormed (fun t ht => hts t (by simp [ht])), ?_⟩
    exact ih (fun t ht => hts t (by simp [ht]))

theorem Layout.WrittenBy.wellFormed {layout : Layout} (h : layout.WrittenBy ts) :
    layout.WellFormed := by
  cases h with
  | empty => exact List.forall_mem_nil _
  | terms h => exact h.wellFormed hts

end

/-- There is a layout if the first stage comes to its end, and the second does
so with its tokens. -/
theorem Layout.ofTokenized_eq_ok_iff {tokens : Except LexicalError (List Token)}
    {layout : Layout} :
    Layout.ofTokenized tokens = .ok layout ↔
      ∃ ts, tokens = .ok ts ∧ Layout.ofTokens ts = .ok layout := by
  cases tokens with
  | error e => simp [ofTokenized]
  | ok ts => cases h : Layout.ofTokens ts <;> simp [ofTokenized, h, Except.mapError]

/-- A source is read as a layout exactly if it spells tokens that write it. -/
theorem Layout.ofBytes_eq_ok_iff {source : List UInt8} {layout : Layout} :
    Layout.ofBytes source = .ok layout ↔
      ∃ ts, Spelled source ts ∧ layout.WrittenBy ts := by
  simp only [ofBytes, ofTokenized_eq_ok_iff, tokensOf_eq_ok_iff,
    Layout.ofTokens_eq_ok_iff]

/-- A well-formed layout is what its canonical text is read as: there are no
elements to lose. -/
theorem Layout.WellFormed.ofBytes_render {layout : Layout} (h : layout.WellFormed) :
    Layout.ofBytes (Utf8.bytes layout.render) = .ok layout := by
  rw [Layout.ofBytes_render (fun t ht => (h t ht).lexical), h.strip_eq]

/-! ## §2. Round trips. -/

/-- **Canonical texts round-trip exactly.**  A layout is what some source is
read as exactly if it is what its own canonical text is read as, and that is
so exactly if it is well-formed. -/
theorem round_trip (layout : Layout) :
    [∃ source, (Intake.standard.read (.ofBytes source)).layout = .ok layout,
      (Intake.standard.read (.ofBytes (Utf8.bytes layout.render))).layout = .ok layout,
      layout.WellFormed].TFAE := by
  simp only [Intake.layout_read_standard]
  tfae_have 1 → 3 := by
    intro hc
    obtain ⟨source, h⟩ := hc
    -- The tokens of a source are lexemes, and so are the texts they leave.
    obtain ⟨ts, hspelled, hwritten⟩ := Layout.ofBytes_eq_ok_iff.1 h
    exact hwritten.wellFormed (fun t ht => hspelled.lexeme_of_mem ht)
  tfae_have 3 → 2 := Layout.WellFormed.ofBytes_render
  tfae_have 2 → 1 := fun h => ⟨_, h⟩
  tfae_finish

/-! ## §3. Lists with elements. -/

/-- **Only the elements of lists are lost.**  If all names, constants and
lengths of a layout are lexemes, at whatever depth, its canonical text is read
back as the layout without the elements of its lists; so the canonical text of
what was read is that of the layout without them. -/
theorem filled_round_trip (layout : Layout) (h : ∀ t ∈ layout.terms, t.Lexical) :
    (Intake.standard.read (.ofBytes (Utf8.bytes layout.render))).layout
        = .ok layout.strip
      ∧ (Intake.standard.read (.ofBytes (Utf8.bytes layout.render))).layout.map
          Layout.render = .ok layout.strip.render := by
  rw [Intake.layout_read_standard, Layout.ofBytes_render h]
  exact ⟨rfl, rfl⟩

/-- Brackets of a list within a list, and one in a string; an ellipsis, a type
and an integer, each right before what ends it; and a length after all. -/
theorem filled_round_trip_nested :
    (∀ t ∈ [Term.list "a"
          [.list "b" [.field "c" (some .rest) none] (some .rest),
            .field "d" none (some .float), .literal (.string "\x22]\x22"),
            .literal (.integer "0x1F")]
          (some (.field "n")), .literal (.integer "7")], t.Lexical)
      ∧ (Intake.standard.read (.ofBytes (Utf8.bytes
            "a[b[c:...]:..., d/float, \x22]\x22, 0x1F]:n, 7"))).layout
          = .ok ⟨[.list "a" [] (some (.field "n")), .literal (.integer "7")]⟩ := by
  have hlexical : ∀ t ∈ [Term.list "a"
      [.list "b" [.field "c" (some .rest) none] (some .rest),
        .field "d" none (some .float), .literal (.string "\x22]\x22"),
        .literal (.integer "0x1F")]
      (some (.field "n")), .literal (.integer "7")], t.Lexical := by
    decide +kernel
  exact ⟨hlexical, (filled_round_trip ⟨_⟩ hlexical).1⟩

end ByteLayout
