/-
  ByteLayout.Proofs.Composition
  ─────────────────────────────
  **PARTS OF A LAYOUT.**

  Two marks keep what comes after them apart from what is before.

      `[`   Tokens whose brackets pair up can be left out right after an
            opening bracket, wherever it stands (`Place.read_bracket_append`):
            either they are passed over, or the bracket itself is at fault.
            So it makes no difference which ones stand there
            (`bodies_opaque`).
      `,`   After a layout and a comma, tokens are read as they would be
            alone, except that there have to be some (`Layout.afterComma`).
            The same holds of sources, for a comma also splits the bytes that
            tokens are read from (`comma_composes`).
-/
import ByteLayout.Proofs.RoundTrip
import ByteLayout.Proofs.Splitting

namespace ByteLayout

/-! ## §1. What stands after an opening bracket. -/

/-- Brackets that pair up do so at whatever depth. -/
theorem Balanced.nested_at {ts : List Token} (h : Balanced ts) (depth : Nat) :
    Nested depth depth ts := by
  obtain ⟨hpre, htotal⟩ := h
  refine ⟨fun pre hprefix => ?_, by rw [htotal]⟩
  have hle := hpre pre hprefix
  omega

namespace Place

variable {bracket : Token} {body us us' : List Token}

/-- An opening bracket leads within brackets, unless it is at fault. -/
theorem move_of_openBracket (place : Place) (h : bracket.kind = .mark .openBracket) :
    (∃ name depth, place.move bracket = .go (.within name depth))
      ∨ (∃ term, place.move bracket = .ended term)
      ∨ ∃ e, place.move bracket = .refuse e := by
  cases place <;> simp [move, Move.start, h]

/-- Whether it opens a list, stands in the body of one or is at fault, after
an opening bracket nothing is lost with tokens whose brackets pair up. -/
theorem read_bracket_append (place : Place) (h : bracket.kind = .mark .openBracket)
    (hbody : Balanced body) (ts : List Token) :
    place.read (bracket :: (body ++ ts)) = place.read (bracket :: ts) := by
  rcases place.move_of_openBracket h with ⟨name, depth, hgo⟩ | ⟨term, hended⟩ | ⟨e, hrefuse⟩
  · rw [read_of_go hgo, read_of_go hgo]
    exact read_append_of_run? (run?_of_nested (hbody.nested_at depth)) ts
  · have hcomma : bracket.kind ≠ .mark .comma := by
      rw [h]
      decide
    rw [read, read, hended]
    dsimp only
    rw [if_neg hcomma, if_neg hcomma]
  · rw [read, read, hrefuse]

/-- What is read alike from every place is read alike after any tokens. -/
theorem read_append_congr (h : ∀ q : Place, q.read us = q.read us') (place : Place)
    (ts : List Token) : place.read (ts ++ us) = place.read (ts ++ us') := by
  induction ts generalizing place with
  | nil => exact h place
  | cons t ts ih =>
    rw [List.cons_append, List.cons_append, read, read]
    cases place.move t with
    | go mid => exact ih mid
    | refuse e => rfl
    -- The token ends a term, and a term starts anew after it.
    | ended term =>
      dsimp only
      rw [ih .next]

end Place

/-- What stands between the brackets of a list makes no difference, wherever the
list is and whatever comes after it. -/
theorem Layout.ofTokens_bracket_append {bracket : Token} {body : List Token}
    (h : bracket.kind = .mark .openBracket) (hbody : Balanced body)
    (front rest : List Token) :
    Layout.ofTokens (front ++ bracket :: (body ++ rest))
      = Layout.ofTokens (front ++ bracket :: rest) := by
  rw [ofTokens_eq_read, ofTokens_eq_read]
  congr 1
  exact Place.read_append_congr (fun q => q.read_bracket_append h hbody rest) _ front

/-- **What brackets enclose does not show.**  After whatever tokens an opening
bracket stands, and whatever comes after the token that closes it, the outcome
is the same for any two bodies whose own brackets pair up: the same layout or
the same error. -/
theorem bodies_opaque (front rest body body' : List Token) (bracket close : Token)
    (hopen : bracket.kind = .mark .openBracket) (hbody : Balanced body)
    (hbody' : Balanced body') :
    Layout.ofTokens (front ++ bracket :: (body ++ close :: rest))
      = Layout.ofTokens (front ++ bracket :: (body' ++ close :: rest)) := by
  rw [Layout.ofTokens_bracket_append hopen hbody,
    Layout.ofTokens_bracket_append hopen hbody']

/-- A bracket within the body of a list, and one where a term has to start. -/
theorem bodies_opaque_within_and_at_fault :
    Balanced []
      ∧ Balanced [Mark.openBracket.token, Mark.comma.token, Mark.closeBracket.token]
      ∧ Layout.ofTokens [⟨.identifier, "a"⟩, Mark.openBracket.token,
          Mark.openBracket.token, Mark.openBracket.token, Mark.comma.token,
          Mark.closeBracket.token, Mark.closeBracket.token, Mark.closeBracket.token,
          Mark.slash.token] = .error (.noComma (some Mark.slash.token))
      ∧ Layout.ofTokens [Mark.openBracket.token, Mark.openBracket.token,
          Mark.comma.token, Mark.closeBracket.token, Mark.closeBracket.token]
        = .error (.noTerm (some Mark.openBracket.token)) := by
  have hnil : Nested 0 0 [] := nested_nil_iff.2 rfl
  have hbody : Nested 0 0 [Mark.openBracket.token, Mark.comma.token,
      Mark.closeBracket.token] := by
    have hopen : opened [Mark.openBracket.token] + 0
        = closed [Mark.openBracket.token] + 1 := rfl
    have hcomma : opened [Mark.comma.token] + 1
        = closed [Mark.comma.token] + 1 := rfl
    have hclose : opened [Mark.closeBracket.token] + 1
        = closed [Mark.closeBracket.token] + 0 := rfl
    exact ((hnil.cons hclose).cons hcomma).cons hopen
  refine ⟨hnil, hbody, ?_, ?_⟩
  · exact bodies_opaque [⟨.identifier, "a"⟩, Mark.openBracket.token]
      [Mark.closeBracket.token, Mark.slash.token] _ [] Mark.openBracket.token
      Mark.closeBracket.token rfl hbody hnil
  · exact bodies_opaque [] [] _ [] Mark.openBracket.token Mark.closeBracket.token rfl
      hbody hnil

/-! ## §2. A comma after a layout. -/

/-- The terms of two layouts in a row. -/
def Layout.append (layout other : Layout) : Layout :=
  ⟨layout.terms ++ other.terms⟩

/-- What tokens come to after a layout and a comma: there have to be some, and
their terms come after those of the layout. -/
def Layout.afterComma (layout : Layout) : List Token → Except GrammarError Layout
  | [] => .error .commaAtEnd
  | t :: ts => (Layout.ofTokens (t :: ts)).map layout.append

/-- Terms that are written go on with those after a comma. -/
theorem TermsWrittenBy.read_append_comma {terms : List Term} {ts : List Token}
    (h : TermsWrittenBy terms ts) {comma : Token} (hcomma : comma.kind = .mark .comma)
    (us : List Token) :
    Place.next.read (ts ++ comma :: us)
      = (Place.next.read us).map (terms ++ ·) := by
  induction h with
  -- The comma is the one after the last term.
  | one hterm =>
    obtain ⟨q, hrun, hclose⟩ := hterm.exists_run?
    rw [Place.read_append_of_run? hrun,
      Place.read_of_comma (Place.move_of_close hclose hcomma) hcomma]
    rfl
  | more hterm hfirst _ ih =>
    obtain ⟨q, hrun, hclose⟩ := hterm.exists_run?
    rw [List.append_assoc, Place.read_append_of_run? hrun, List.cons_append,
      Place.read_of_comma (Place.move_of_close hclose hfirst) hfirst, ih]
    cases Place.next.read us <;> rfl

theorem TermsWrittenBy.ne_nil {terms : List Term} {ts : List Token}
    (h : TermsWrittenBy terms ts) : terms ≠ [] := by
  cases h with
  | one | more => exact List.cons_ne_nil _ _

/-- Only no tokens write a layout without terms. -/
theorem Layout.WrittenBy.terms_of_ne_nil {layout : Layout} {ts : List Token}
    (h : layout.WrittenBy ts) (hts : ts ≠ []) : TermsWrittenBy layout.terms ts := by
  cases h with
  | empty => exact absurd rfl hts
  | terms h => exact h

/-- After the tokens of a layout and a comma, others are read as they would be
alone, and their terms are added. -/
theorem Layout.ofTokens_append_comma {layout : Layout} {ts : List Token}
    {comma : Token} (h : Layout.ofTokens ts = .ok layout) (hts : ts ≠ [])
    (hcomma : comma.kind = .mark .comma) (us : List Token) :
    Layout.ofTokens (ts ++ comma :: us) = layout.afterComma us := by
  have hterms := (ofTokens_eq_ok_iff.1 h).terms_of_ne_nil hts
  -- The first token moves on from the opening as it does after a comma.
  have hopening {vs : List Token} (hvs : vs ≠ []) :
      Layout.ofTokens vs = (Place.next.read vs).map Layout.mk := by
    rw [ofTokens_eq_read]
    obtain ⟨v, vs, rfl⟩ := List.exists_cons_of_ne_nil hvs
    rfl
  rw [hopening (List.append_ne_nil_of_left_ne_nil hts _),
    hterms.read_append_comma hcomma]
  cases us with
  | nil => rfl
  | cons u us =>
    rw [afterComma, hopening (List.cons_ne_nil u us)]
    cases Place.next.read (u :: us) <;> rfl

/-! ## §3. The text of two layouts. -/

/-- Terms are written with a comma and a space between them. -/
theorem Term.renderAll_eq_intercalate (terms : List Term) :
    Term.renderAll terms = ", ".intercalate (terms.map Term.render) := by
  induction terms with
  | nil => rfl
  | cons t ts ih =>
    cases ts with
    | nil => rw [renderAll, List.map_singleton, String.intercalate_singleton]
    | cons u ts =>
      rw [renderAll, ih]
      exact String.intercalate_cons_cons.symm

/-- So the text of two layouts is that of the first, a comma, a space and that
of the other. -/
theorem Layout.render_append {layout other : Layout} (h : layout.terms ≠ [])
    (h' : other.terms ≠ []) :
    (layout.append other).render = layout.render ++ ", " ++ other.render := by
  simp only [render, append, Term.renderAll_eq_intercalate, List.map_append]
  exact String.intercalate_append_of_ne_nil (by simpa using h) (by simpa using h')

/-! ## §4. A comma in a source. -/

/-- A source splits at a comma after whole tokens. -/
theorem tokensOf_comma {front : List UInt8} {ts : List Token}
    (h : tokensOf front = .ok ts) (rest : List UInt8) :
    tokensOf (front ++ Mark.comma.byte :: rest)
      = ((tokensOf rest).map (ts ++ Mark.comma.token :: ·)).mapError
          (LexicalError.shift (front.length + 1)) := by
  have hfront : Splits front ts (Mark.comma.byte :: rest) :=
    splits_of_tokensOf h (.inr (.inl rfl)) rest
  have hcomma : Splits [Mark.comma.byte] [Mark.comma.token] rest :=
    splits_lexeme (t := Mark.comma.token) rfl trivial
  have hboth := (hfront.append hcomma).tokensOf_append
  rw [← List.append_cons, List.length_append] at hboth
  simp only [← List.append_cons] at hboth
  exact hboth

/-- A layout with terms is written by tokens. -/
theorem Layout.ne_nil_of_ofTokens {layout : Layout} {ts : List Token}
    (h : Layout.ofTokens ts = .ok layout) (hne : layout.terms ≠ []) : ts ≠ [] := by
  intro hnil
  subst hnil
  cases h
  exact hne rfl

/-- **A comma composes.**  After a source that is read as a layout with terms
and a comma, another source is read as it would be alone: an error in its
tokens is the same, with offsets from the start of the whole, and its tokens
come to what they come to after the layout and a comma.  So it is for tokens,
whatever their texts; and the text of two layouts with terms is that of both,
with a comma and a space between them. -/
theorem comma_composes (layout : Layout) :
    (∀ front rest : List UInt8,
        (Intake.standard.read (.ofBytes front)).layout = .ok layout →
        layout.terms ≠ [] →
        (Intake.standard.read (.ofBytes (front ++ Mark.comma.byte :: rest))).layout
          = match (Intake.standard.read (.ofBytes rest)).outcome with
            | .error e => .error (.lexical (e.shift (front.length + 1)))
            | .ok us => (layout.afterComma us).mapError .grammar)
      ∧ (∀ (ts us : List Token) (comma : Token), Layout.ofTokens ts = .ok layout →
        ts ≠ [] → comma.kind = .mark .comma →
        Layout.ofTokens (ts ++ comma :: us) = layout.afterComma us)
      ∧ ∀ (us : List Token) (other : Layout), layout.terms ≠ [] → us ≠ [] →
        Layout.ofTokens us = .ok other →
        (layout.append other).render = layout.render ++ ", " ++ other.render := by
  refine ⟨fun front rest hfront hne => ?_, fun ts us comma h hts hcomma => ?_,
    fun us other hne hus h => ?_⟩
  · rw [Intake.layout_read_standard] at hfront ⊢
    rw [Intake.outcome_read_standard]
    obtain ⟨ts, hspelled, hwritten⟩ := Layout.ofBytes_eq_ok_iff.1 hfront
    have hts := Layout.ofTokens_eq_ok_iff.2 hwritten
    have hcomma : Mark.comma.token.kind = .mark .comma := rfl
    have hall := Layout.ofTokens_append_comma hts (Layout.ne_nil_of_ofTokens hts hne)
      hcomma
    rw [Layout.ofBytes, tokensOf_comma (tokensOf_eq_ok_iff.2 hspelled)]
    cases tokensOf rest with
    | error e => rfl
    | ok us => exact congrArg (Except.mapError Rejection.grammar) (hall us)
  · exact Layout.ofTokens_append_comma h hts hcomma us
  · have hother := (Layout.ofTokens_eq_ok_iff.1 h).terms_of_ne_nil hus
    exact Layout.render_append hne hother.ne_nil

/-- After a string that has just closed: another term, a base without digits, a
blank, and a token too many. -/
theorem comma_composes_after_string :
    (Intake.standard.read (.ofBytes (Utf8.bytes "\x22s\x22"))).layout
        = .ok ⟨[.literal (.string "\x22s\x22")]⟩
      ∧ (Intake.standard.read (.ofBytes
          (Utf8.bytes "\x22s\x22" ++ Mark.comma.byte :: Utf8.bytes "b:2"))).layout
        = .ok ⟨[.literal (.string "\x22s\x22"), .field "b" (some (.literal "2")) none]⟩
      ∧ (Intake.standard.read (.ofBytes
          (Utf8.bytes "\x22s\x22" ++ Mark.comma.byte :: Utf8.bytes "b:0x"))).layout
        = .error (.lexical (.noDigits "0x" 6))
      ∧ (Intake.standard.read (.ofBytes
          (Utf8.bytes "\x22s\x22" ++ Mark.comma.byte :: Utf8.bytes "\n"))).layout
        = .error (.grammar .commaAtEnd)
      ∧ Layout.ofTokens ([⟨.string, "s"⟩] ++ Mark.comma.token ::
          [⟨.identifier, "b"⟩, ⟨.integer, "2"⟩])
        = .error (.noComma (some ⟨.integer, "2"⟩))
      ∧ (Layout.append ⟨[.literal (.string "s")]⟩ ⟨[.field "b" none none]⟩).render
        = "s" ++ ", " ++ "b" := by
  have hfront : (Intake.standard.read (.ofBytes (Utf8.bytes "\x22s\x22"))).layout
      = .ok ⟨[.literal (.string "\x22s\x22")]⟩ := by decide +kernel
  have hterms : [Term.literal (.string "\x22s\x22")] ≠ [] := List.cons_ne_nil _ _
  have hread := (comma_composes ⟨[.literal (.string "\x22s\x22")]⟩).1
    (Utf8.bytes "\x22s\x22")
  refine ⟨hfront, ?_, ?_, ?_, ?_, ?_⟩
  · rw [hread _ hfront hterms]
    decide +kernel
  · rw [hread _ hfront hterms]
    decide +kernel
  · rw [hread _ hfront hterms]
    decide +kernel
  · exact (comma_composes ⟨[.literal (.string "s")]⟩).2.1 [⟨.string, "s"⟩] _ _ rfl
      (List.cons_ne_nil _ _) rfl
  · exact (comma_composes ⟨[.literal (.string "s")]⟩).2.2 [⟨.identifier, "b"⟩] _
      (List.cons_ne_nil _ _) (List.cons_ne_nil _ _) rfl

end ByteLayout
