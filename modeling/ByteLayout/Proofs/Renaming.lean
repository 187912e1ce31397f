/-
  ByteLayout.Proofs.Renaming
  ──────────────────────────
  **TEXTS ARE PASSED ON.**

  Of the text of a token the reading of a layout asks one thing: which type an
  identifier after a slash names.  Otherwise it goes by the kinds of tokens,
  and passes their texts on: to constants, names and lengths, and to errors.

  So tokens with new texts come to the same layout with the new texts, or to
  the same error with the new texts (`Layout.ofTokens_rename`), if the keywords
  of types stay what they are and no other text becomes one (`KeepsTypes`).
  New texts can go by the kind of token as well, and only those of identifiers
  have to keep the types.  If they leave nothing but the keywords, tokens of
  the same kinds that name the same types become the same tokens, and hence
  come to the same (`renamed_typesOnly_congr`).

  One lemma says this of a place and a token (`Place.move_rename`), one of a
  builder and a token (`Builder.push_rename`), and an induction on the tokens
  the rest.  The main result is `texts_passed_on`.
-/
import ByteLayout.Proofs.Builder

namespace ByteLayout

/-! ## §1. New texts. -/

section

variable (f : Kind → String → String)

/-- The token with its new text. -/
def Token.rename (t : Token) : Token :=
  ⟨t.kind, f t.kind t.text⟩

/-- The constant with its new text. -/
def Literal.rename : Literal → Literal
  | .integer text => .integer (f .integer text)
  | .string text => .string (f .string text)

/-- The length with its new text, if it has one. -/
def Length.rename : Length → Length
  | .literal text => .literal (f .integer text)
  | .field name => .field (f .identifier name)
  | .rest => .rest

mutual

/-- The term with its new texts, at whatever depth. -/
def Term.rename : Term → Term
  | .literal value => .literal (value.rename f)
  | .field name length type =>
    .field (f .identifier name) (length.map (Length.rename f)) type
  | .list name elements length =>
    .list (f .identifier name) (Term.renameAll elements) (length.map (Length.rename f))

/-- The terms with their new texts. -/
def Term.renameAll : List Term → List Term
  | [] => []
  | t :: ts => Term.rename t :: Term.renameAll ts

end

/-- The layout with its new texts. -/
def Layout.rename (layout : Layout) : Layout :=
  ⟨layout.terms.map (Term.rename f)⟩

/-- The error, about the token with its new text, or with the new text that it
carries. -/
def GrammarError.rename : GrammarError → GrammarError
  | .noTerm found => .noTerm (found.map (Token.rename f))
  | .noComma found => .noComma (found.map (Token.rename f))
  | .commaAtEnd => .commaAtEnd
  | .openList name => .openList (f .identifier name)
  | .noLength found => .noLength (found.map (Token.rename f))
  | .shortEllipsis found => .shortEllipsis (found.map (Token.rename f))
  | .noType found => .noType (found.map (Token.rename f))
  | .unknownType text => .unknownType (f .identifier text)

/-- What tokens come to, with its new texts. -/
def renamed (outcome : Except GrammarError Layout) : Except GrammarError Layout :=
  (outcome.map (Layout.rename f)).mapError (GrammarError.rename f)

/-- The name that a length belongs to, with its new text. -/
def Subject.rename : Subject → Subject
  | .field name => .field (f .identifier name)
  | .list name => .list (f .identifier name)

/-- The place, with the new texts of the tokens that led to it. -/
def Place.rename : Place → Place
  | .opening => .opening
  | .next => .next
  | .named name => .named (f .identifier name)
  | .within name depth => .within (f .identifier name) depth
  | .listed name => .listed (f .identifier name)
  | .colon subject => .colon (subject.rename f)
  | .dot subject => .dot (subject.rename f)
  | .dots subject => .dots (subject.rename f)
  | .measured name length => .measured (f .identifier name) (length.rename f)
  | .slash name length => .slash (f .identifier name) (length.map (Length.rename f))
  | .done term => .done (term.rename f)

/-- The move, with the new texts. -/
def Move.rename : Move → Move
  | .go place => .go (place.rename f)
  | .ended term => .ended (term.rename f)
  | .refuse e => .refuse (e.rename f)

/-- The builder, with the new texts of the tokens that it has taken in; on
record are the terms with their new texts. -/
def Builder.rename (x : Builder) : Builder :=
  ⟨x.complete.map (Term.rename f),
    (x.state.map (Place.rename f)).mapError (GrammarError.rename f),
    (x.complete.map (Term.rename f)).map Term.record⟩

end

/-! ## §2. Types stay. -/

/-- The new text of the keyword of a type is the keyword, and no other text
becomes one. -/
structure KeepsTypes (g : String → String) : Prop where
  keyword (type : FieldType) : g type.keyword = type.keyword
  other (text : String) (h : ∀ type : FieldType, text ≠ type.keyword)
    (type : FieldType) : g text ≠ type.keyword

/-- Only keywords name types. -/
theorem FieldType.ofKeyword?_eq_none_iff {text : String} :
    ofKeyword? text = none ↔ ∀ type : FieldType, text ≠ type.keyword := by
  rw [Option.eq_none_iff_forall_ne_some]
  exact forall_congr' (fun type => not_congr ofKeyword?_eq_some_iff)

/-- The new text names the type that the old one did, or none as well. -/
theorem KeepsTypes.ofKeyword? {g : String → String} (h : KeepsTypes g) (text : String) :
    FieldType.ofKeyword? (g text) = FieldType.ofKeyword? text := by
  cases htype : FieldType.ofKeyword? text with
  | some type =>
    cases FieldType.ofKeyword?_eq_some_iff.1 htype
    rw [h.keyword, FieldType.ofKeyword?_keyword]
  | none =>
    apply FieldType.ofKeyword?_eq_none_iff.2
    exact h.other text (FieldType.ofKeyword?_eq_none_iff.1 htype)

/-! ## §3. One token. -/

section

variable {f : Kind → String → String}

/-- A subject with new texts takes a length with new texts. -/
theorem Subject.at_rename (subject : Subject) (length : Length) :
    (subject.rename f).at (length.rename f) = (subject.at length).rename f := by
  cases subject <;> rfl

/-- A token starts the same term, but for its text. -/
theorem Move.start_rename (t : Token) :
    Move.start (t.rename f) = (Move.start t).rename f := by
  obtain ⟨kind, text⟩ := t
  cases kind <;> rfl

namespace Place

/-- Within brackets only the kind of a token counts. -/
theorem move_within_rename (name : String) (depth : Nat) (t : Token) :
    ((within name depth).rename f).move (t.rename f)
      = ((within name depth).move t).rename f := by
  obtain ⟨kind, text⟩ := t
  cases kind with
  | integer | string | identifier => rfl
  | mark m =>
    -- A closing bracket ends the list at depth zero.
    cases m with
    | closeBracket => cases depth <;> rfl
    | _ => rfl

/-- The text of a length is passed on to what the length belongs to. -/
theorem move_colon_rename (subject : Subject) (t : Token) :
    ((colon subject).rename f).move (t.rename f)
      = ((colon subject).move t).rename f := by
  obtain ⟨kind, text⟩ := t
  cases kind with
  | integer => exact congrArg Move.go (subject.at_rename (.literal text))
  | identifier => exact congrArg Move.go (subject.at_rename (.field text))
  | string => rfl
  | mark m => cases m <;> rfl

/-- After a slash the text of an identifier is looked at, and it names the type
that it did. -/
theorem move_slash_rename (h : KeepsTypes (f .identifier)) (name : String)
    (length : Option Length) (t : Token) :
    ((slash name length).rename f).move (t.rename f)
      = ((slash name length).move t).rename f := by
  obtain ⟨kind, text⟩ := t
  cases kind with
  | identifier =>
    have hsame := h.ofKeyword? text
    simp only [rename, Token.rename, move]
    rw [hsame]
    cases FieldType.ofKeyword? text <;> rfl
  | integer | string | mark m => rfl

/-- With new texts a token makes of a place what it made of it, with the new
texts. -/
theorem move_rename (h : KeepsTypes (f .identifier)) (place : Place) (t : Token) :
    (place.rename f).move (t.rename f) = (place.move t).rename f := by
  cases place with
  | opening | next => exact Move.start_rename t
  | within name depth => exact move_within_rename name depth t
  | colon subject => exact move_colon_rename subject t
  | slash name length => exact move_slash_rename h name length t
  | done term => rfl
  | dots subject =>
    obtain ⟨kind, text⟩ := t
    cases kind with
    | mark m =>
      cases m with
      | dot => exact congrArg Move.go (subject.at_rename .rest)
      | _ => rfl
    | _ => rfl
  | named | listed | dot | measured =>
    -- Here nothing but the mark counts.
    obtain ⟨kind, text⟩ := t
    cases kind with
    | mark m => cases m <;> rfl
    | _ => rfl

/-- At the end of the tokens, too, the texts are passed on. -/
theorem close_rename (place : Place) :
    (place.rename f).close
      = (place.close.map (Option.map (Term.rename f))).mapError (GrammarError.rename f) := by
  cases place <;> rfl

end Place

/-! ## §4. A whole reading. -/

namespace Builder

theorem state_rename_of_ok {x : Builder} {place : Place} (hx : x.state = .ok place) :
    (x.rename f).state = .ok (place.rename f) := by
  rw [rename, hx]
  rfl

theorem state_rename_of_error {x : Builder} {e : GrammarError} (hx : x.state = .error e) :
    (x.rename f).state = .error (e.rename f) := by
  rw [rename, hx]
  rfl

/-- With new texts a token makes of a builder what it made of it, with the new
texts. -/
theorem push_rename (h : KeepsTypes (f .identifier)) (x : Builder) (t : Token) :
    (x.rename f).push (t.rename f) = (x.push t).rename f := by
  cases hx : x.state with
  | error e =>
    rw [push_of_error hx, push_of_error (state_rename_of_error hx)]
  | ok place =>
    have hrenamed : (x.rename f).state = .ok (place.rename f) := state_rename_of_ok hx
    have hmove := place.move_rename h t
    cases hm : place.move t with
    | go mid =>
      rw [hm] at hmove
      rw [push_of_go hx hm, push_of_go hrenamed hmove]
      rfl
    | refuse e =>
      rw [hm] at hmove
      rw [push_of_refuse hx hm, push_of_refuse hrenamed hmove]
      rfl
    | ended term =>
      rw [hm] at hmove
      rw [push_of_ended hx hm, push_of_ended hrenamed hmove]
      -- Whether the token is a comma does not go by its text.
      show Builder.mk _ (if t.kind = .mark .comma then _ else _) _ = _
      by_cases hcomma : t.kind = .mark .comma
      · rw [if_pos hcomma, if_pos hcomma]
        rfl
      · rw [if_neg hcomma, if_neg hcomma]
        rfl

theorem pushAll_rename (h : KeepsTypes (f .identifier)) (x : Builder) (ts : List Token) :
    (x.rename f).pushAll (ts.map (Token.rename f)) = (x.pushAll ts).rename f := by
  induction ts generalizing x with
  | nil => rfl
  | cons t ts ih =>
    rw [List.map_cons, pushAll_cons, pushAll_cons, push_rename h, ih]

theorem close_rename (x : Builder) : (x.rename f).close = x.close.rename f := by
  cases hx : x.state with
  | error e => rw [close_of_error hx, close_of_error (state_rename_of_error hx)]
  | ok place =>
    have hrenamed : (x.rename f).state = .ok (place.rename f) := state_rename_of_ok hx
    have hclose := place.close_rename (f := f)
    cases hc : place.close with
    | error e =>
      rw [hc] at hclose
      rw [close_of_refuse hx hc, close_of_refuse hrenamed hclose]
      rfl
    | ok term =>
      rw [hc] at hclose
      rw [close_of_ok hx hc, close_of_ok hrenamed hclose]
      cases term <;> rfl

/-- What comes of a builder is passed on with the new texts. -/
theorem outcome_rename (x : Builder) : (x.rename f).outcome = renamed f x.outcome := by
  cases hx : x.state with
  | error e =>
    rw [outcome, outcome, state_rename_of_error hx, hx]
    rfl
  | ok place =>
    rw [outcome, outcome, state_rename_of_ok hx, hx]
    show Except.ok (Layout.mk (x.complete.map (Term.rename f)).reverse)
      = Except.ok (Layout.mk (x.complete.reverse.map (Term.rename f)))
    rw [List.map_reverse]

end Builder

/-- With new texts tokens come to what they came to, with the new texts. -/
theorem Layout.ofTokens_rename (h : KeepsTypes (f .identifier)) (ts : List Token) :
    Layout.ofTokens (ts.map (Token.rename f)) = renamed f (Layout.ofTokens ts) := by
  calc Layout.ofTokens (ts.map (Token.rename f))
      = ((Builder.empty.rename f).pushAll (ts.map (Token.rename f))).close.outcome := rfl
    _ = ((Builder.empty.pushAll ts).close.rename f).outcome := by
        rw [Builder.pushAll_rename h, Builder.close_rename]
    _ = renamed f (Layout.ofTokens ts) := Builder.outcome_rename _

end

/-! ## §5. What an outcome depends on. -/

/-- The kind of a token and, if it is an identifier, the type that it names. -/
def Token.outline (t : Token) : Kind × Option FieldType :=
  (t.kind, if t.kind = .identifier then FieldType.ofKeyword? t.text else none)

/-- The keyword that a text is, if it is an identifier's; no text otherwise. -/
def typesOnly (k : Kind) (text : String) : String :=
  if k = .identifier then ((FieldType.ofKeyword? text).map FieldType.keyword).getD ""
  else ""

theorem FieldType.ofKeyword?_empty : ofKeyword? "" = none := by
  decide

/-- The keywords of types stay, and no other text becomes one. -/
theorem keepsTypes_typesOnly : KeepsTypes (typesOnly .identifier) where
  keyword type := by
    simp only [typesOnly]
    rw [if_pos trivial, FieldType.ofKeyword?_keyword]
    rfl
  other text h := by
    apply FieldType.ofKeyword?_eq_none_iff.1
    simp only [typesOnly]
    rw [if_pos trivial, FieldType.ofKeyword?_eq_none_iff.2 h]
    exact FieldType.ofKeyword?_empty

/-- The outline of a token decides what is left of it with types only. -/
theorem Token.rename_typesOnly (t : Token) :
    t.rename typesOnly
      = ⟨t.outline.1, (t.outline.2.map FieldType.keyword).getD ""⟩ := by
  show Token.mk t.kind (if t.kind = .identifier then _ else _)
    = Token.mk t.kind ((Option.map _ (if t.kind = .identifier then _ else _)).getD "")
  by_cases hkind : t.kind = .identifier
  · rw [if_pos hkind, if_pos hkind]
  · rw [if_neg hkind, if_neg hkind]
    rfl

/-- Tokens of the same outlines come to the same, but for texts that are no
keywords of types. -/
theorem renamed_typesOnly_congr {ts us : List Token}
    (h : ts.map Token.outline = us.map Token.outline) :
    renamed typesOnly (Layout.ofTokens ts) = renamed typesOnly (Layout.ofTokens us) := by
  have hleft (vs : List Token) : vs.map (Token.rename typesOnly)
      = (vs.map Token.outline).map
          (fun o => ⟨o.1, (o.2.map FieldType.keyword).getD ""⟩) := by
    rw [List.map_map]
    exact List.map_congr_left (fun t _ => t.rename_typesOnly)
  rw [← Layout.ofTokens_rename keepsTypes_typesOnly,
    ← Layout.ofTokens_rename keepsTypes_typesOnly, hleft, hleft, h]

/-- **Texts are passed on.**  If tokens get new texts, by which the keywords of
types stay and no other text of an identifier becomes one, they come to what
they came to: the same layout with the new texts in it, or the same error with
the new text.  And of any two sequences of tokens of the same kinds, whose
identifiers name the same types where they name any, both make a layout or
neither does, and these or the errors are the same but for texts that are no
keywords. -/
theorem texts_passed_on (f : Kind → String → String) (hf : KeepsTypes (f .identifier))
    (ts : List Token) :
    Layout.ofTokens (ts.map (Token.rename f)) = renamed f (Layout.ofTokens ts)
      ∧ ∀ us, ts.map Token.outline = us.map Token.outline →
        renamed typesOnly (Layout.ofTokens ts) = renamed typesOnly (Layout.ofTokens us) :=
  ⟨Layout.ofTokens_rename hf ts, fun _ hus => renamed_typesOnly_congr hus⟩

/-- With nothing left but keywords: what makes a layout still makes one, and an
error has lost the text that it carried.  And two sequences of tokens that name
no types come to the same, but for their texts. -/
theorem texts_passed_on_to_layouts_and_errors :
    KeepsTypes (typesOnly .identifier)
      ∧ Layout.ofTokens [⟨.identifier, ""⟩, ⟨.mark .colon, ""⟩, ⟨.identifier, ""⟩,
          ⟨.mark .slash, ""⟩, ⟨.identifier, "float"⟩]
        = .ok ⟨[.field "" (some (.field "")) (some .float)]⟩
      ∧ Layout.ofTokens [⟨.identifier, ""⟩, ⟨.mark .slash, ""⟩, ⟨.identifier, ""⟩]
        = .error (.unknownType "")
      ∧ renamed typesOnly
          (Layout.ofTokens [⟨.identifier, "a"⟩, ⟨.mark .colon, ":"⟩, ⟨.integer, "1"⟩])
        = renamed typesOnly
          (Layout.ofTokens [⟨.identifier, "b"⟩, ⟨.mark .colon, ":"⟩, ⟨.integer, "2"⟩]) := by
  have hf : KeepsTypes (typesOnly .identifier) := keepsTypes_typesOnly
  refine ⟨hf, ?_, ?_, ?_⟩
  · exact (texts_passed_on typesOnly hf [⟨.identifier, "a"⟩, ⟨.mark .colon, ":"⟩,
      ⟨.identifier, "n"⟩, ⟨.mark .slash, "/"⟩, ⟨.identifier, "float"⟩]).1
  · exact (texts_passed_on typesOnly hf [⟨.identifier, "a"⟩, ⟨.mark .slash, "/"⟩,
      ⟨.identifier, "flaot"⟩]).1
  · exact (texts_passed_on typesOnly hf _).2 _ rfl

end ByteLayout
