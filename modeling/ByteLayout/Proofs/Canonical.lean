/-
  ByteLayout.Proofs.Canonical
  ───────────────────────────
  **CANONICAL TEXTS ARE READ BACK.**

  The canonical text of a layout is that of its tokens (`Layout.tokens`): if
  its names, constants and lengths are lexemes, at whatever depth, the text
  spells the tokens (`Term.spelled_append`), for wherever one token meets the
  next the first may end.  And the tokens of any layout write it without the
  elements of its lists (`Layout.strip_writtenBy_tokens`), for those are
  passed over, and their brackets pair up.

  So the text is read back as the layout without those elements
  (`Layout.ofBytes_render`).
-/
import ByteLayout.Proofs.Builder
import ByteLayout.Proofs.Spelling

namespace ByteLayout

/-! ## §1. The tokens of a layout. -/

/-- The token of a mark. -/
def Mark.token (m : Mark) : Token :=
  ⟨.mark m, m.char.toString⟩

/-- The token of a constant. -/
def Literal.token : Literal → Token
  | .integer text => ⟨.integer, text⟩
  | .string text => ⟨.string, text⟩

/-- The tokens of a length, after its colon. -/
def Length.tokens : Length → List Token
  | .literal text => [⟨.integer, text⟩]
  | .field name => [⟨.identifier, name⟩]
  | .rest => [Mark.dot.token, Mark.dot.token, Mark.dot.token]

/-- The length's part of a term's tokens. -/
def Length.suffixTokens : Option Length → List Token
  | none => []
  | some length => Mark.colon.token :: length.tokens

/-- The type's part of a term's tokens. -/
def FieldType.suffixTokens : Option FieldType → List Token
  | none => []
  | some type => [Mark.slash.token, ⟨.identifier, type.keyword⟩]

mutual

/-- The tokens of a term. -/
def Term.tokens : Term → List Token
  | .literal value => [value.token]
  | .field name length type =>
    ⟨.identifier, name⟩ :: (Length.suffixTokens length ++ FieldType.suffixTokens type)
  | .list name elements length =>
    ⟨.identifier, name⟩ :: Mark.openBracket.token ::
      (Term.tokensAll elements
        ++ Mark.closeBracket.token :: Length.suffixTokens length)

/-- The tokens of terms in a row. -/
def Term.tokensAll : List Term → List Token
  | [] => []
  | [t] => t.tokens
  | t :: u :: ts => t.tokens ++ Mark.comma.token :: Term.tokensAll (u :: ts)

end

/-- The tokens of a layout. -/
def Layout.tokens (layout : Layout) : List Token :=
  Term.tokensAll layout.terms

/-! ## §2. The text spells the tokens. -/

/-- The text of a constant is a lexeme. -/
def Literal.Lexical : Literal → Prop
  | .integer text => IsInteger (Utf8.bytes text)
  | .string text => IsString (Utf8.bytes text)

/-- The text of a length is a lexeme, or there is none. -/
def Length.Lexical : Length → Prop
  | .literal text => IsInteger (Utf8.bytes text)
  | .field name => IsIdentifier (Utf8.bytes name)
  | .rest => True

/-- All names, constants and lengths are lexemes, at whatever depth. -/
inductive Term.Lexical : Term → Prop
  | literal {value : Literal} (h : value.Lexical) : Lexical (.literal value)
  | field {name : String} {length : Option Length} {type : Option FieldType}
    (hname : IsIdentifier (Utf8.bytes name)) (hlength : ∀ l ∈ length, l.Lexical) :
    Lexical (.field name length type)
  | list {name : String} {elements : List Term} {length : Option Length}
    (hname : IsIdentifier (Utf8.bytes name))
    (helements : ∀ e ∈ elements, e.Lexical)
    (hlength : ∀ l ∈ length, l.Lexical) : Lexical (.list name elements length)

instance : DecidablePred Literal.Lexical
  | .integer text => inferInstanceAs (Decidable (IsInteger (Utf8.bytes text)))
  | .string text => inferInstanceAs (Decidable (IsString (Utf8.bytes text)))

instance : DecidablePred Length.Lexical
  | .literal text => inferInstanceAs (Decidable (IsInteger (Utf8.bytes text)))
  | .field name => inferInstanceAs (Decidable (IsIdentifier (Utf8.bytes name)))
  | .rest => isTrue trivial

mutual

/-- Decides whether a term holds lexemes only. -/
def Term.decLexical : (t : Term) → Decidable t.Lexical
  | .literal value =>
    decidable_of_iff value.Lexical ⟨.literal, fun h => by cases h; assumption⟩
  | .field name length _ =>
    decidable_of_iff (IsIdentifier (Utf8.bytes name) ∧ ∀ l ∈ length, l.Lexical)
      ⟨fun h => .field h.1 h.2, fun h => by cases h; exact ⟨‹_›, ‹_›⟩⟩
  | .list name elements length =>
    haveI := Term.decLexicalAll elements
    decidable_of_iff
      (IsIdentifier (Utf8.bytes name) ∧ (∀ e ∈ elements, e.Lexical)
        ∧ ∀ l ∈ length, l.Lexical)
      ⟨fun h => .list h.1 h.2.1 h.2.2, fun h => by cases h; exact ⟨‹_›, ‹_›, ‹_›⟩⟩

/-- Decides whether all of some terms hold lexemes only. -/
def Term.decLexicalAll : (ts : List Term) → Decidable (∀ t ∈ ts, t.Lexical)
  | [] => isTrue (List.forall_mem_nil _)
  | t :: ts =>
    haveI := Term.decLexical t
    haveI := Term.decLexicalAll ts
    decidable_of_iff (t.Lexical ∧ ∀ u ∈ ts, u.Lexical) List.forall_mem_cons.symm

end

instance : DecidablePred Term.Lexical := Term.decLexical

/-- No mark goes on with a name. -/
theorem Kind.identifier_endsBefore_mark (m : Mark) (bs : List UInt8) :
    Kind.identifier.EndsBefore (m.byte :: bs).head? := by
  show ¬ (ByteClass.isLetter m.byte ∨ ByteClass.isDigit m.byte)
  cases m <;> decide

/-- The marks that can follow a length end an integer. -/
theorem Kind.integer_endsBefore_mark {m : Mark}
    (hm : m = .comma ∨ m = .slash ∨ m = .closeBracket) (bs : List UInt8) :
    Kind.integer.EndsBefore (m.byte :: bs).head? := by
  rcases hm with rfl | rfl | rfl
  · exact .inr (.inl rfl)
  · exact .inr (.inr (.inl rfl))
  · exact .inr (.inr (.inr rfl))

namespace Spelled

variable {bs : List UInt8} {ts : List Token}

/-- A lexeme may stand right before a text that it does not go on with. -/
theorem cons {t : Token} (hlexeme : t.kind.Lexeme (Utf8.bytes t.text))
    (hends : t.kind.EndsBefore bs.head?) (h : Spelled bs ts) :
    Spelled (Utf8.bytes t.text ++ bs) (t :: ts) :=
  .token (List.forall_mem_nil _) hlexeme hends h

/-- A mark may stand before anything. -/
theorem mark (m : Mark) (h : Spelled bs ts) :
    Spelled (m.byte :: bs) (m.token :: ts) := by
  have hbytes : Utf8.bytes m.token.text = [m.byte] := by
    cases m <;> rfl
  have hm := h.cons (t := m.token) hbytes trivial
  rwa [hbytes] at hm

/-- The text of a length spells its tokens, before what ends an integer. -/
theorem length_append {length : Length} (hlength : length.Lexical)
    (hends : Kind.integer.EndsBefore bs.head?) (h : Spelled bs ts) :
    Spelled (Utf8.bytes length.text ++ bs) (length.tokens ++ ts) := by
  cases length with
  | literal text => exact h.cons (t := ⟨.integer, text⟩) hlength hends
  | field name =>
    exact h.cons (t := ⟨.identifier, name⟩) hlength (Kind.endsBefore_of_integer hends _)
  | rest => exact ((h.mark .dot).mark .dot).mark .dot

/-- A length ends where an integer may, and what is before it may end there
too. -/
theorem lengthSuffix_append {length : Option Length}
    (hlength : ∀ l ∈ length, l.Lexical)
    (hends : Kind.integer.EndsBefore bs.head?) (h : Spelled bs ts) :
    Spelled (Utf8.bytes (Length.suffix length) ++ bs)
        (Length.suffixTokens length ++ ts)
      ∧ Kind.identifier.EndsBefore (Utf8.bytes (Length.suffix length) ++ bs).head? := by
  cases length with
  | none => exact ⟨h, Kind.endsBefore_of_integer hends _⟩
  | some length =>
    rw [Length.suffix, Utf8.bytes_append, List.append_assoc]
    exact ⟨(h.length_append (hlength length rfl) hends).mark .colon,
      Kind.identifier_endsBefore_mark .colon _⟩

/-- So does that of a type, with its slash; and what is before it may end
there. -/
theorem typeSuffix_append (type : Option FieldType)
    (hends : Kind.integer.EndsBefore bs.head?) (h : Spelled bs ts) :
    Spelled (Utf8.bytes (FieldType.suffix type) ++ bs)
        (FieldType.suffixTokens type ++ ts)
      ∧ Kind.integer.EndsBefore (Utf8.bytes (FieldType.suffix type) ++ bs).head? := by
  cases type with
  | none => exact ⟨h, hends⟩
  | some type =>
    have hkeyword : IsIdentifier (Utf8.bytes type.keyword) := by
      cases type <;> exact ⟨_, _, rfl, by decide +kernel, by decide +kernel⟩
    rw [FieldType.suffix, Utf8.bytes_append, List.append_assoc]
    exact ⟨(h.cons (t := ⟨.identifier, type.keyword⟩) hkeyword
      (Kind.endsBefore_of_integer hends _)).mark .slash,
      Kind.integer_endsBefore_mark (.inr (.inl rfl)) _⟩

/-- And so does a name, before what ends it. -/
theorem name_append {name : String} (hname : IsIdentifier (Utf8.bytes name))
    (hends : Kind.identifier.EndsBefore bs.head?) (h : Spelled bs ts) :
    Spelled (Utf8.bytes name ++ bs) (⟨.identifier, name⟩ :: ts) :=
  h.cons (t := ⟨.identifier, name⟩) hname hends

/-- A comma and a space between terms. -/
theorem separator_append (h : Spelled bs ts) :
    Spelled (Utf8.bytes ", " ++ bs) (Mark.comma.token :: ts) := by
  have hblank : ∀ b ∈ Utf8.bytes " ", ByteClass.isBlank b := by decide +kernel
  exact (h.blank_append hblank).mark .comma

end Spelled

mutual

/-- The text of a term spells its tokens, where an integer may end. -/
theorem Term.spelled_append {bs : List UInt8} {us : List Token}
    (hends : Kind.integer.EndsBefore bs.head?) (hrest : Spelled bs us) :
    (term : Term) → term.Lexical →
      Spelled (Utf8.bytes term.render ++ bs) (term.tokens ++ us)
  | .literal value, .literal h => by
    cases value with
    | integer text => exact hrest.cons (t := ⟨.integer, text⟩) h hends
    | string text => exact hrest.cons (t := ⟨.string, text⟩) h trivial
  | .field name length type, .field hname hlength => by
    -- From the back: each part is spelled in front of those after it.
    obtain ⟨htype, hends⟩ := hrest.typeSuffix_append type hends
    obtain ⟨hspelled, hends⟩ := htype.lengthSuffix_append hlength hends
    have hfield := hspelled.name_append hname hends
    rw [render, tokens]
    simp only [Utf8.bytes_append, List.append_assoc, List.cons_append]
    exact hfield
  | .list name elements length, .list hname helements hlength => by
    obtain ⟨hspelled, -⟩ := hrest.lengthSuffix_append hlength hends
    -- The last element ends before the closing bracket.
    have hbody := Term.spelledAll_append
      (Kind.integer_endsBefore_mark (.inr (.inr rfl)) _)
      (hspelled.mark .closeBracket) elements helements
    have hlist := (hbody.mark .openBracket).name_append hname
      (Kind.identifier_endsBefore_mark .openBracket _)
    rw [render, tokens]
    simp only [Utf8.bytes_append, List.append_assoc, List.cons_append]
    exact hlist

/-- The terms of a list spell their tokens, with a comma after each but the
last. -/
theorem Term.spelledAll_append {bs : List UInt8} {us : List Token}
    (hends : Kind.integer.EndsBefore bs.head?) (hrest : Spelled bs us) :
    (terms : List Term) → (∀ t ∈ terms, t.Lexical) →
      Spelled (Utf8.bytes (Term.renderAll terms) ++ bs) (Term.tokensAll terms ++ us)
  | [], _ => hrest
  | [t], h => Term.spelled_append hends hrest t (h t List.mem_cons_self)
  | t :: u :: ts, h => by
    have hothers := Term.spelledAll_append hends hrest (u :: ts)
      (fun v hv => h v (List.mem_cons_of_mem t hv))
    -- The first term ends before the comma.
    have hterm := Term.spelled_append
      (Kind.integer_endsBefore_mark (.inl rfl) _) hothers.separator_append t
      (h t List.mem_cons_self)
    rw [renderAll, tokensAll]
    simp only [Utf8.bytes_append, List.append_assoc, List.cons_append]
    exact hterm

end

/-- The text of a layout of lexemes spells its tokens. -/
theorem Layout.spelled_render {layout : Layout}
    (h : ∀ t ∈ layout.terms, t.Lexical) :
    Spelled (Utf8.bytes layout.render) layout.tokens := by
  have hends : Kind.integer.EndsBefore ([] : List UInt8).head? := trivial
  have hspelled := Term.spelledAll_append hends (.gap (List.forall_mem_nil _))
    layout.terms h
  rwa [List.append_nil, List.append_nil] at hspelled

/-! ## §3. The tokens write the layout. -/

/-- Lengths and types have no brackets. -/
theorem nested_lengthSuffix (depth : Nat) (length : Option Length) :
    Nested depth depth (Length.suffixTokens length) := by
  apply nested_of_forall
  rcases length with _ | length
  · exact List.forall_mem_nil _
  · cases length <;>
      simp [Length.suffixTokens, Length.tokens, Mark.token, opened, closed]

theorem nested_typeSuffix (depth : Nat) (type : Option FieldType) :
    Nested depth depth (FieldType.suffixTokens type) := by
  apply nested_of_forall
  cases type <;> simp [FieldType.suffixTokens, Mark.token, opened, closed]

mutual

/-- The brackets of a term's tokens pair up, at whatever depth. -/
theorem Term.nested_tokens (depth : Nat) :
    (term : Term) → Nested depth depth term.tokens
  | .literal value => by
    rw [tokens]
    apply nested_of_forall
    cases value <;> simp [Literal.token, opened, closed]
  | .field name length type => by
    rw [tokens]
    refine Nested.cons rfl ?_
    exact (nested_lengthSuffix depth length).append (nested_typeSuffix depth type)
  | .list name elements length => by
    have hopen : opened [Mark.openBracket.token] + depth
        = closed [Mark.openBracket.token] + (depth + 1) := by
      simp [opened, closed, Mark.token, Nat.add_comm]
    have hclose : opened [Mark.closeBracket.token] + (depth + 1)
        = closed [Mark.closeBracket.token] + depth := by
      simp [opened, closed, Mark.token, Nat.add_comm]
    -- One deeper for the elements, and back.
    rw [tokens]
    refine Nested.cons rfl (Nested.cons hopen ?_)
    refine (Term.nested_tokensAll (depth + 1) elements).append ?_
    exact Nested.cons hclose (nested_lengthSuffix depth length)

theorem Term.nested_tokensAll (depth : Nat) :
    (terms : List Term) → Nested depth depth (Term.tokensAll terms)
  | [] => nested_nil_iff.2 rfl
  | [t] => Term.nested_tokens depth t
  | t :: u :: ts => by
    rw [tokensAll]
    refine (Term.nested_tokens depth t).append ?_
    exact Nested.cons rfl (Term.nested_tokensAll depth (u :: ts))

end

/-- A term without the elements of its list. -/
def Term.strip : Term → Term
  | .list name _ length => .list name [] length
  | .literal value => .literal value
  | .field name length type => .field name length type

/-- A layout without the elements of its lists. -/
def Layout.strip (layout : Layout) : Layout :=
  ⟨layout.terms.map Term.strip⟩

/-- The tokens that a length has in the canonical text write it. -/
theorem lengthSuffix_writtenBy (length : Option Length) :
    Optionally Length.WrittenBy length (Length.suffixTokens length) := by
  cases length with
  | none => rfl
  | some length =>
    cases length with
    | literal text => exact .literal (t := ⟨.integer, text⟩) rfl rfl
    | field name => exact .field (t := ⟨.identifier, name⟩) rfl rfl
    | rest => exact .rest rfl rfl rfl rfl

theorem typeSuffix_writtenBy (type : Option FieldType) :
    Optionally FieldType.WrittenBy type (FieldType.suffixTokens type) := by
  cases type with
  | none => rfl
  | some type => exact .keyword rfl rfl rfl

/-- The tokens of a term write it without the elements of its list. -/
theorem Term.strip_writtenBy_tokens (term : Term) :
    term.strip.WrittenBy term.tokens := by
  cases term with
  | literal value =>
    rw [tokens]
    cases value with
    | integer text => exact .integer (t := ⟨.integer, text⟩) rfl
    | string text => exact .string (t := ⟨.string, text⟩) rfl
  | field name length type =>
    rw [tokens]
    exact .field (t := ⟨.identifier, name⟩) rfl (lengthSuffix_writtenBy length)
      (typeSuffix_writtenBy type)
  | list name elements length =>
    rw [tokens]
    exact .list (t := ⟨.identifier, name⟩) rfl rfl (Term.nested_tokensAll 0 elements)
      rfl (lengthSuffix_writtenBy length)

/-- The tokens of several terms write them, but for the elements of lists. -/
theorem termsWrittenBy_tokensAll (t : Term) (ts : List Term) :
    TermsWrittenBy ((t :: ts).map Term.strip) (Term.tokensAll (t :: ts)) := by
  induction ts generalizing t with
  | nil => exact .one t.strip_writtenBy_tokens
  | cons u ts ih =>
    rw [List.map_cons, Term.tokensAll]
    exact .more t.strip_writtenBy_tokens rfl (ih u)

/-- The tokens of a layout write it without the elements of its lists. -/
theorem Layout.strip_writtenBy_tokens (layout : Layout) :
    layout.strip.WrittenBy layout.tokens := by
  obtain ⟨terms⟩ := layout
  cases terms with
  | nil => exact .empty
  | cons t ts => exact .terms (termsWrittenBy_tokensAll t ts)

/-- The text of a layout of lexemes is read back as the layout without the
elements of its lists. -/
theorem Layout.ofBytes_render {layout : Layout}
    (h : ∀ t ∈ layout.terms, t.Lexical) :
    Layout.ofBytes (Utf8.bytes layout.render) = .ok layout.strip := by
  rw [Layout.ofBytes, tokensOf_eq_ok_iff.2 (Layout.spelled_render h), ofTokenized,
    Layout.ofTokens_eq_ok_iff.2 layout.strip_writtenBy_tokens]
  rfl

/-- A bracket in a string of the body closes no list. -/
example :
    Layout.ofBytes (Utf8.bytes "a[b[1], \x22]\x22]:2, c/float")
      = .ok ⟨[.list "a" [] (some (.literal "2")), .field "c" none (some .float)]⟩ := by
  decide +kernel

end ByteLayout
