/-
  ByteLayout.Layout.Render
  ────────────────────────
  **THE CANONICAL TEXT OF A LAYOUT.**

  A term is written as

      constant   its own text
      field      name, then `:` and the length, then `/` and the type
      list       name, the elements in brackets, then `:` and the length

  where the length and the type stand only if the term has them.  Terms in a
  row, those of the layout or the elements of a list, are separated by a
  comma and one space.
-/
import ByteLayout.Layout.Basic

namespace ByteLayout

/-! ## §1. Lengths and types. -/

/-- The text of a length, after its colon. -/
def Length.text : Length → String
  | .literal text => text
  | .field name => name
  | .rest => "..."

namespace FieldType

/-- The types, in the order in which messages list them. -/
def all : List FieldType :=
  [.bytes, .integer, .float]

/-- The identifier that names a type after a slash. -/
def keyword : FieldType → String
  | .bytes => "bytes"
  | .integer => "integer"
  | .float => "float"

/-- The type that an identifier names, if it names one. -/
def ofKeyword? (text : String) : Option FieldType :=
  all.find? (fun y => y.keyword == text)

theorem ofKeyword?_keyword (y : FieldType) : ofKeyword? y.keyword = some y := by
  cases y <;> decide

theorem keyword_of_ofKeyword? {text : String} {y : FieldType}
    (h : ofKeyword? text = some y) : y.keyword = text := by
  have := List.find?_some h
  simpa using this

/-- The keywords are the texts of the types, each of one type only. -/
theorem ofKeyword?_eq_some_iff {text : String} {y : FieldType} :
    ofKeyword? text = some y ↔ text = y.keyword :=
  ⟨fun h => (keyword_of_ofKeyword? h).symm, fun h => h ▸ ofKeyword?_keyword y⟩

end FieldType

/-! ## §2. Terms. -/

/-- The length's part of a term's text. -/
def Length.suffix : Option Length → String
  | none => ""
  | some length => ":" ++ length.text

/-- The type's part of a term's text. -/
def FieldType.suffix : Option FieldType → String
  | none => ""
  | some type => "/" ++ type.keyword

mutual

/-- The canonical text of a term. -/
def Term.render : Term → String
  | .literal value => value.text
  | .field name length type =>
    name ++ Length.suffix length ++ FieldType.suffix type
  | .list name elements length =>
    name ++ "[" ++ Term.renderAll elements ++ "]" ++ Length.suffix length

/-- The canonical text of terms in a row. -/
def Term.renderAll : List Term → String
  | [] => ""
  | [t] => t.render
  | t :: u :: ts => t.render ++ ", " ++ Term.renderAll (u :: ts)

end

/-- The canonical text of a layout. -/
def Layout.render (layout : Layout) : String :=
  Term.renderAll layout.terms

end ByteLayout
