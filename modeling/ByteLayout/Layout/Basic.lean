/-
  ByteLayout.Layout.Basic
  ───────────────────────
  **LAYOUTS.**

  A layout says how a sequence of bytes is put together: term after term, in
  the order of the bytes.  A term is a constant, a named field with an
  optional length and type, or a named list of terms with an optional length.

  Texts are kept as they were written: a constant's text is not yet its
  value, and the name in a length is not yet resolved.
-/

namespace ByteLayout

/-! ## §1. The parts of a term. -/

/-- A constant: its text as written, so that a string keeps its quotes and
its escapes. -/
inductive Literal where
  | integer (text : String)
  | string (text : String)
  deriving DecidableEq, Repr

/-- The text of a constant, as written. -/
def Literal.text : Literal → String
  | .integer text | .string text => text

/-- How long a field or a list is. -/
inductive Length where
  /-- As long as an integer says. -/
  | literal (text : String)
  /-- As long as the value of another field says. -/
  | field (name : String)
  /-- All that is left. -/
  | rest
  deriving DecidableEq, Repr

/-- How the bytes of a field are to be read. -/
inductive FieldType where
  | bytes
  | integer
  | float
  deriving DecidableEq, Repr

/-! ## §2. Terms and layouts. -/

/-- One term of a layout. -/
inductive Term where
  | literal (value : Literal)
  | field (name : String) (length : Option Length) (type : Option FieldType)
  | list (name : String) (elements : List Term) (length : Option Length)
  deriving Repr

/-- A sequence of terms. -/
structure Layout where
  terms : List Term
  deriving Repr

/-- The name of a field or a list; a constant has none. -/
def Term.name? : Term → Option String
  | .literal _ => none
  | .field name _ _ | .list name _ _ => some name

namespace Layout

/-- The layout without terms. -/
def empty : Layout := ⟨[]⟩

/-- The first field or list of the given name. -/
def find? (layout : Layout) (name : String) : Option Term :=
  layout.terms.find? (fun t => t.name? == some name)

end Layout

/-! ## §3. Equality is decidable. -/

mutual

/-- Decides whether two terms are equal. -/
def Term.decEq : (s t : Term) → Decidable (s = t)
  | .literal a, .literal b => decidable_of_iff (a = b) (by simp)
  | .field n l y, .field n' l' y' =>
    decidable_of_iff (n = n' ∧ l = l' ∧ y = y') (by simp)
  | .list n es l, .list n' es' l' =>
    haveI := Term.decEqAll es es'
    decidable_of_iff (n = n' ∧ es = es' ∧ l = l') (by simp)
  | .literal _, .field _ _ _ | .literal _, .list _ _ _
  | .field _ _ _, .literal _ | .field _ _ _, .list _ _ _
  | .list _ _ _, .literal _ | .list _ _ _, .field _ _ _ =>
    isFalse (by intro h; cases h)

/-- Decides whether two sequences of terms are equal. -/
def Term.decEqAll : (ss ts : List Term) → Decidable (ss = ts)
  | [], [] => isTrue rfl
  | s :: ss, t :: ts =>
    haveI := Term.decEq s t
    haveI := Term.decEqAll ss ts
    decidable_of_iff (s = t ∧ ss = ts) (by simp)
  | [], _ :: _ | _ :: _, [] => isFalse (by intro h; cases h)

end

instance : DecidableEq Term := Term.decEq

instance : DecidableEq Layout := fun a b =>
  decidable_of_iff (a.terms = b.terms) (by cases a; cases b; simp)

end ByteLayout
