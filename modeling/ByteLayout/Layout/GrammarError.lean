/-
  ByteLayout.Layout.GrammarError
  ──────────────────────────────
  **WHY TOKENS MAKE NO LAYOUT.**

  One constructor per cause.  Where a certain token was expected, the error
  carries what was found instead: a token, or nothing at the end of the
  input.
-/
import ByteLayout.Token.Basic

namespace ByteLayout

/-- What stops the reading of a layout. -/
inductive GrammarError where
  /-- A token that starts no term. -/
  | noTerm (found : Option Token)
  /-- A term is complete, and no comma follows it. -/
  | noComma (found : Option Token)
  /-- The input ends after a comma. -/
  | commaAtEnd
  /-- The input ends within the brackets of a list. -/
  | openList (name : String)
  /-- No length follows a colon. -/
  | noLength (found : Option Token)
  /-- A dot that is not one of three. -/
  | shortEllipsis (found : Option Token)
  /-- No identifier follows a slash. -/
  | noType (found : Option Token)
  /-- An identifier after a slash that names no type. -/
  | unknownType (text : String)
  deriving DecidableEq, Repr

/-- What was found, as messages show it. -/
def describeFound : Option Token → String
  | some t => t.text ++ " // " ++ t.kind.label
  | none => "end of input"

/-- The message of an error. -/
def GrammarError.message : GrammarError → String
  | .noTerm found => s!"unknown token: {describeFound found}"
  | .noComma found => s!"expected comma, got {describeFound found}"
  | .commaAtEnd => "trailing comma: expected a term, got end of input"
  | .openList name =>
    s!"expected closing bracket, got end of input (list {name})"
  | .noLength found =>
    s!"expected integer or identifier for length, got {describeFound found}"
  | .shortEllipsis found =>
    s!"expected three dots in an ellipsis, got {describeFound found}"
  | .noType found => s!"expected identifier for type, got {describeFound found}"
  | .unknownType text =>
    s!"expected a correct type (bytes, integer or float), got {text}"

end ByteLayout
