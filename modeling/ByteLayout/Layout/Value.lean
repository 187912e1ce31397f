/-
  ByteLayout.Layout.Value
  ───────────────────────
  **WHAT CONSTANTS STAND FOR.**

  An integer constant, or an integer length, has a number as its value; a
  string constant has a body between its quotes, and bytes that the body
  stands for.  A text that is no lexeme of its sort, which only a layout
  built by hand can hold, may have none of these.
-/
import ByteLayout.Layout.Basic
import ByteLayout.Text.Escape

namespace ByteLayout

namespace Literal

/-- The value of an integer constant, if it fits 64 bits. -/
def value? : Literal → Option Nat
  | .integer text => integerValue? text
  | .string _ => none

/-- The text between the quotes of a string constant.  One quotation mark
cannot be both the first and the last. -/
def body? : Literal → Option String
  | .integer _ => none
  | .string text =>
    match text.toList with
    | [] => none
    | c :: cs =>
      if c = '\x22' ∧ cs.getLast? = some '\x22' then
        some (String.ofList cs.dropLast)
      else none

/-- The bytes that a string constant stands for. -/
def data? (l : Literal) : Option (List UInt8) :=
  l.body?.map (fun body => Escape.decode (Utf8.bytes body))

end Literal

/-- The value of a length that is an integer, if it fits 64 bits. -/
def Length.value? : Length → Option Nat
  | .literal text => integerValue? text
  | .field _ | .rest => none

end ByteLayout
