/-
  ByteLayout.Token.Basic
  ──────────────────────
  **TOKENS.**

  A layout is written with four sorts of token: integers, strings,
  identifiers, and six marks of one byte each.  A token carries its kind and
  its text exactly as it stands in the source; a string keeps its quotes and
  its escapes.

  The kind does not constrain the text in the type: whether a text is a
  lexeme of its kind is decided where tokens are read, and everything that
  works on tokens accepts any text.
-/

namespace ByteLayout

/-! ## §1. Marks. -/

/-- The punctuation of a layout. -/
inductive Mark where
  | comma
  | colon
  | slash
  | dot
  | openBracket
  | closeBracket
  deriving DecidableEq, Repr

namespace Mark

/-- Every mark, once. -/
def all : List Mark :=
  [.comma, .colon, .slash, .dot, .openBracket, .closeBracket]

/-- The character that a mark is written with. -/
def char : Mark → Char
  | .comma => ','
  | .colon => ':'
  | .slash => '/'
  | .dot => '.'
  | .openBracket => '['
  | .closeBracket => ']'

/-- The byte that a mark is written with. -/
def byte (m : Mark) : UInt8 :=
  m.char.toUInt8

/-- The mark that a byte writes, if any. -/
def ofByte? (b : UInt8) : Option Mark :=
  all.find? (fun m => m.byte == b)

theorem mem_all (m : Mark) : m ∈ all := by
  cases m <;> decide

@[simp] theorem ofByte?_byte (m : Mark) : ofByte? m.byte = some m := by
  cases m <;> decide

theorem byte_of_ofByte? {b : UInt8} {m : Mark} (h : ofByte? b = some m) :
    m.byte = b := by
  have := List.find?_some h
  simpa using this

/-- Every mark is written as one byte of its own. -/
theorem ofByte?_eq_some_iff {b : UInt8} {m : Mark} :
    ofByte? b = some m ↔ b = m.byte :=
  ⟨fun h => (byte_of_ofByte? h).symm, fun h => h ▸ ofByte?_byte m⟩

/-- The name of a mark in messages. -/
def label : Mark → String
  | .comma => "Comma"
  | .colon => "Colon"
  | .slash => "Slash"
  | .dot => "Dot"
  | .openBracket => "BracketLeft"
  | .closeBracket => "BracketRight"

end Mark

/-! ## §2. Tokens. -/

/-- The sort of a token. -/
inductive Kind where
  | integer
  | string
  | identifier
  | mark (m : Mark)
  deriving DecidableEq, Repr

/-- The name of a kind in messages. -/
def Kind.label : Kind → String
  | .integer => "Integer"
  | .string => "String"
  | .identifier => "Identifier"
  | .mark m => m.label

/-- Every kind, once. -/
def Kind.all : List Kind :=
  [.integer, .string, .identifier] ++ Mark.all.map .mark

theorem Kind.mem_all (k : Kind) : k ∈ all := by
  cases k with
  | mark m => cases m <;> decide
  | _ => decide

/-- A piece of a layout's text, with the kind it was read as. -/
structure Token where
  kind : Kind
  text : String
  deriving DecidableEq, Repr

/-- A token as the log shows it. -/
def Token.describe (t : Token) : String :=
  t.text ++ " (" ++ t.kind.label ++ ")"

/-- A token, and the offset of its first byte in the source. -/
structure Sighting where
  token : Token
  start : Nat
  deriving DecidableEq, Repr

end ByteLayout
