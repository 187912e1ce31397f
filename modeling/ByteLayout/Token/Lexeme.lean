/-
  ByteLayout.Token.Lexeme
  ───────────────────────
  **THE LEXEME IN HAND.**

  Tokens are read one byte at a time.  Between two bytes there is a lexeme in
  hand, and the next byte — or the end of the input — settles one of three
  things: the lexeme takes the byte, it is complete without it, or it can be
  neither.  `Lexeme.next` is that decision.

  What it needs to know of the bytes in hand is their `Shape`.  For a string
  that is how the last bytes bear on the next quotation mark: a quotation
  mark closes the string unless exactly one backslash comes right before it.
  Of the backslashes before it only two are looked at, so any two backslashes
  in a row leave a following quotation mark free to close.

  Whether a string's bytes are text is asked only when the lexeme is
  complete (`Lexeme.token`).
-/
import ByteLayout.Token.LexicalError

namespace ByteLayout

/-! ## §1. Shapes. -/

/-- How far a string has come. -/
inductive Quoting where
  /-- The next quotation mark closes the string. -/
  | plain
  /-- The last byte is a backslash, and the byte before it is none. -/
  | backslash
  /-- The last two bytes are backslashes. -/
  | backslashes
  /-- The closing quotation mark has come. -/
  | closed
  deriving DecidableEq, Repr

/-- How far a string has come after one more byte. -/
def Quoting.push : Quoting → UInt8 → Quoting
  | .plain, b =>
    if b = ByteLayout.backslash then .backslash
    else if b = quotationMark then .closed
    else .plain
  | .backslash, b =>
    if b = ByteLayout.backslash then .backslashes else .plain
  | .backslashes, b =>
    if b = ByteLayout.backslash then .backslashes
    else if b = quotationMark then .closed
    else .plain
  | .closed, _ => .closed

/-- What the bytes in hand amount to. -/
inductive Shape where
  /-- A mark. -/
  | mark (m : Mark)
  /-- A run of blank space. -/
  | blank
  /-- A letter, and letters and digits after it. -/
  | word
  /-- The digit zero alone, which may yet announce a base. -/
  | zero
  /-- The announcement of a base, without digits. -/
  | bare (base : Base)
  /-- An integer of the base, with digits. -/
  | digits (base : Base)
  /-- A string from its opening quotation mark on. -/
  | quoted (progress : Quoting)
  deriving DecidableEq, Repr

namespace Shape

/-- The shape of one byte where no lexeme is in hand. -/
def start? (b : UInt8) : Option Shape :=
  match ByteClass.of b with
  | .mark m => some (.mark m)
  | .blank => some .blank
  | .quote => some (.quoted .plain)
  | .digit => some (if b = '0'.toUInt8 then .zero else .digits .decimal)
  | .letter => some .word
  | .foreign => none

/-- The kind of token that a shape makes; blank space makes none. -/
def kind? : Shape → Option Kind
  | .mark m => some (.mark m)
  | .blank => none
  | .word => some .identifier
  | .zero | .bare _ | .digits _ => some .integer
  | .quoted _ => some .string

end Shape

/-! ## §2. Lexemes. -/

/-- The bytes in hand, the newest first, with their shape and the offset of
the first of them. -/
structure Lexeme where
  start : Nat
  shape : Shape
  held : List UInt8
  deriving DecidableEq, Repr

/-- What lies ahead makes of the lexeme in hand. -/
inductive Verdict where
  /-- The lexeme goes on, and has this shape after the next byte. -/
  | more (shape : Shape)
  /-- The lexeme is complete, and the next byte is not part of it. -/
  | complete
  /-- The lexeme can neither go on nor end here. -/
  | refuse (e : LexicalError)
  deriving DecidableEq, Repr

namespace Lexeme

/-- The lexeme that a byte at an offset begins. -/
def begin? (offset : Nat) (b : UInt8) : Except LexicalError Lexeme :=
  match Shape.start? b with
  | some shape => .ok ⟨offset, shape, [b]⟩
  | none => .error (.unknownByte b offset)

/-- The bytes of a lexeme, in the order of the source. -/
def bytes (l : Lexeme) : List UInt8 :=
  l.held.reverse

/-- The offset after a lexeme's last byte. -/
def stop (l : Lexeme) : Nat :=
  l.start + l.held.length

/-- A lexeme with one more byte. -/
def push (l : Lexeme) (shape : Shape) (b : UInt8) : Lexeme :=
  { l with shape := shape, held := b :: l.held }

/-- An integer of the base ends: it has to have digits. -/
def endInteger (l : Lexeme) (base : Base) (bare : Bool) : Verdict :=
  if bare then .refuse (.noDigits base.sign l.start) else .complete

/-- An integer ends where blank space, a comma, a slash, a closing bracket or
the end of the input lies ahead.  Else it takes a digit of its base, and
nothing other. -/
def nextInteger (l : Lexeme) (base : Base) (bare : Bool) :
    Option UInt8 → Verdict
  | none => l.endInteger base bare
  | some b =>
    if (ByteClass.of b).endsInteger then l.endInteger base bare
    else if base.accepts b then .more (.digits base)
    else if b = Mark.dot.byte ∧ base = .decimal then .refuse (.fraction l.stop)
    else if base.announced && (ByteClass.of b).isWordPart then
      .refuse (.badDigit b base l.stop)
    else .refuse (.badFollower b l.stop)

/-- What the next byte, or the end of the input, makes of a lexeme. -/
def next (l : Lexeme) (ahead : Option UInt8) : Verdict :=
  match l.shape with
  | .mark _ => .complete
  | .blank =>
    match ahead.map ByteClass.of with
    | some .blank => .more .blank
    | _ => .complete
  | .word =>
    if (ByteClass.ahead ahead).isWordPart then .more .word else .complete
  | .zero =>
    match ahead.bind Base.ofLetter? with
    | some base => .more (.bare base)
    | none => l.nextInteger .decimal false ahead
  | .bare base => l.nextInteger base true ahead
  | .digits base => l.nextInteger base false ahead
  | .quoted .closed => .complete
  | .quoted progress =>
    match ahead with
    | some b => .more (.quoted (progress.push b))
    | none => .refuse (.unfinished .string (Utf8.lossy l.bytes))

/-- Nothing goes on at the end of the input. -/
theorem next_none_ne_more (l : Lexeme) (shape : Shape) :
    l.next none ≠ .more shape := by
  unfold next nextInteger endInteger
  split <;> simp [ByteClass.ahead, ByteClass.isWordPart]

/-- The token that a complete lexeme makes, if it makes one. -/
def token (l : Lexeme) : Except LexicalError (Option Sighting) :=
  match l.shape.kind? with
  | none => .ok none
  | some kind =>
    match Utf8.text? l.bytes with
    | some text => .ok (some ⟨⟨kind, text⟩, l.start⟩)
    | none => .error (.notUtf8 (l.start + Utf8.validLength l.bytes))

end Lexeme

end ByteLayout
