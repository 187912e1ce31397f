/-
  ByteLayout.Token.LexicalError
  ─────────────────────────────
  **WHY A SOURCE CANNOT BE READ AS TOKENS.**

  One constructor per cause, with what a reader of the message wants to know:
  the byte at fault and its offset, or the text that lacks something.
  Offsets count bytes from the start of the source.
-/
import ByteLayout.Token.Base

namespace ByteLayout

/-- What stops the reading of tokens. -/
inductive LexicalError where
  /-- The source itself could not be read. -/
  | unreadable (reason : String)
  /-- A byte that begins no token. -/
  | unknownByte (byte : UInt8) (offset : Nat)
  /-- A point after a decimal integer: layouts have no fractions. -/
  | fraction (offset : Nat)
  /-- A byte that cannot follow an integer. -/
  | badFollower (byte : UInt8) (offset : Nat)
  /-- A letter or digit that is no digit of the announced base. -/
  | badDigit (byte : UInt8) (base : Base) (offset : Nat)
  /-- A base is announced, but no digit follows. -/
  | noDigits (text : String) (offset : Nat)
  /-- The input ends within a token. -/
  | unfinished (kind : Kind) (text : String)
  /-- A string's bytes are not UTF-8. -/
  | notUtf8 (offset : Nat)
  /-- The source is longer than allowed. -/
  | tooLong (limit : Nat)
  deriving DecidableEq, Repr

/-- A byte as messages show it: the character itself if it is a visible one
of ASCII, else its two hexadecimal digits. -/
def showByte (b : UInt8) : String :=
  if 0x21 ≤ b && b ≤ 0x7E then
    String.ofList ['\'', Char.ofNat b.toNat, '\'']
  else
    String.ofList
      ['0', 'x', (b.toNat / 16).digitChar, (b.toNat % 16).digitChar]

/-- The message of an error. -/
def LexicalError.message : LexicalError → String
  | .unreadable reason => s!"read failed: {reason}"
  | .unknownByte byte offset =>
    s!"unknown character {showByte byte} at offset {offset}"
  | .fraction offset => s!"floating point not supported (offset {offset})"
  | .badFollower byte offset =>
    s!"unexpected character {showByte byte} after integer at offset {offset}"
  | .badDigit byte base offset =>
    s!"invalid digit {showByte byte} for {base.label} integer at offset {offset}"
  | .noDigits text offset =>
    s!"integer prefix {text} has no digits (offset {offset})"
  | .unfinished kind text => s!"unfinished token: {kind.label} {text}"
  | .notUtf8 offset => s!"string is not valid UTF-8 at offset {offset}"
  | .tooLong limit => s!"input exceeds {limit} bytes"

end ByteLayout
