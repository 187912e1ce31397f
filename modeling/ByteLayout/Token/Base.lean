/-
  ByteLayout.Token.Base
  ─────────────────────
  **INTEGER TEXT AND ITS VALUE.**

  An integer is written in base ten, or in another base that a zero and a
  letter announce: `0x` sixteen, `0o` eight, `0b` two.  The letters are
  lower case; the digits of base sixteen may be of either case.

  `integerValue?` reads a whole text in the base that it announces.  A value
  has to fit 64 bits, and so has every number on the way to it, as the digits
  are taken in one by one.
-/
import ByteLayout.Token.ByteClass
import ByteLayout.Text.Utf8

namespace ByteLayout

/-- The bases in which an integer can be written. -/
inductive Base where
  | decimal
  | hexadecimal
  | octal
  | binary
  deriving DecidableEq, Repr

namespace Base

/-! ## §1. The bases. -/

/-- How many digits a base has. -/
def radix : Base → Nat
  | .decimal => 10
  | .hexadecimal => 16
  | .octal => 8
  | .binary => 2

/-- The name of a base in messages. -/
def label : Base → String
  | .decimal => "decimal"
  | .hexadecimal => "hexadecimal"
  | .octal => "octal"
  | .binary => "binary"

/-- What announces a base in front of the digits. -/
def sign : Base → String
  | .decimal => ""
  | .hexadecimal => "0x"
  | .octal => "0o"
  | .binary => "0b"

/-- Whether a base has to be announced. -/
def announced : Base → Bool
  | .decimal => false
  | _ => true

/-- The base that a letter announces after a zero. -/
def ofLetter? (b : UInt8) : Option Base :=
  if b = 'x'.toUInt8 then some .hexadecimal
  else if b = 'o'.toUInt8 then some .octal
  else if b = 'b'.toUInt8 then some .binary
  else none

/-- The base that an integer's text announces; base ten if it announces
none. -/
def of : List UInt8 → Base
  | z :: l :: _ =>
    if z = '0'.toUInt8 then (ofLetter? l).getD .decimal else .decimal
  | _ => .decimal

/-! ## §2. Digits. -/

/-- The value of a byte as a digit of base sixteen. -/
def hexDigit? (b : UInt8) : Option Nat :=
  if '0'.toUInt8 ≤ b && b ≤ '9'.toUInt8 then some (b.toNat - 48)
  else if 'a'.toUInt8 ≤ b && b ≤ 'f'.toUInt8 then some (b.toNat - 87)
  else if 'A'.toUInt8 ≤ b && b ≤ 'F'.toUInt8 then some (b.toNat - 55)
  else none

/-- The value of a byte as a digit of the base. -/
def digit? (base : Base) (b : UInt8) : Option Nat :=
  (hexDigit? b).filter (· < base.radix)

/-- Whether a byte is a digit of the base. -/
def accepts (base : Base) (b : UInt8) : Bool :=
  (base.digit? b).isSome

/-! ## §3. Values below a size. -/

/-- The number, if it stays below the size. -/
def fits? (size n : Nat) : Option Nat :=
  if n < size then some n else none

/-- The number with one more digit of the base, if it stays below the size and
so does the product on the way to it. -/
def append? (base : Base) (size n : Nat) (b : UInt8) : Option Nat := do
  let digit ← base.digit? b
  let product ← fits? size (n * base.radix)
  fits? size (product + digit)

/-- The number that a text of one digit or more denotes, taken in digit by
digit below the size. -/
def digitsBelow? (base : Base) (size : Nat) (text : List UInt8) : Option Nat :=
  match text with
  | [] => none
  | _ :: _ => text.foldlM (base.append? size) 0

/-- The number that a text of digits denotes, with or without a plus sign in
front, taken in digit by digit below the size. -/
def numeralBelow? (base : Base) (size : Nat) : List UInt8 → Option Nat
  | [] => none
  | b :: bs =>
    if b = '+'.toUInt8 then base.digitsBelow? size bs
    else base.digitsBelow? size (b :: bs)

end Base

/-- The value of an integer's text: the part after the announcement of its
base, read in that base as a number of 64 bits. -/
def integerValue? (text : String) : Option Nat :=
  let bs := Utf8.bytes text
  let base := Base.of bs
  let body := if base.announced then bs.drop 2 else bs
  base.numeralBelow? UInt64.size body

end ByteLayout
