/-
  ByteLayout.Token.ByteClass
  ──────────────────────────
  **WHAT A BYTE CAN BEGIN.**

  The class of a byte says which lexeme it begins where none is in hand, and
  whether it ends the lexeme before it.  The classes are of bytes, not of
  characters: no byte above 0x7E begins anything, so text outside ASCII can
  stand only within a string.
-/
import ByteLayout.Token.Basic

namespace ByteLayout

/-- The quotation mark, which opens and closes a string. -/
def quotationMark : UInt8 := 0x22

/-- The backslash, which starts an escape. -/
def backslash : UInt8 := 0x5C

/-- What a byte can begin. -/
inductive ByteClass where
  /-- A token by itself. -/
  | mark (m : Mark)
  /-- Space that separates tokens. -/
  | blank
  /-- A string. -/
  | quote
  /-- An integer. -/
  | digit
  /-- An identifier. -/
  | letter
  /-- Nothing: the byte can stand only within a string. -/
  | foreign
  deriving DecidableEq, Repr

namespace ByteClass

/-- Space, line feed and carriage return separate tokens. -/
def isBlank (b : UInt8) : Bool :=
  b == ' '.toUInt8 || b == '\n'.toUInt8 || b == '\r'.toUInt8

/-- The ten decimal digits. -/
def isDigit (b : UInt8) : Bool :=
  '0'.toUInt8 ≤ b && b ≤ '9'.toUInt8

/-- The letters of ASCII, in both cases. -/
def isLetter (b : UInt8) : Bool :=
  ('a'.toUInt8 ≤ b && b ≤ 'z'.toUInt8) || ('A'.toUInt8 ≤ b && b ≤ 'Z'.toUInt8)

/-- The class of a byte. -/
def of (b : UInt8) : ByteClass :=
  match Mark.ofByte? b with
  | some m => .mark m
  | none =>
    if isBlank b then .blank
    else if b = quotationMark then .quote
    else if isDigit b then .digit
    else if isLetter b then .letter
    else .foreign

/-- The class of what lies ahead: the end of the input counts as blank. -/
def ahead : Option UInt8 → ByteClass
  | some b => of b
  | none => .blank

/-- Identifiers go on with these classes. -/
def isWordPart : ByteClass → Bool
  | .letter | .digit => true
  | _ => false

/-- Integers end where one of these lies ahead: blank space, a comma, a slash
or a closing bracket. -/
def endsInteger : ByteClass → Bool
  | .blank | .mark .comma | .mark .slash | .mark .closeBracket => true
  | _ => false

/-! ## The classes are the ranges. -/

/-- What holds of all 256 values holds of every byte. -/
theorem forall_byte {P : UInt8 → Prop} (h : ∀ n : Fin 256, P (UInt8.ofFin n))
    (b : UInt8) : P b := by
  simpa using h b.toFin

/-- The bytes of marks are the only ones in the class of a mark. -/
theorem of_eq_mark_iff {b : UInt8} {m : Mark} : of b = .mark m ↔ b = m.byte := by
  revert b
  apply forall_byte
  cases m <;> decide +kernel

/-- The class of blanks is that of the bytes that separate tokens. -/
theorem of_eq_blank_iff {b : UInt8} : of b = .blank ↔ isBlank b := by
  revert b
  apply forall_byte
  decide +kernel

theorem of_eq_quote_iff {b : UInt8} : of b = .quote ↔ b = quotationMark := by
  revert b
  apply forall_byte
  decide +kernel

/-- The classes of digits and of letters are the ranges that they name. -/
theorem of_eq_digit_iff {b : UInt8} : of b = .digit ↔ isDigit b := by
  revert b
  apply forall_byte
  decide +kernel

theorem of_eq_letter_iff {b : UInt8} : of b = .letter ↔ isLetter b := by
  revert b
  apply forall_byte
  decide +kernel

@[simp] theorem of_markByte (m : Mark) : of m.byte = .mark m :=
  of_eq_mark_iff.2 rfl

/-- Identifiers go on with letters and digits. -/
theorem isWordPart_of_iff {b : UInt8} :
    isWordPart (of b) ↔ isLetter b ∨ isDigit b := by
  rw [← of_eq_letter_iff, ← of_eq_digit_iff]
  cases of b <;> simp [isWordPart]

/-- Integers end before blank space and three of the marks. -/
theorem endsInteger_of_iff {b : UInt8} :
    endsInteger (of b) ↔
      isBlank b ∨ b = Mark.comma.byte ∨ b = Mark.slash.byte
        ∨ b = Mark.closeBracket.byte := by
  rw [← of_eq_blank_iff]
  simp only [← of_eq_mark_iff]
  cases of b with
  | mark m => cases m <;> simp [endsInteger]
  | _ => simp [endsInteger]

end ByteClass

end ByteLayout
