/-
  ByteLayout.Proofs.ByteString
  ────────────────────────────
  **ANY BYTES CAN BE WRITTEN AS A STRING.**

  Bytes that need not be text are written in a string by escapes: an `x` with
  two digits stands for any byte, and some bytes have an escape of their own.
  Characters other than the quotation mark and the backslash stand for their
  UTF-8 bytes.  Every sequence of these (`DataPart`) is read as one string,
  and stands for the bytes that its parts do (`any_bytes_written`).

  The sequence is never read otherwise than part by part: no part is an
  escaped backslash, after which a string could end too early
  (`isString_spelled`), and each escape is taken whole where decoding comes to
  it (`reads_dataParts`).
-/
import ByteLayout.Proofs.Escape

namespace ByteLayout

/-! ## §1. Parts that stand for bytes. -/

/-- A digit of base sixteen, in either case, and its value. -/
structure HexDigit where
  byte : UInt8
  value : Nat
  hexDigit? : Base.hexDigit? byte = some value

/-- The characters that stand for one byte each after a backslash. -/
def namedBytes : List (Char × UInt8) :=
  [('n', '\n'.toUInt8), ('r', '\r'.toUInt8), ('t', '\t'.toUInt8), ('0', 0),
    ('\x22', quotationMark)]

/-- They are ASCII, escapes of decoding, and no backslashes. -/
theorem namedBytes_spec : ∀ named ∈ namedBytes,
    named.1.toNat < 128 ∧ named.1 ≠ '\x5c'
      ∧ (UInt8.ofNat named.1.toNat, named.2) ∈ Escape.singles := by
  decide

/-- What can be written within a string to stand for bytes. -/
inductive DataPart where
  /-- A backslash, an `x` and two digits. -/
  | pair (high low : HexDigit)
  /-- A backslash and the character of a byte that has one. -/
  | named (c : Char) (d : UInt8) (h : (c, d) ∈ namedBytes)
  /-- A character by itself. -/
  | plain (c : Char) (hc : c ≠ '\x22' ∧ c ≠ '\x5c')

/-- A digit is an ASCII character, and no quotation mark or backslash. -/
theorem HexDigit.byte_ranges (digit : HexDigit) :
    digit.byte.toNat < 128 ∧ digit.byte ≠ quotationMark ∧ digit.byte ≠ backslash
      ∧ digit.value < 16 := by
  have hall : ∀ b : UInt8, ∀ n ∈ Base.hexDigit? b,
      b.toNat < 128 ∧ b ≠ quotationMark ∧ b ≠ backslash ∧ n < 16 :=
    ByteClass.forall_byte (by decide +kernel)
  exact hall digit.byte digit.value digit.hexDigit?

/-- The character of a digit. -/
def HexDigit.char (digit : HexDigit) : Char :=
  Char.ofUInt8 digit.byte

/-- The character of a digit has the number of its byte. -/
theorem HexDigit.toNat_char (digit : HexDigit) : digit.char.toNat = digit.byte.toNat :=
  UInt8.toNat_toUInt32 digit.byte

/-- It is neither a quotation mark nor a backslash, so that it needs no
escape. -/
theorem HexDigit.char_ne (digit : HexDigit) :
    digit.char ≠ '\x22' ∧ digit.char ≠ '\x5c' := by
  obtain ⟨-, hquote, hslash, -⟩ := digit.byte_ranges
  constructor
  · intro h
    exact hquote (UInt8.toNat_inj.1 (digit.toNat_char ▸ h ▸ rfl))
  · intro h
    exact hslash (UInt8.toNat_inj.1 (digit.toNat_char ▸ h ▸ rfl))

theorem HexDigit.bytes_plain (digit : HexDigit) :
    (BodyPart.plain digit.char digit.char_ne).bytes = [digit.byte] := by
  have hascii : digit.char.toNat < 128 := digit.toNat_char ▸ digit.byte_ranges.1
  simp [BodyPart.bytes, BodyPart.chars, Utf8.encode_of_ascii hascii, digit.toNat_char]

namespace DataPart

/-- What a part is in the body of a string. -/
def bodyParts : DataPart → List BodyPart
  | .pair high low =>
    [.escape 'x' (by decide), .plain high.char high.char_ne, .plain low.char low.char_ne]
  | .named c d h => [.escape c (namedBytes_spec (c, d) h).1]
  | .plain c hc => [.plain c hc]

/-- The bytes that a part stands for. -/
def data : DataPart → List UInt8
  | .pair high low => [UInt8.ofNat (16 * high.value + low.value)]
  | .named _ d _ => [d]
  | .plain c _ => String.utf8EncodeChar c

/-- No part is an escaped backslash. -/
theorem backslash_not_mem_bodyParts (part : DataPart) :
    BodyPart.backslash ∉ part.bodyParts := by
  cases part with
  | pair high low => simp [bodyParts, BodyPart.backslash]
  | named c d h =>
    have hc := (namedBytes_spec (c, d) h).2.1
    simp only [bodyParts, BodyPart.backslash, List.mem_singleton, BodyPart.escape.injEq]
    exact fun heq => hc heq.symm
  | plain c hc => simp [bodyParts, BodyPart.backslash]

end DataPart

/-- The string that parts make. -/
def spelled (parts : List DataPart) : String :=
  quoted (parts.flatMap DataPart.bodyParts)

/-! ## §2. They are read as one string. -/

/-- Parts in quotation marks make a string that ends at the last of these: no
backslash is left to escape it. -/
theorem isString_spelled (parts : List DataPart) :
    IsString (Utf8.bytes (spelled parts)) := by
  refine (isString_quoted_iff _).2 (fun hinfix => ?_)
  have hmem := hinfix.subset List.mem_cons_self
  obtain ⟨part, -, hpart⟩ := List.mem_flatMap.1 hmem
  exact part.backslash_not_mem_bodyParts hpart

/-- The text of a string is the source of a layout with this one constant. -/
theorem layout_of_isString {text : String} (h : IsString (Utf8.bytes text)) :
    Layout.ofBytes (Utf8.bytes text) = .ok ⟨[.literal (.string text)]⟩ := by
  rw [Layout.ofBytes, tokensOf_eq_string_iff.2 h]
  rfl

/-! ## §3. They stand for their bytes. -/

namespace Escape

variable {bs rest ds : List UInt8}

/-- Bytes that are no backslashes stand for themselves. -/
theorem reads_append_of_ne (hbs : ∀ b ∈ bs, b ≠ backslash) (h : Reads Taken rest ds) :
    Reads Taken (bs ++ rest) (bs ++ ds) := by
  induction bs with
  | nil => exact h
  | cons b bs ih =>
    obtain ⟨hb, hbs⟩ := List.forall_mem_cons.1 hbs
    exact .byte (fun e d he => not_prefix_of_ne hb he) (ih hbs)

/-- A part is read as what it stands for, whatever comes after it. -/
theorem reads_dataPart (part : DataPart) (h : Reads Taken rest ds) :
    Reads Taken (part.bodyParts.flatMap BodyPart.bytes ++ rest) (part.data ++ ds) := by
  cases part with
  | pair high low =>
    refine .escape (.inl (.pair high.hexDigit? low.hexDigit?)) ?_ h
    simp [DataPart.bodyParts, BodyPart.bytes_escape, HexDigit.bytes_plain]
    rfl
  | named c d hc =>
    refine .escape (.inl (.single (namedBytes_spec (c, d) hc).2.2)) ?_ h
    simp [DataPart.bodyParts, BodyPart.bytes_escape]
  | plain c hc =>
    have hbytes : (BodyPart.plain c hc).bytes = String.utf8EncodeChar c := by
      simp [BodyPart.bytes, BodyPart.chars]
    simp only [DataPart.bodyParts, DataPart.data, List.flatMap_singleton, ← hbytes]
    exact reads_append_of_ne (fun b hb => (BodyPart.ne_of_mem_bytes_plain hb).2) h

/-- The parts are read one after another, each as the bytes that it stands
for. -/
theorem reads_dataParts (parts : List DataPart) :
    Reads Taken ((parts.flatMap DataPart.bodyParts).flatMap BodyPart.bytes)
      (parts.flatMap DataPart.data) := by
  induction parts with
  | nil => exact .nil
  | cons part parts ih =>
    rw [List.flatMap_cons, List.flatMap_append, List.flatMap_cons]
    exact reads_dataPart part ih

end Escape

/-- A quoted text is its characters between quotation marks. -/
theorem quoted_eq_append (parts : List BodyPart) :
    quoted parts = "\x22" ++ String.ofList (parts.flatMap BodyPart.chars) ++ "\x22" := by
  simp [quoted, ← String.toList_inj]

/-- Decoded, a string made of parts gives the bytes that they stand for. -/
theorem data?_spelled (parts : List DataPart) :
    (Literal.string (spelled parts)).data? = some (parts.flatMap DataPart.data) := by
  have hbytes (bodyParts : List BodyPart) :
      Utf8.bytes (String.ofList (bodyParts.flatMap BodyPart.chars))
        = bodyParts.flatMap BodyPart.bytes := by
    simp [Utf8.bytes_ofList, List.flatMap_assoc]
    rfl
  rw [spelled, quoted_eq_append, Literal.data?_quoted, hbytes,
    ← Escape.reads_taken_iff.1 (Escape.reads_dataParts parts)]

/-! ## §4. Any bytes. -/

/-- The digit of a value. -/
def HexDigit.ofValue (n : Fin 16) : HexDigit where
  byte := (Nat.digitChar n).toUInt8
  value := n
  hexDigit? := by revert n; decide +kernel

/-- The two digits of a byte. -/
def DataPart.ofByte (b : UInt8) : DataPart :=
  .pair (.ofValue ⟨b.toNat / 16, by have := b.toNat_lt; omega⟩)
    (.ofValue ⟨b.toNat % 16, by omega⟩)

/-- Every byte has a part that stands for it. -/
theorem DataPart.data_ofByte (b : UInt8) : (ofByte b).data = [b] := by
  show [UInt8.ofNat (16 * (b.toNat / 16) + b.toNat % 16)] = [b]
  rw [Nat.div_add_mod, UInt8.ofNat_toNat]

/-- So any bytes have parts that stand for them. -/
theorem exists_data_eq (data : List UInt8) :
    ∃ parts : List DataPart, parts.flatMap DataPart.data = data := by
  refine ⟨data.map DataPart.ofByte, ?_⟩
  rw [List.flatMap_map]
  simp only [DataPart.data_ofByte, List.flatMap_singleton']

/-- **Any bytes can be written as a string**, and in whatever way they are
written, the source of that string is read as one constant, which stands for
the bytes. -/
theorem any_bytes_written (data : List UInt8) :
    (∃ parts : List DataPart, parts.flatMap DataPart.data = data)
      ∧ ∀ parts : List DataPart, parts.flatMap DataPart.data = data →
        (Intake.standard.read (.ofBytes (Utf8.bytes (spelled parts)))).layout
            = .ok ⟨[.literal (.string (spelled parts))]⟩
          ∧ (Literal.string (spelled parts)).data? = some data := by
  refine ⟨exists_data_eq data, fun parts hparts => ⟨?_, ?_⟩⟩
  · rw [Intake.layout_read_standard]
    exact layout_of_isString (isString_spelled parts)
  · rw [data?_spelled, hparts]

/-- Each escape ends where it is complete, whatever digits come after it. -/
example :
    (Literal.string "\x22\x5c01\x5cx4Aa\x5c\x22\x22").data?
      = some [0x00, 0x31, 0x4A, 0x61, 0x22] := by
  decide +kernel

end ByteLayout
