/-
  ByteLayout.Proofs.IntegerValue
  ──────────────────────────────
  **WHAT INTEGERS STAND FOR.**

  The digits of an integer denote a number (`Base.denoted`), and there is no
  limit to it.  Its value is that number, if it fits 64 bits, and for no other
  reason does it lack one (`integerValue?_of_digits`).  Zeros in front of the
  digits leave the number as it is.

  The main result says this of every integer in a layout that was read, be it
  a constant or a length (`integer_values`).
-/
import ByteLayout.Layout.Value
import ByteLayout.Proofs.Numeral
import ByteLayout.Proofs.RoundTrip

namespace ByteLayout

/-! ## §1. The values of integers. -/

/-- The value of an integer's text is the number that its digits denote, if it
fits 64 bits. -/
theorem integerValue?_of_digits {text : String} {base : Base} {digits : List UInt8}
    (hne : digits ≠ []) (hdigits : ∀ d ∈ digits, base.IsDigit d)
    (htext : Utf8.bytes text = Utf8.bytes base.sign ++ digits) :
    integerValue? text = Base.fits? UInt64.size (base.denoted digits) := by
  have hbody : (if base.announced then (Utf8.bytes base.sign ++ digits).drop 2
      else Utf8.bytes base.sign ++ digits) = digits := by
    cases base <;> rfl
  unfold integerValue?
  simp only [htext, Base.of_sign_append hdigits, hbody]
  exact Base.numeralBelow?_of_digits (by decide) hne hdigits

/-- The text is an integer's, and its value is the number that the digits denote
if that is below 2^64, and none otherwise; and with more zeros in front of the
digits it has the same value. -/
def IsValueOf (text : String) (value : Option Nat) : Prop :=
  ∃ (base : Base) (digits : List UInt8),
    digits ≠ [] ∧ (∀ d ∈ digits, base.IsDigit d)
      ∧ Utf8.bytes text = Utf8.bytes base.sign ++ digits
      ∧ value = (if base.denoted digits < 2 ^ 64 then some (base.denoted digits) else none)
      ∧ ∀ (zeros : Nat) (longer : String),
        Utf8.bytes longer
            = Utf8.bytes base.sign ++ (List.replicate zeros '0'.toUInt8 ++ digits) →
          integerValue? longer = value

/-- The text of any integer has the value that its digits denote, if 64 bits
hold it. -/
theorem IsInteger.isValueOf {text : String} (h : IsInteger (Utf8.bytes text)) :
    IsValueOf text (integerValue? text) := by
  obtain ⟨base, digits, hne, hdigits, htext⟩ := h
  have hvalue := integerValue?_of_digits hne hdigits htext
  refine ⟨base, digits, hne, hdigits, htext, hvalue, fun zeros longer hlonger => ?_⟩
  have hzeros : ∀ d ∈ List.replicate zeros '0'.toUInt8 ++ digits, base.IsDigit d := by
    refine List.forall_mem_append.2 ⟨fun d hd => ?_, hdigits⟩
    rw [List.eq_of_mem_replicate hd]
    cases base <;> decide
  rw [integerValue?_of_digits (List.append_ne_nil_of_right_ne_nil _ hne) hzeros hlonger,
    Base.denoted_zeros_append, hvalue]

/-! ## §2. The integers of a layout. -/

/-- The constant stands in the term, at whatever depth. -/
inductive Term.HasLiteral (value : Literal) : Term → Prop
  | literal : HasLiteral value (.literal value)
  | element {name : String} {elements : List Term} {length : Option Length} {e : Term}
    (he : e ∈ elements) (h : HasLiteral value e) :
    HasLiteral value (.list name elements length)

/-- The length is one of the term, at whatever depth. -/
inductive Term.HasLength (length : Length) : Term → Prop
  | field {name : String} {type : Option FieldType} :
    HasLength length (.field name (some length) type)
  | list {name : String} {elements : List Term} :
    HasLength length (.list name elements (some length))
  | element {name : String} {elements : List Term} {outer : Option Length} {e : Term}
    (he : e ∈ elements) (h : HasLength length e) :
    HasLength length (.list name elements outer)

section

variable {term : Term}

/-- The constants of a term of lexemes are lexemes. -/
theorem Term.Lexical.literal_of_has (h : term.Lexical) {value : Literal}
    (hvalue : term.HasLiteral value) : value.Lexical := by
  -- The induction goes down into the elements of lists.
  induction hvalue with
  | literal =>
    cases h
    assumption
  | element he _ ih =>
    cases h with
    | list _ helements _ => exact ih (helements _ he)

/-- And so are its lengths. -/
theorem Term.Lexical.length_of_has (h : term.Lexical) {length : Length}
    (hlength : term.HasLength length) : length.Lexical := by
  induction hlength with
  | field =>
    cases h with
    | field _ hlength => exact hlength _ rfl
  | list =>
    cases h with
    | list _ _ hlength => exact hlength _ rfl
  | element he _ ih =>
    cases h with
    | list _ helements _ => exact ih (helements _ he)

end

/-- **What integers stand for.**  In a layout that was read, the value of every
integer, be it a constant or a length, is the number that its digits denote in
the base that it announces, if that number is below 2^64.  Otherwise, and for
no other reason, it has no value; and zeros in front of the digits, however
many, change nothing. -/
theorem integer_values (source : List UInt8) (layout : Layout)
    (h : (Intake.standard.read (.ofBytes source)).layout = .ok layout) :
    ∀ term ∈ layout.terms,
      (∀ text, term.HasLiteral (.integer text) →
          IsValueOf text (Literal.integer text).value?)
        ∧ ∀ text, term.HasLength (.literal text) →
          IsValueOf text (Length.literal text).value? := by
  rw [Intake.layout_read_standard, Layout.ofBytes_eq_ok_iff] at h
  obtain ⟨ts, hspelled, hwritten⟩ := h
  intro term hterm
  have hlexical : term.Lexical :=
    (hwritten.wellFormed (fun t ht => hspelled.lexeme_of_mem ht) term hterm).lexical
  refine ⟨fun text htext => ?_, fun text htext => ?_⟩
  · exact IsInteger.isValueOf (hlexical.literal_of_has htext)
  · exact IsInteger.isValueOf (hlexical.length_of_has htext)

/-- The largest value, after more zeros than 64 bits have digits; and the number
after it, which has none. -/
theorem integer_values_at_limit :
    (Intake.standard.read (.ofBytes (Utf8.bytes
          "0x00000000000000000FFFFFFFFffffffff, n:18446744073709551616/integer"))).layout
        = .ok ⟨[.literal (.integer "0x00000000000000000FFFFFFFFffffffff"),
            .field "n" (some (.literal "18446744073709551616")) (some .integer)]⟩
      ∧ IsValueOf "0x00000000000000000FFFFFFFFffffffff" (some 18446744073709551615)
      ∧ IsValueOf "18446744073709551616" none := by
  have hread : (Intake.standard.read (.ofBytes (Utf8.bytes
        "0x00000000000000000FFFFFFFFffffffff, n:18446744073709551616/integer"))).layout
      = .ok ⟨[.literal (.integer "0x00000000000000000FFFFFFFFffffffff"),
          .field "n" (some (.literal "18446744073709551616")) (some .integer)]⟩ := by
    decide +kernel
  have hlargest : (Literal.integer "0x00000000000000000FFFFFFFFffffffff").value?
      = some 18446744073709551615 := by decide +kernel
  have hnext : (Length.literal "18446744073709551616").value? = none := by
    decide +kernel
  refine ⟨hread, ?_, ?_⟩
  · rw [← hlargest]
    exact (integer_values _ _ hread _ List.mem_cons_self).1 _ .literal
  · rw [← hnext]
    exact (integer_values _ _ hread _ (List.mem_cons_of_mem _ List.mem_cons_self)).2 _ .field

end ByteLayout
