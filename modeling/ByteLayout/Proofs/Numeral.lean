/-
  ByteLayout.Proofs.Numeral
  ─────────────────────────
  **NUMBERS TAKEN IN DIGIT BY DIGIT.**

  The digits of a text denote a number in a base (`Base.denoted`).  It is
  computed by a product and a sum for every digit, and all of these have to
  stay below a size.

  A number that does not stay below a size is not brought back below it by
  more digits, so the steps on the way refuse nothing that the number itself
  would not be refused for (`Base.foldlM_append?`).  So a text has a value
  below a size exactly if it is digits, with or without a plus sign in front,
  and the number that they denote is below it (`Base.numeralBelow?_eq_some_iff`).

  Integers have 64 bits for it, and the two digits of an escape have eight.
-/
import ByteLayout.Proofs.Lexeme
import Mathlib.Data.List.Induction
import Mathlib.Data.Nat.Digits.Defs

namespace ByteLayout

/-! ## §1. The number that digits denote. -/

namespace Base

variable {base : Base} {digits : List UInt8} {b : UInt8} {d n size : Nat}

/-- The number that digits of the base denote: the sum of their values, each
times a power of the radix, of which the exponent is how many digits come
after it. -/
def denoted (base : Base) (digits : List UInt8) : Nat :=
  Nat.ofDigits base.radix (digits.filterMap base.digit?).reverse

theorem radix_pos (base : Base) : 0 < base.radix := by
  cases base <;> decide

/-- The digits of a base are the bytes that have a value in it. -/
theorem isDigit_iff : base.IsDigit b ↔ ∃ d, base.digit? b = some d :=
  accepts_iff.symm.trans Option.isSome_iff_exists

/-- One digit more is one step of a multiplication and an addition. -/
theorem denoted_concat (hd : base.digit? b = some d) (digits : List UInt8) :
    base.denoted (digits ++ [b]) = base.denoted digits * base.radix + d := by
  unfold denoted
  rw [List.filterMap_append, List.filterMap_cons_some hd, List.filterMap_nil,
    List.reverse_append, List.reverse_singleton, List.singleton_append,
    Nat.ofDigits_cons, Nat.mul_comm, Nat.add_comm]

theorem denoted_singleton (hd : base.digit? b = some d) : base.denoted [b] = d := by
  have hstep := denoted_concat hd []
  rwa [show base.denoted [] = 0 from rfl, Nat.zero_mul, Nat.zero_add] at hstep

/-- Two digits denote the first of them times the base, and the second. -/
theorem denoted_pair {c : UInt8} {e : Nat} (hd : base.digit? b = some d)
    (he : base.digit? c = some e) : base.denoted [b, c] = d * base.radix + e := by
  rw [← denoted_singleton hd]
  exact denoted_concat he [b]

/-- Zeros in front of the digits add nothing. -/
theorem denoted_zeros_append (zeros : Nat) (digits : List UInt8) :
    base.denoted (List.replicate zeros '0'.toUInt8 ++ digits) = base.denoted digits := by
  have hzero : base.digit? '0'.toUInt8 = some 0 := by cases base <;> decide
  have hzeros : (List.replicate zeros '0'.toUInt8).filterMap base.digit?
      = List.replicate zeros 0 := List.filterMap_replicate_of_some hzero
  unfold denoted
  rw [List.filterMap_append, hzeros, List.reverse_append, List.reverse_replicate,
    Nat.ofDigits_append_replicate_zero]

/-! ## §2. Taking digits in below a size. -/

theorem fits?_of_lt (h : n < size) : fits? size n = some n :=
  if_pos h

theorem fits?_of_le (h : size ≤ n) : fits? size n = none :=
  if_neg (Nat.not_lt_of_le h)

/-- A number is let through exactly if it is below the size. -/
theorem fits?_eq_some_iff {m : Nat} : fits? size n = some m ↔ n = m ∧ m < size := by
  by_cases h : n < size
  · rw [fits?_of_lt h, Option.some.injEq]
    exact ⟨fun heq => ⟨heq, heq ▸ h⟩, And.left⟩
  · rw [fits?_of_le (Nat.le_of_not_lt h)]
    exact iff_of_false (nofun) (fun hm => h (hm.1 ▸ hm.2))

/-- A step is refused exactly if the sum does not fit: a product that does not
fit has no sum that does. -/
theorem append?_of_digit (hd : base.digit? b = some d) :
    base.append? size n b = fits? size (n * base.radix + d) := by
  unfold append?
  rw [hd]
  show (fits? size (n * base.radix)).bind (fun product => fits? size (product + d)) = _
  by_cases h : n * base.radix < size
  · rw [fits?_of_lt h]
    rfl
  · rw [fits?_of_le (by omega), fits?_of_le (by omega)]
    rfl

/-- A byte that is no digit is refused. -/
theorem append?_of_not_isDigit (h : ¬ base.IsDigit b) : base.append? size n b = none := by
  have hnone : base.digit? b = none := by
    rw [Option.eq_none_iff_forall_ne_some]
    exact fun d hd => h (isDigit_iff.2 ⟨d, hd⟩)
  unfold append?
  rw [hnone]
  rfl

/-- And so are bytes with one among them. -/
theorem foldlM_append?_of_not_isDigit (h : ¬ ∀ d ∈ digits, base.IsDigit d) (n : Nat) :
    digits.foldlM (base.append? size) n = none := by
  induction digits generalizing n with
  | nil => exact absurd (List.forall_mem_nil _) h
  | cons b bs ih =>
    rw [List.foldlM_cons]
    by_cases hb : base.IsDigit b
    · have hbs : ¬ ∀ d ∈ bs, base.IsDigit d :=
        fun hbs => h (List.forall_mem_cons.2 ⟨hb, hbs⟩)
      -- A number that does not fit ends it, too.
      cases base.append? size n b with
      | none => rfl
      | some m => exact ih hbs m
    · rw [append?_of_not_isDigit hb]
      rfl

/-- Digits are taken in exactly if the number that all of them denote fits.
The induction is on the last digit: a number that does not fit has not fitted
without that digit, or is refused with it. -/
theorem foldlM_append? (hsize : 0 < size) (hdigits : ∀ d ∈ digits, base.IsDigit d) :
    digits.foldlM (base.append? size) 0 = fits? size (base.denoted digits) := by
  induction digits using List.reverseRecOn with
  | nil => exact (fits?_of_lt hsize).symm
  | append_singleton digits b ih =>
    obtain ⟨hfront, hb⟩ := List.forall_mem_append.1 hdigits
    obtain ⟨d, hd⟩ := isDigit_iff.1 (hb b List.mem_cons_self)
    rw [List.foldlM_append, ih hfront, denoted_concat hd]
    simp only [List.foldlM_cons, List.foldlM_nil, bind_pure]
    by_cases h : base.denoted digits < size
    · rw [fits?_of_lt h]
      exact append?_of_digit hd
    · -- It has not fitted without the digit, and with the digit it is no
      -- smaller.
      have hle : base.denoted digits ≤ base.denoted digits * base.radix :=
        Nat.le_mul_of_pos_right _ base.radix_pos
      rw [fits?_of_le (by omega), fits?_of_le (by omega)]
      rfl

/-- A text has a value below a size if it is digits, one or more, and the number
that they denote is below the size; the value is that number. -/
theorem digitsBelow?_eq_some_iff {text : List UInt8} (hsize : 0 < size) :
    base.digitsBelow? size text = some n ↔
      text ≠ [] ∧ (∀ d ∈ text, base.IsDigit d) ∧ base.denoted text = n ∧ n < size := by
  cases text with
  | nil => exact iff_of_false nofun (fun h => h.1 rfl)
  | cons b bs =>
    show (b :: bs).foldlM (base.append? size) 0 = some n ↔ _
    by_cases hdigits : ∀ d ∈ b :: bs, base.IsDigit d
    · rw [foldlM_append? hsize hdigits, fits?_eq_some_iff]
      exact ⟨fun h => ⟨List.cons_ne_nil b bs, hdigits, h⟩, fun h => h.2.2⟩
    · rw [foldlM_append?_of_not_isDigit hdigits]
      exact iff_of_false nofun (fun h => hdigits h.2.1)

/-- No digit is a plus sign. -/
theorem IsDigit.ne_plus (h : base.IsDigit b) : b ≠ '+'.toUInt8 := by
  rintro rfl
  revert h
  cases base <;> decide

/-- One plus sign may come before the digits, and bears on nothing. -/
theorem numeralBelow?_eq_some_iff {text : List UInt8} (hsize : 0 < size) :
    base.numeralBelow? size text = some n ↔
      ∃ digits, (text = digits ∨ text = '+'.toUInt8 :: digits) ∧ digits ≠ []
        ∧ (∀ d ∈ digits, base.IsDigit d) ∧ base.denoted digits = n ∧ n < size := by
  cases text with
  | nil =>
    refine iff_of_false nofun ?_
    rintro ⟨digits, rfl | hcons, hne, -⟩
    · exact hne rfl
    · cases hcons
  | cons b bs =>
    by_cases hplus : b = '+'.toUInt8
    · -- The sign is passed over, and no digit could be taken for it.
      rw [numeralBelow?, if_pos hplus, digitsBelow?_eq_some_iff hsize]
      constructor
      · exact fun h => ⟨bs, .inr (congrArg (· :: bs) hplus), h⟩
      · rintro ⟨digits, rfl | hcons, h⟩
        · exact absurd hplus (h.2.1 b List.mem_cons_self).ne_plus
        · cases hcons
          exact h
    · rw [numeralBelow?, if_neg hplus, digitsBelow?_eq_some_iff hsize]
      constructor
      · exact fun h => ⟨b :: bs, .inl rfl, h⟩
      · rintro ⟨digits, rfl | hcons, h⟩
        · exact h
        · cases hcons
          exact absurd rfl hplus

/-- A text of digits has the number that they denote as its value, if that is
below the size. -/
theorem numeralBelow?_of_digits (hsize : 0 < size) (hne : digits ≠ [])
    (hdigits : ∀ d ∈ digits, base.IsDigit d) :
    base.numeralBelow? size digits = fits? size (base.denoted digits) := by
  rw [← foldlM_append? hsize hdigits]
  obtain ⟨b, bs, rfl⟩ := List.exists_cons_of_ne_nil hne
  exact if_neg (hdigits b List.mem_cons_self).ne_plus

end Base

end ByteLayout
