/-
  ByteLayout.Proofs.Escape
  ────────────────────────
  **WHAT THE BODY OF A STRING STANDS FOR.**

  A body is read from left to right: an escape at the front stands for one
  byte, and a byte that starts none stands for itself (`Escape.Reads`).  The
  escapes that are meant are `Escape.Proper`; decoding takes the `Escape.Signed`
  ones too, in which a plus sign stands in place of the first digit.

  Decoding is that reading (`Escape.reads_taken_iff`).  It is the reading that
  is meant exactly if no backslash that starts an escape has `x`, a plus sign
  and a digit after it (`Escape.reads_proper_decode_iff`).
-/
import ByteLayout.Layout.Value
import ByteLayout.Proofs.Numeral
import ByteLayout.Proofs.Quoted

namespace ByteLayout

namespace Escape

/-! ## §1. Readings from left to right. -/

/-- What bytes stand for, from left to right, where some stand for one byte
together: at the front of the bytes those are taken whole, and a byte that
starts none of them stands for itself. -/
inductive Reads (E : List UInt8 → UInt8 → Prop) : List UInt8 → List UInt8 → Prop
  | nil : Reads E [] []
  | escape {e rest bs ds : List UInt8} {d : UInt8} (he : E e d) (hbs : e ++ rest = bs)
    (hrest : Reads E rest ds) : Reads E bs (d :: ds)
  | byte {b : UInt8} {rest ds : List UInt8} (hb : ∀ e d, E e d → ¬ e <+: b :: rest)
    (hrest : Reads E rest ds) : Reads E (b :: rest) (b :: ds)

section

variable {E : List UInt8 → UInt8 → Prop} {e rest bs ds ds' : List UInt8} {b d : UInt8}

/-- Any bytes can be read by escapes of at least one byte: what begins no escape
stands for itself. -/
theorem exists_reads (hne : ∀ e d, E e d → e ≠ []) (bs : List UInt8) :
    ∃ ds, Reads E bs ds := by
  -- The induction is on the number of bytes: an escape may be of any length.
  induction hn : bs.length using Nat.strongRecOn generalizing bs with
  | ind n ih =>
    by_cases hfront : ∃ e d, E e d ∧ e <+: bs
    · obtain ⟨e, d, he, rest, rfl⟩ := hfront
      have hpos := List.length_pos_of_ne_nil (hne e d he)
      rw [List.length_append] at hn
      obtain ⟨ds, hds⟩ := ih rest.length (by omega) rest rfl
      exact ⟨d :: ds, .escape he rfl hds⟩
    · cases bs with
      | nil => exact ⟨[], .nil⟩
      | cons b rest =>
        obtain ⟨ds, hds⟩ := ih rest.length (by simp [← hn]) rest rfl
        exact ⟨b :: ds, .byte (fun e d he hpre => hfront ⟨e, d, he, hpre⟩) hds⟩

/-- No bytes begin with two escapes that differ, or that stand for different
bytes. -/
def Unambiguous (E : List UInt8 → UInt8 → Prop) : Prop :=
  ∀ {e e' : List UInt8} {d d' : UInt8} {rest rest' : List UInt8},
    E e d → E e' d' → e ++ rest = e' ++ rest' → d = d' ∧ rest = rest'

/-- There is one reading then. -/
theorem Reads.unique (hE : Unambiguous E) (hne : ∀ e d, E e d → e ≠ [])
    (h : Reads E bs ds) (h' : Reads E bs ds') : ds = ds' := by
  induction h generalizing ds' with
  | nil =>
    cases h' with
    | nil => rfl
    | escape he hbs _ => exact absurd (List.append_eq_nil_iff.1 hbs).1 (hne _ _ he)
  -- Two escapes at the front are the same, and neither is passed over.
  | escape he hbs _ ih =>
    cases h' with
    | nil => exact absurd (List.append_eq_nil_iff.1 hbs).1 (hne _ _ he)
    | escape he' hbs' hrest' =>
      obtain ⟨rfl, rfl⟩ := hE he he' (hbs.trans hbs'.symm)
      rw [ih hrest']
    | byte hb _ => exact absurd ⟨_, hbs⟩ (hb _ _ he)
  | byte hb _ ih =>
    cases h' with
    | escape he' hbs' _ => exact absurd ⟨_, hbs'⟩ (hb _ _ he')
    | byte _ hrest' => rw [ih hrest']

/-- What is read after an escape at the front. -/
theorem reads_append_iff (hE : Unambiguous E) (he : E e d) :
    Reads E (e ++ rest) (d :: ds) ↔ Reads E rest ds := by
  refine ⟨fun h => ?_, .escape he rfl⟩
  generalize hbs : e ++ rest = bs at h
  cases h with
  | escape he' hbs' hrest =>
    obtain ⟨-, rfl⟩ := hE he he' (hbs.trans hbs'.symm)
    exact hrest
  | byte hb _ => exact absurd ⟨rest, hbs⟩ (hb e d he)

/-- What is read after a byte that starts none. -/
theorem reads_cons_iff (hb : ∀ e d, E e d → ¬ e <+: b :: rest) :
    Reads E (b :: rest) (b :: ds) ↔ Reads E rest ds := by
  refine ⟨fun h => ?_, .byte hb⟩
  cases h with
  | escape he hbs _ => exact absurd ⟨_, hbs⟩ (hb _ _ he)
  | byte _ hrest => exact hrest

end

/-! ## §2. Escapes. -/

/-- The escapes with one byte after the backslash, and what they stand for. -/
def singles : List (UInt8 × UInt8) :=
  [('n'.toUInt8, '\n'.toUInt8), ('r'.toUInt8, '\r'.toUInt8), ('t'.toUInt8, '\t'.toUInt8),
    ('0'.toUInt8, 0), (backslash, backslash), (quotationMark, quotationMark)]

/-- The escapes that are meant: those with one byte, and an `x` with two digits
of base sixteen. -/
inductive Proper : List UInt8 → UInt8 → Prop
  | single {c d : UInt8} (h : (c, d) ∈ singles) : Proper [backslash, c] d
  | pair {high low : UInt8} {m n : Nat} (hhigh : Base.hexDigit? high = some m)
    (hlow : Base.hexDigit? low = some n) :
    Proper [backslash, 'x'.toUInt8, high, low] (UInt8.ofNat (16 * m + n))

/-- An `x` with a plus sign and one digit. -/
inductive Signed : List UInt8 → UInt8 → Prop
  | pair {low : UInt8} {n : Nat} (hlow : Base.hexDigit? low = some n) :
    Signed [backslash, 'x'.toUInt8, '+'.toUInt8, low] (UInt8.ofNat n)

/-- The escapes that decoding takes. -/
def Taken (e : List UInt8) (d : UInt8) : Prop :=
  Proper e d ∨ Signed e d

/-- Every escape begins with a backslash. -/
theorem Taken.exists_cons {e : List UInt8} {d : UInt8} (h : Taken e d) :
    ∃ es, e = backslash :: es := by
  rcases h with h | h <;> cases h <;> exact ⟨_, rfl⟩

section

variable {bs rest : List UInt8} {c d high low : UInt8}

/-- The escapes of one byte are those in the table. -/
theorem single?_eq_some_iff : single? c = some d ↔ (c, d) ∈ singles := by
  simp only [singles, List.mem_cons, Prod.mk.injEq, List.not_mem_nil, or_false]
  constructor
  · intro h
    unfold single? at h
    repeat' split at h
    all_goals cases h
    all_goals simp_all
  · rintro (⟨rfl, rfl⟩ | ⟨rfl, rfl⟩ | ⟨rfl, rfl⟩ | ⟨rfl, rfl⟩ | ⟨rfl, rfl⟩ | ⟨rfl, rfl⟩) <;> rfl

/-- The two readings of a digit of base sixteen are the same, over all bytes. -/
theorem hexadecimal_digit?_eq (b : UInt8) :
    Base.hexadecimal.digit? b = Base.hexDigit? b := by
  revert b
  apply ByteClass.forall_byte
  decide +kernel

theorem hexDigit?_plus : Base.hexDigit? '+'.toUInt8 = none := by decide

/-- A digit of base sixteen is below 16. -/
theorem hexDigit?_lt {b : UInt8} {n : Nat} (h : Base.hexDigit? b = some n) : n < 16 := by
  have hbound : ∀ b : UInt8, ∀ n ∈ Base.hexDigit? b, n < 16 := by
    apply ByteClass.forall_byte
    decide +kernel
  exact hbound b n h

/-- Two digits of base sixteen denote a number below 256, and one is below 16. -/
theorem denoted_high_low {m n : Nat} (hm : Base.hexDigit? high = some m)
    (hn : Base.hexDigit? low = some n) :
    Base.hexadecimal.denoted [high, low] = 16 * m + n := by
  rw [← hexadecimal_digit?_eq] at hm hn
  rw [Base.denoted_pair hm hn, Nat.mul_comm]
  rfl

theorem denoted_low {n : Nat} (hn : Base.hexDigit? low = some n) :
    Base.hexadecimal.denoted [low] = n :=
  Base.denoted_singleton ((hexadecimal_digit?_eq low).trans hn)

/-- Two bytes after the `x` are two digits, or a plus sign and a digit. -/
theorem pair?_eq_some_iff :
    pair? high low = some d ↔
      (∃ m n, Base.hexDigit? high = some m ∧ Base.hexDigit? low = some n
          ∧ d = UInt8.ofNat (16 * m + n))
        ∨ high = '+'.toUInt8 ∧ ∃ n, Base.hexDigit? low = some n ∧ d = UInt8.ofNat n := by
  have hsize : 0 < UInt8.size := by decide
  have hdigit (b : UInt8) : Base.hexadecimal.IsDigit b ↔ ∃ n, Base.hexDigit? b = some n := by
    rw [Base.isDigit_iff, hexadecimal_digit?_eq]
  rw [pair?, Option.map_eq_some_iff]
  simp only [Base.numeralBelow?_eq_some_iff hsize]
  constructor
  · rintro ⟨value, ⟨digits, htext, -, hdigits, rfl, -⟩, rfl⟩
    -- The two bytes are the digits themselves, or a sign and one digit.
    rcases htext with rfl | hplus
    · obtain ⟨m, hm⟩ := (hdigit high).1 (hdigits high List.mem_cons_self)
      obtain ⟨n, hn⟩ := (hdigit low).1 (hdigits low (List.mem_cons_of_mem _ List.mem_cons_self))
      exact .inl ⟨m, n, hm, hn, congrArg UInt8.ofNat (denoted_high_low hm hn)⟩
    · cases hplus
      obtain ⟨n, hn⟩ := (hdigit low).1 (hdigits low List.mem_cons_self)
      exact .inr ⟨rfl, n, hn, congrArg UInt8.ofNat (denoted_low hn)⟩
  · rintro (⟨m, n, hm, hn, rfl⟩ | ⟨rfl, n, hn, rfl⟩)
    · -- Two digits make no number beyond a byte, so that no check fails.
      have hlt := hexDigit?_lt hm
      have hlt' := hexDigit?_lt hn
      refine ⟨16 * m + n, ⟨[high, low], .inl rfl, List.cons_ne_nil _ _, ?_,
        denoted_high_low hm hn, show 16 * m + n < 256 by omega⟩, rfl⟩
      exact List.forall_mem_cons.2
        ⟨(hdigit high).2 ⟨m, hm⟩, List.forall_mem_singleton.2 ((hdigit low).2 ⟨n, hn⟩)⟩
    · have hlt := hexDigit?_lt hn
      refine ⟨n, ⟨[low], .inr rfl, List.cons_ne_nil _ _, ?_, denoted_low hn,
        show n < 256 by omega⟩, rfl⟩
      exact List.forall_mem_singleton.2 ((hdigit low).2 ⟨n, hn⟩)

/-- An escape of one byte is found whatever comes after it. -/
theorem escape?_of_single (h : single? c = some d) (rest : List UInt8) :
    escape? (c :: rest) = some (d, rest) := by
  simp only [escape?, h]

/-- An `x` takes the two bytes after it, if they make a number. -/
theorem escape?_pair (high low : UInt8) (rest : List UInt8) :
    escape? ('x'.toUInt8 :: high :: low :: rest) = (pair? high low).map (·, rest) := by
  have hx : single? 'x'.toUInt8 = none := by decide
  simp [escape?, hx]

/-- After a backslash an escape is found exactly if the bytes from it on begin
with one. -/
theorem escape?_eq_some_iff :
    escape? bs = some (d, rest) ↔ ∃ e, Taken e d ∧ e ++ rest = backslash :: bs := by
  constructor
  · intro h
    cases bs with
    | nil => cases h
    | cons c bs =>
      cases hc : single? c with
      | some b =>
        cases (escape?_of_single hc bs).symm.trans h
        exact ⟨_, .inl (.single (single?_eq_some_iff.1 hc)), rfl⟩
      | none =>
        -- Only an `x` with two bytes after it is left.
        simp only [escape?, hc] at h
        split at h
        · next high low rest' =>
          split at h
          · next hx =>
            subst hx
            obtain ⟨b, hb, hrest⟩ := Option.map_eq_some_iff.1 h
            cases hrest
            rcases pair?_eq_some_iff.1 hb with ⟨m, n, hhigh, hlow, rfl⟩ | ⟨rfl, n, hlow, rfl⟩
            · exact ⟨_, .inl (.pair hhigh hlow), rfl⟩
            · exact ⟨_, .inr (.pair hlow), rfl⟩
          · cases h
        · cases h
  · rintro ⟨e, he, hbs⟩
    rcases he with he | he
    · cases he with
      | single h =>
        cases hbs
        exact escape?_of_single (single?_eq_some_iff.2 h) rest
      | pair hhigh hlow =>
        cases hbs
        refine (escape?_pair _ _ rest).trans ?_
        rw [pair?_eq_some_iff.2 (.inl ⟨_, _, hhigh, hlow, rfl⟩)]
        rfl
    · cases he with
      | pair hlow =>
        cases hbs
        refine (escape?_pair _ _ rest).trans ?_
        rw [pair?_eq_some_iff.2 (.inr ⟨rfl, _, hlow, rfl⟩)]
        rfl

/-- No escape that decoding takes is the beginning of another one. -/
theorem unambiguous_taken : Unambiguous Taken := by
  intro e e' d d' rest rest' h h' hbs
  obtain ⟨es, rfl⟩ := h.exists_cons
  have hfirst : escape? (es ++ rest) = some (d, rest) :=
    escape?_eq_some_iff.2 ⟨_, h, rfl⟩
  have hsecond : escape? (es ++ rest) = some (d', rest') :=
    escape?_eq_some_iff.2 ⟨_, h', hbs.symm⟩
  cases hfirst.symm.trans hsecond
  exact ⟨rfl, rfl⟩

/-- So neither is one of those that are meant. -/
theorem unambiguous_proper : Unambiguous Proper :=
  fun h h' hbs => unambiguous_taken (.inl h) (.inl h') hbs

theorem Taken.ne_nil {e : List UInt8} (h : Taken e d) : e ≠ [] := by
  obtain ⟨es, rfl⟩ := h.exists_cons
  exact List.cons_ne_nil _ _

theorem Proper.ne_nil {e : List UInt8} (h : Proper e d) : e ≠ [] :=
  Taken.ne_nil (.inl h)

theorem Signed.ne_nil {e : List UInt8} (h : Signed e d) : e ≠ [] :=
  Taken.ne_nil (.inr h)

/-! ## §3. Decoding is the reading of the escapes that it takes. -/

/-- A byte other than the backslash is decoded as itself. -/
theorem decode_of_ne {b : UInt8} (hb : b ≠ backslash) (bs : List UInt8) :
    decode (b :: bs) = b :: decode bs := by
  rw [decode, if_neg hb]

/-- An escape is decoded as the byte that it stands for. -/
theorem decode_of_escape (h : escape? bs = some (d, rest)) :
    decode (backslash :: bs) = d :: decode rest := by
  rw [decode, if_pos rfl]
  split <;> simp_all

/-- A backslash that begins no escape is decoded as itself. -/
theorem decode_of_none (h : escape? bs = none) :
    decode (backslash :: bs) = backslash :: decode bs := by
  rw [decode, if_pos rfl]
  split <;> simp_all

/-- Only a backslash starts an escape. -/
theorem not_prefix_of_ne {b : UInt8} {e : List UInt8} (hb : b ≠ backslash)
    (he : Taken e d) : ¬ e <+: b :: bs := by
  rintro ⟨rest, hrest⟩
  obtain ⟨es, rfl⟩ := he.exists_cons
  exact hb (List.cons.inj hrest).1.symm

/-- Where none is found, none that decoding takes is there. -/
theorem not_prefix_of_none {e : List UInt8} (h : escape? bs = none) (he : Taken e d) :
    ¬ e <+: backslash :: bs := by
  rintro ⟨rest, hrest⟩
  cases h.symm.trans (escape?_eq_some_iff.2 ⟨e, he, hrest⟩)

/-- Decoding reads from left to right by the escapes that it takes. -/
theorem reads_taken_decode (bs : List UInt8) : Reads Taken bs (decode bs) := by
  -- The cases are those of decoding: no bytes, an escape, a backslash that
  -- begins none, and any other byte.
  induction bs using decode.induct with
  | case1 =>
    rw [decode]
    exact .nil
  | case2 bs d rest h ih =>
    rw [decode_of_escape h]
    obtain ⟨e, he, hbs⟩ := escape?_eq_some_iff.1 h
    exact .escape he hbs ih
  | case3 bs h ih =>
    rw [decode_of_none h]
    exact .byte (fun e d he => not_prefix_of_none h he) ih
  | case4 b bs hb ih =>
    rw [decode_of_ne hb]
    exact .byte (fun e d he => not_prefix_of_ne hb he) ih

/-- And there is no other such reading. -/
theorem reads_taken_iff {ds : List UInt8} : Reads Taken bs ds ↔ ds = decode bs := by
  refine ⟨fun h => ?_, fun h => h ▸ reads_taken_decode bs⟩
  exact h.unique unambiguous_taken (fun _ _ he => he.ne_nil) (reads_taken_decode bs)

/-! ## §4. Where decoding is the reading that is meant. -/

/-- Somewhere in the bytes a backslash that is not itself escaped has an `x`, a
plus sign and a digit of base sixteen after it. -/
def HasSigned (bs : List UInt8) : Prop :=
  ∃ front e d rest, bs = front ++ (e ++ rest) ∧ ¬ Escapes front ∧ Signed e d

/-- The same after bytes that leave the next byte escaped, or not. -/
def HasSignedAfter (escaping : Bool) (bs : List UInt8) : Prop :=
  ∃ front e d rest, bs = front ++ (e ++ rest)
    ∧ front.foldl (fun escaping b => !escaping && b = backslash) escaping = false
    ∧ Signed e d

/-- A body begins after no backslash. -/
theorem hasSigned_iff : HasSigned bs ↔ HasSignedAfter false bs := by
  simp only [HasSigned, HasSignedAfter, Escapes, Bool.not_eq_true]

theorem not_hasSignedAfter_nil (escaping : Bool) : ¬ HasSignedAfter escaping [] := by
  rintro ⟨front, e, d, rest, hnil, -, he⟩
  exact he.ne_nil (List.append_eq_nil_iff.1 (List.append_eq_nil_iff.1 hnil.symm).2).1

/-- Such an escape stands at the front of the bytes, or after the first of
them. -/
theorem hasSignedAfter_cons_iff {escaping : Bool} {b : UInt8} :
    HasSignedAfter escaping (b :: bs) ↔
      (escaping = false ∧ ∃ e d, Signed e d ∧ e <+: b :: bs)
        ∨ HasSignedAfter (!escaping && b = backslash) bs := by
  constructor
  · rintro ⟨front, e, d, rest, hbs, hfront, he⟩
    cases front with
    | nil => exact .inl ⟨hfront, e, d, he, rest, hbs.symm⟩
    | cons c front =>
      obtain ⟨rfl, hrest⟩ := List.cons.inj hbs
      exact .inr ⟨front, e, d, rest, hrest, hfront, he⟩
  · rintro (⟨rfl, e, d, he, rest, hbs⟩ | ⟨front, e, d, rest, rfl, hfront, he⟩)
    · exact ⟨[], e, d, rest, hbs.symm, rfl, he⟩
    · exact ⟨b :: front, e, d, rest, rfl, hfront, he⟩

/-- An escaped byte is passed over. -/
theorem hasSignedAfter_true_cons (b : UInt8) :
    HasSignedAfter true (b :: bs) ↔ HasSignedAfter false bs := by
  rw [hasSignedAfter_cons_iff]
  simp

/-- So is a byte that is no backslash. -/
theorem hasSignedAfter_cons_of_ne {b : UInt8} (hb : b ≠ backslash) :
    HasSignedAfter false (b :: bs) ↔ HasSignedAfter false bs := by
  rw [hasSignedAfter_cons_iff, Bool.not_false, Bool.true_and, decide_eq_false hb]
  refine or_iff_right (fun h => ?_)
  obtain ⟨-, e, d, he, hpre⟩ := h
  exact not_prefix_of_ne hb (.inr he) hpre

/-- After a backslash the next byte is escaped, if there is none of these
escapes at the front. -/
theorem hasSignedAfter_backslash (h : ∀ e d, Signed e d → ¬ e <+: backslash :: bs) :
    HasSignedAfter false (backslash :: bs) ↔ HasSignedAfter true bs := by
  rw [hasSignedAfter_cons_iff, Bool.not_false, Bool.true_and, decide_eq_true rfl]
  refine or_iff_right (fun h' => ?_)
  obtain ⟨-, e, d, he, hpre⟩ := h'
  exact h e d he hpre

/-- No escape is both. -/
theorem Proper.not_signed {e : List UInt8} {d' : UInt8} (h : Proper e d) :
    ¬ Signed e d' := by
  intro h'
  cases h with
  | single => cases h'
  | pair hhigh _ =>
    cases h'
    cases hexDigit?_plus.symm.trans hhigh

/-- Where an escape is that is meant, none with a sign begins. -/
theorem Proper.not_prefix_of_signed {e e' : List UInt8} {d' : UInt8} (h : Proper e d)
    (h' : Signed e' d') : ¬ e' <+: e ++ rest := by
  rintro ⟨rest', hrest⟩
  obtain ⟨rfl, rfl⟩ := unambiguous_taken (.inl h) (.inr h') hrest.symm
  exact h.not_signed (List.append_cancel_right hrest ▸ h')

theorem ne_backslash_of_hexDigit? {b : UInt8} {n : Nat} (h : Base.hexDigit? b = some n) :
    b ≠ backslash := by
  rintro rfl
  cases h

/-- An escape that is meant is passed over as a whole. -/
theorem hasSigned_append_iff {e : List UInt8} (he : Proper e d) :
    HasSigned (e ++ rest) ↔ HasSigned rest := by
  have hfront (e' : List UInt8) (d' : UInt8) (he' : Signed e' d') : ¬ e' <+: e ++ rest :=
    he.not_prefix_of_signed he'
  rw [hasSigned_iff, hasSigned_iff]
  cases he with
  | single h => exact (hasSignedAfter_backslash hfront).trans (hasSignedAfter_true_cons _)
  | pair hhigh hlow =>
    exact (hasSignedAfter_backslash hfront).trans
      ((hasSignedAfter_true_cons _).trans
        ((hasSignedAfter_cons_of_ne (ne_backslash_of_hexDigit? hhigh)).trans
          (hasSignedAfter_cons_of_ne (ne_backslash_of_hexDigit? hlow))))

/-- So is a backslash that starts no escape: the byte after it is no
backslash. -/
theorem hasSigned_cons_of_none (h : escape? bs = none) :
    HasSigned (backslash :: bs) ↔ HasSigned bs := by
  rw [hasSigned_iff, hasSigned_iff,
    hasSignedAfter_backslash (fun e d he => not_prefix_of_none h (.inr he))]
  cases bs with
  | nil => exact iff_of_false (not_hasSignedAfter_nil _) (not_hasSignedAfter_nil _)
  | cons c bs =>
    have hc : c ≠ backslash := by
      rintro rfl
      cases h
    rw [hasSignedAfter_true_cons, hasSignedAfter_cons_of_ne hc]

/-- An escape with a plus sign never stands for a backslash. -/
theorem Signed.ne_backslash {e : List UInt8} (h : Signed e d) : d ≠ backslash := by
  cases h with
  | @pair low n hlow =>
    have hall : ∀ low : UInt8, ∀ n ∈ Base.hexDigit? low, UInt8.ofNat n ≠ backslash :=
      ByteClass.forall_byte (by decide +kernel)
    exact hall low n hlow

/-- **Decoding is the reading that is meant exactly if no unescaped backslash
has an `x`, a plus sign and a digit after it.** -/
theorem reads_proper_decode_iff (bs : List UInt8) :
    Reads Proper bs (decode bs) ↔ ¬ HasSigned bs := by
  induction bs using decode.induct with
  | case1 =>
    rw [decode, hasSigned_iff]
    exact iff_of_true .nil (not_hasSignedAfter_nil false)
  | case2 bs d rest h ih =>
    obtain ⟨e, he, hbs⟩ := escape?_eq_some_iff.1 h
    rw [decode_of_escape h]
    -- An escape that is meant is read alike; one with a sign is not.
    rcases he with he | he
    · rw [← hbs, reads_append_iff unambiguous_proper he, hasSigned_append_iff he, ih]
    · -- The reading that is meant has the backslash here.
      refine iff_of_false (fun hreads => ?_) (fun hnot => hnot ⟨[], e, d, rest, ?_⟩)
      · cases hreads with
        | escape he' hbs' _ => exact he'.not_prefix_of_signed he ⟨rest, hbs.trans hbs'.symm⟩
        | byte _ _ => exact he.ne_backslash rfl
      · exact ⟨hbs.symm, by simp, he⟩
  | case3 bs h ih =>
    rw [decode_of_none h, hasSigned_cons_of_none h, ← ih]
    exact reads_cons_iff (fun e d he => not_prefix_of_none h (.inl he))
  | case4 b bs hb ih =>
    rw [decode_of_ne hb, hasSigned_iff, hasSignedAfter_cons_of_ne hb, ← hasSigned_iff, ← ih]
    exact reads_cons_iff (fun e d he => not_prefix_of_ne hb (.inl he))

end

end Escape

/-! ## §5. The bytes of a string constant. -/

/-- The body of a string is what stands between its quotation marks. -/
theorem Literal.body?_quoted (body : String) :
    (Literal.string ("\x22" ++ body ++ "\x22")).body? = some body := by
  simp [body?]

/-- The bytes of a string constant are its body, decoded. -/
theorem Literal.data?_quoted (body : String) :
    (Literal.string ("\x22" ++ body ++ "\x22")).data?
      = some (Escape.decode (Utf8.bytes body)) := by
  rw [data?, body?_quoted]
  rfl

/-- **What a string stands for.**  A body between quotation marks stands for
the bytes that are read with the escapes taken.  There is one reading with the
escapes that are meant, and it is this one exactly if no unescaped backslash
in the body has an `x`, a plus sign and a digit after it. -/
theorem string_data (body : String) :
    ∃ data documented : List UInt8,
      (Literal.string ("\x22" ++ body ++ "\x22")).data? = some data
        ∧ (∀ ds, Escape.Reads Escape.Taken (Utf8.bytes body) ds ↔ ds = data)
        ∧ (∀ ds, Escape.Reads Escape.Proper (Utf8.bytes body) ds ↔ ds = documented)
        ∧ (data = documented ↔ ¬ Escape.HasSigned (Utf8.bytes body)) := by
  have hne (e : List UInt8) (d : UInt8) (he : Escape.Proper e d) : e ≠ [] := he.ne_nil
  obtain ⟨documented, hreads⟩ := Escape.exists_reads hne (Utf8.bytes body)
  have hdocumented (ds : List UInt8) :
      Escape.Reads Escape.Proper (Utf8.bytes body) ds ↔ ds = documented :=
    ⟨fun h => h.unique Escape.unambiguous_proper hne hreads, fun h => h ▸ hreads⟩
  refine ⟨Escape.decode (Utf8.bytes body), documented, Literal.data?_quoted body,
    fun ds => Escape.reads_taken_iff, hdocumented, ?_⟩
  rw [← hdocumented]
  exact Escape.reads_proper_decode_iff _

/-- The shortest body in which they differ is meant to stand for its own four
bytes, and stands for one. -/
theorem plus_sign_decoded :
    Escape.Reads Escape.Proper (Utf8.bytes "\x5cx+f") (Utf8.bytes "\x5cx+f")
      ∧ (Literal.string "\x22\x5cx+f\x22").data? = some [0x0F]
      ∧ ¬ Escape.Reads Escape.Proper (Utf8.bytes "\x5cx+f") [0x0F] := by
  have hsigned : Escape.Signed (Utf8.bytes "\x5cx+f") 0x0F := .pair (n := 15) rfl
  have hmeant : Escape.Reads Escape.Proper (Utf8.bytes "\x5cx+f") (Utf8.bytes "\x5cx+f") := by
    refine .byte (fun e d he hpre => ?_) (.byte ?_ (.byte ?_ (.byte ?_ .nil)))
    · obtain ⟨rest, hrest⟩ := hpre
      exact he.not_prefix_of_signed hsigned ⟨[], (List.append_nil _).trans hrest.symm⟩
    all_goals exact fun e d he => Escape.not_prefix_of_ne (by decide) (.inl he)
  refine ⟨hmeant, by decide +kernel, fun h => ?_⟩
  have hsame := h.unique Escape.unambiguous_proper (fun _ _ he => he.ne_nil) hmeant
  exact absurd hsame (by decide +kernel)

end ByteLayout
