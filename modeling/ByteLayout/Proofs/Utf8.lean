/-
  ByteLayout.Proofs.Utf8
  ──────────────────────
  **THE LONGEST TEXT AT THE FRONT OF BYTES.**

  Bytes are cut into pieces by the ranges in which the bytes after a lead byte
  lie.  This module ties those ranges to the encoding of characters:

      a character    is a lead byte and one byte in each of its ranges
                     (`isWhole_encode`)
      such bytes     are those of a character (`IsWhole.exists_char`)

  A piece that is a character therefore stands at the front of the bytes
  exactly if they begin with a character.  The main result is that the bytes
  before the first broken piece are the longest text at the front
  (`isGreatest_validLength`).
-/
import ByteLayout.Text.Utf8
import Mathlib.Data.List.Forall2
import Mathlib.Order.Bounds.Basic

namespace ByteLayout.Utf8

/-! ## §1. Lead bytes. -/

section

variable {lead : UInt8}

/-- A range holds the bytes whose numbers are between its bounds. -/
theorem Range.holds_iff {low high b : UInt8} :
    Range.holds ⟨low, high⟩ b ↔ low.toNat ≤ b.toNat ∧ b.toNat ≤ high.toNat := by
  simp [Range.holds, UInt8.le_iff_toNat_le]

theorem Range.continuation_holds_iff {b : UInt8} :
    Range.continuation.holds b ↔ 0x80 ≤ b.toNat ∧ b.toNat ≤ 0xBF :=
  Range.holds_iff

/-- The ranges after a lead byte, by its number. -/
theorem after?_eq (lead : UInt8) :
    after? lead =
      if lead.toNat < 0x80 then some []
      else if lead.toNat < 0xC2 then none
      else if lead.toNat < 0xE0 then some [.continuation]
      else if lead.toNat = 0xE0 then some [⟨0xA0, 0xBF⟩, .continuation]
      else if lead.toNat = 0xED then some [⟨0x80, 0x9F⟩, .continuation]
      else if lead.toNat < 0xF0 then some [.continuation, .continuation]
      else if lead.toNat = 0xF0 then some [⟨0x90, 0xBF⟩, .continuation, .continuation]
      else if lead.toNat < 0xF4 then some [.continuation, .continuation, .continuation]
      else if lead.toNat = 0xF4 then some [⟨0x80, 0x8F⟩, .continuation, .continuation]
      else none := by
  simp only [after?, UInt8.lt_iff_toNat_lt, ← UInt8.toNat_inj, UInt8.toNat_ofNat]

/-- Two bytes after the lead byte, the first of them narrowed. -/
theorem exists_after?_of_three (h : 0xE0 ≤ lead.toNat ∧ lead.toNat < 0xF0) :
    ∃ r, after? lead = some [r, .continuation] ∧ ∀ b, r.holds b ↔
      (0x80 ≤ b.toNat ∧ b.toNat ≤ 0xBF) ∧ (lead.toNat = 0xE0 → 0xA0 ≤ b.toNat)
        ∧ (lead.toNat = 0xED → b.toNat ≤ 0x9F) := by
  rw [after?_eq, if_neg (by omega), if_neg (by omega), if_neg (by omega)]
  split
  · refine ⟨_, rfl, fun b => Range.holds_iff.trans ?_⟩
    show 0xA0 ≤ b.toNat ∧ b.toNat ≤ 0xBF ↔ _
    omega
  · split
    · refine ⟨_, rfl, fun b => Range.holds_iff.trans ?_⟩
      show 0x80 ≤ b.toNat ∧ b.toNat ≤ 0x9F ↔ _
      omega
    · refine ⟨.continuation, if_pos h.2, fun b => ?_⟩
      rw [Range.continuation_holds_iff]
      omega

/-- Three bytes after the lead byte, the first of them narrowed. -/
theorem exists_after?_of_four (h : 0xF0 ≤ lead.toNat ∧ lead.toNat ≤ 0xF4) :
    ∃ r, after? lead = some [r, .continuation, .continuation] ∧ ∀ b, r.holds b ↔
      (0x80 ≤ b.toNat ∧ b.toNat ≤ 0xBF) ∧ (lead.toNat = 0xF0 → 0x90 ≤ b.toNat)
        ∧ (lead.toNat = 0xF4 → b.toNat ≤ 0x8F) := by
  rw [after?_eq, if_neg (by omega), if_neg (by omega), if_neg (by omega),
    if_neg (by omega), if_neg (by omega), if_neg (by omega)]
  split
  · refine ⟨_, rfl, fun b => Range.holds_iff.trans ?_⟩
    show 0x90 ≤ b.toNat ∧ b.toNat ≤ 0xBF ↔ _
    omega
  · split
    · refine ⟨.continuation, rfl, fun b => ?_⟩
      rw [Range.continuation_holds_iff]
      omega
    · refine ⟨_, if_pos (by omega), fun b => Range.holds_iff.trans ?_⟩
      show 0x80 ≤ b.toNat ∧ b.toNat ≤ 0x8F ↔ _
      omega

/-- A byte below 128 is a character by itself. -/
theorem after?_of_one (h : lead.toNat < 0x80) : after? lead = some [] := by
  rw [after?_eq, if_pos h]

theorem after?_of_two (h : 0xC2 ≤ lead.toNat ∧ lead.toNat < 0xE0) :
    after? lead = some [.continuation] := by
  rw [after?_eq, if_neg (by omega), if_neg (by omega), if_pos h.2]

/-- Bytes that continue a character lead none, nor do those that no character
needs. -/
theorem after?_of_none (h : (0x80 ≤ lead.toNat ∧ lead.toNat < 0xC2) ∨ 0xF4 < lead.toNat) :
    after? lead = none := by
  rw [after?_eq]
  repeat' split
  all_goals first | omega | rfl

/-- No other lead byte starts a character. -/
theorem after?_ranges {due : List Range} (h : after? lead = some due) :
    lead.toNat < 0x80 ∨ (0xC2 ≤ lead.toNat ∧ lead.toNat < 0xE0)
      ∨ (0xE0 ≤ lead.toNat ∧ lead.toNat < 0xF0)
      ∨ (0xF0 ≤ lead.toNat ∧ lead.toNat ≤ 0xF4) := by
  by_contra hnot
  rw [after?_of_none (by omega)] at h
  cases h

end

/-! ## §2. Characters. -/

/-- The bytes are a lead byte and one byte in each of its ranges. -/
def IsWhole (bs : List UInt8) : Prop :=
  ∃ lead others due, bs = lead :: others ∧ after? lead = some due
    ∧ List.Forall₂ (fun r b => r.holds b) due others

/-- The bytes of a character are of this form: the lead byte tells how many
there are, and the second byte is where short numbers, surrogates and numbers
that are too large would show. -/
theorem isWhole_encode (c : Char) : IsWhole (String.utf8EncodeChar c) := by
  have hvalid : c.val.toNat.isValidChar := c.valid
  unfold String.utf8EncodeChar
  generalize c.val.toNat = v at hvalid
  unfold Nat.isValidChar at hvalid
  have hbyte (n : Nat) (hn : n < 256) : (UInt8.ofNat n).toNat = n := by
    rw [UInt8.toNat_ofNat', Nat.mod_eq_of_lt hn]
  have hlast (n : Nat) : Range.continuation.holds (UInt8.ofNat (n % 64 + 128)) := by
    rw [Range.continuation_holds_iff, hbyte _ (by omega)]
    omega
  dsimp only
  split
  · -- One byte.
    exact ⟨_, _, _, rfl, after?_of_one (by rw [hbyte _ (by omega)]; omega), .nil⟩
  split
  · -- Two bytes; the lead byte carries the upper five bits.
    refine ⟨_, _, _, rfl, after?_of_two ?_, .cons (hlast v) .nil⟩
    rw [hbyte _ (by omega)]
    omega
  split
  · -- Three bytes; the second one is narrowed for short numbers and surrogates.
    have hlead := hbyte (v / 4096 % 16 + 224) (by omega)
    have hnext := hbyte (v / 64 % 64 + 128) (by omega)
    obtain ⟨r, hr, hholds⟩ :=
      @exists_after?_of_three (UInt8.ofNat (v / 4096 % 16 + 224)) (by omega)
    refine ⟨_, _, _, rfl, hr, .cons ((hholds _).2 ?_) (.cons (hlast v) .nil)⟩
    rw [hlead, hnext]
    omega
  · -- Four bytes; it is narrowed for short numbers and for those beyond the
    -- last.
    have hlead := hbyte (v / 262144 % 8 + 240) (by omega)
    have hnext := hbyte (v / 4096 % 64 + 128) (by omega)
    obtain ⟨r, hr, hholds⟩ :=
      @exists_after?_of_four (UInt8.ofNat (v / 262144 % 8 + 240)) (by omega)
    refine ⟨_, _, _, rfl, hr, .cons ((hholds _).2 ?_)
      (.cons (hlast _) (.cons (hlast v) .nil))⟩
    rw [hlead, hnext]
    omega

section

variable {lead b d f : UInt8}

/-- Every valid number is that of a character. -/
theorem exists_char_of_isValidChar {n : Nat} (h : n.isValidChar) :
    ∃ c : Char, c.val.toNat = n :=
  ⟨Char.ofNatAux n h, rfl⟩

theorem ofNat_eq_of_eq {n : Nat} (h : n = b.toNat) : UInt8.ofNat n = b := by
  rw [h, UInt8.ofNat_toNat]

/-- One byte, which is the number. -/
theorem exists_encode_of_one (h : lead.toNat < 0x80) :
    ∃ c, String.utf8EncodeChar c = [lead] := by
  obtain ⟨c, hc⟩ := exists_char_of_isValidChar (n := lead.toNat)
    (by unfold Nat.isValidChar; omega)
  refine ⟨c, ?_⟩
  simp only [String.utf8EncodeChar]
  rw [hc, if_pos (by omega), ofNat_eq_of_eq rfl]

/-- Two bytes: five bits of the lead byte, six of the other. -/
theorem exists_encode_of_two (h : 0xC2 ≤ lead.toNat ∧ lead.toNat < 0xE0)
    (hb : 0x80 ≤ b.toNat ∧ b.toNat ≤ 0xBF) :
    ∃ c, String.utf8EncodeChar c = [lead, b] := by
  obtain ⟨c, hc⟩ := exists_char_of_isValidChar
    (n := (lead.toNat - 0xC0) * 64 + (b.toNat - 0x80)) (by unfold Nat.isValidChar; omega)
  refine ⟨c, ?_⟩
  simp only [String.utf8EncodeChar]
  rw [hc, if_neg (by omega), if_pos (by omega), List.cons_eq_cons, List.cons_eq_cons]
  exact ⟨ofNat_eq_of_eq (by omega), ofNat_eq_of_eq (by omega), rfl⟩

/-- Three bytes; what narrows the second keeps the number from being short, or
a surrogate. -/
theorem exists_encode_of_three (h : 0xE0 ≤ lead.toNat ∧ lead.toNat < 0xF0)
    (hb : (0x80 ≤ b.toNat ∧ b.toNat ≤ 0xBF) ∧ (lead.toNat = 0xE0 → 0xA0 ≤ b.toNat)
      ∧ (lead.toNat = 0xED → b.toNat ≤ 0x9F))
    (hd : 0x80 ≤ d.toNat ∧ d.toNat ≤ 0xBF) :
    ∃ c, String.utf8EncodeChar c = [lead, b, d] := by
  obtain ⟨c, hc⟩ := exists_char_of_isValidChar
    (n := (lead.toNat - 0xE0) * 4096 + (b.toNat - 0x80) * 64 + (d.toNat - 0x80))
    (by unfold Nat.isValidChar; omega)
  refine ⟨c, ?_⟩
  simp only [String.utf8EncodeChar]
  rw [hc, if_neg (by omega), if_neg (by omega), if_pos (by omega), List.cons_eq_cons,
    List.cons_eq_cons, List.cons_eq_cons]
  exact ⟨ofNat_eq_of_eq (by omega), ofNat_eq_of_eq (by omega), ofNat_eq_of_eq (by omega), rfl⟩

/-- Four bytes; here it keeps the number from being short, or too large. -/
theorem exists_encode_of_four (h : 0xF0 ≤ lead.toNat ∧ lead.toNat ≤ 0xF4)
    (hb : (0x80 ≤ b.toNat ∧ b.toNat ≤ 0xBF) ∧ (lead.toNat = 0xF0 → 0x90 ≤ b.toNat)
      ∧ (lead.toNat = 0xF4 → b.toNat ≤ 0x8F))
    (hd : 0x80 ≤ d.toNat ∧ d.toNat ≤ 0xBF) (hf : 0x80 ≤ f.toNat ∧ f.toNat ≤ 0xBF) :
    ∃ c, String.utf8EncodeChar c = [lead, b, d, f] := by
  obtain ⟨c, hc⟩ := exists_char_of_isValidChar
    (n := (lead.toNat - 0xF0) * 262144 + (b.toNat - 0x80) * 4096
      + (d.toNat - 0x80) * 64 + (f.toNat - 0x80))
    (by unfold Nat.isValidChar; omega)
  refine ⟨c, ?_⟩
  simp only [String.utf8EncodeChar]
  rw [hc, if_neg (by omega), if_neg (by omega), if_neg (by omega), List.cons_eq_cons,
    List.cons_eq_cons, List.cons_eq_cons, List.cons_eq_cons]
  exact ⟨ofNat_eq_of_eq (by omega), ofNat_eq_of_eq (by omega), ofNat_eq_of_eq (by omega),
    ofNat_eq_of_eq (by omega), rfl⟩

end

/-- And bytes of this form are those of a character, whose number they make
together. -/
theorem IsWhole.exists_char {bs : List UInt8} (h : IsWhole bs) :
    ∃ c, String.utf8EncodeChar c = bs := by
  obtain ⟨lead, others, due, rfl, hdue, hothers⟩ := h
  -- The lead byte tells how many bytes there are.
  rcases after?_ranges hdue with hlead | hlead | hlead | hlead
  · cases (after?_of_one hlead).symm.trans hdue
    obtain rfl := List.forall₂_nil_left_iff.1 hothers
    exact exists_encode_of_one hlead
  · cases (after?_of_two hlead).symm.trans hdue
    obtain ⟨b, _, hb, hnil, rfl⟩ := List.forall₂_cons_left_iff.1 hothers
    obtain rfl := List.forall₂_nil_left_iff.1 hnil
    exact exists_encode_of_two hlead (Range.continuation_holds_iff.1 hb)
  · obtain ⟨r, hr, hholds⟩ := exists_after?_of_three hlead
    cases hr.symm.trans hdue
    obtain ⟨b, _, hb, hrest, rfl⟩ := List.forall₂_cons_left_iff.1 hothers
    obtain ⟨d, _, hd, hnil, rfl⟩ := List.forall₂_cons_left_iff.1 hrest
    obtain rfl := List.forall₂_nil_left_iff.1 hnil
    exact exists_encode_of_three hlead ((hholds b).1 hb) (Range.continuation_holds_iff.1 hd)
  · obtain ⟨r, hr, hholds⟩ := exists_after?_of_four hlead
    cases hr.symm.trans hdue
    obtain ⟨b, _, hb, hrest, rfl⟩ := List.forall₂_cons_left_iff.1 hothers
    obtain ⟨d, _, hd, hlast, rfl⟩ := List.forall₂_cons_left_iff.1 hrest
    obtain ⟨f, _, hf, hnil, rfl⟩ := List.forall₂_cons_left_iff.1 hlast
    obtain rfl := List.forall₂_nil_left_iff.1 hnil
    exact exists_encode_of_four hlead ((hholds b).1 hb)
      (Range.continuation_holds_iff.1 hd) (Range.continuation_holds_iff.1 hf)

/-! ## §3. Pieces that are characters. -/

namespace Partial

variable {held bs : List UInt8} {r : Range} {due : List Range} {b : UInt8}

/-- A byte in the range that is due goes on with the character. -/
theorem push_of_holds (h : r.holds b) :
    push ⟨held, r :: due⟩ b = settle ⟨held ++ [b], due⟩ :=
  if_pos h

/-- Any other breaks it off. -/
theorem push_of_not_holds (h : ¬ r.holds b) :
    push ⟨held, r :: due⟩ b = (.broken held :: (lead b).1, (lead b).2) :=
  if_neg h

/-- Bytes that a character still lacks complete it. -/
theorem settle_pieces (h : List.Forall₂ (fun r b => r.holds b) due bs)
    (rest : List UInt8) :
    (settle ⟨held, due⟩).1 ++ (settle ⟨held, due⟩).2.pieces (bs ++ rest)
      = .whole (held ++ bs) :: idle.pieces rest := by
  -- The induction is on the ranges that are still due.
  induction h generalizing held with
  | nil => simp [settle]
  | @cons r b due bs hb _ ih =>
    show (⟨held, r :: due⟩ : Partial).pieces (b :: (bs ++ rest)) = _
    rw [pieces, push_of_holds hb, ih, ← List.append_cons]

/-- Where a character in the making becomes one, the bytes that it lacks come
next. -/
theorem exists_of_settle_pieces {whole : List UInt8} {others : List Piece}
    (h : (settle ⟨held, due⟩).1 ++ (settle ⟨held, due⟩).2.pieces bs
      = .whole whole :: others) :
    ∃ taken rest, bs = taken ++ rest ∧ whole = held ++ taken
      ∧ List.Forall₂ (fun r b => r.holds b) due taken := by
  induction due generalizing held bs with
  | nil =>
    cases h
    exact ⟨[], bs, rfl, (List.append_nil _).symm, .nil⟩
  | cons r due ih =>
    cases bs with
    | nil => cases h
    | cons b bs =>
      have h' : (⟨held, r :: due⟩ : Partial).pieces (b :: bs) = .whole whole :: others := h
      rw [pieces] at h'
      -- A byte out of its range would make the first piece a broken one.
      by_cases hb : r.holds b
      · rw [push_of_holds hb] at h'
        obtain ⟨taken, rest, rfl, rfl, htaken⟩ := ih h'
        exact ⟨b :: taken, rest, rfl, (List.append_cons held b taken).symm,
          .cons hb htaken⟩
      · rw [push_of_not_holds hb] at h'
        cases h'

end Partial

section

variable {bs whole : List UInt8}

/-- A lead byte begins a character with its ranges due. -/
theorem pieces_cons_of_after? {lead : UInt8} {due : List Range}
    (h : after? lead = some due) (bs : List UInt8) :
    pieces (lead :: bs)
      = (Partial.settle ⟨[lead], due⟩).1 ++ (Partial.settle ⟨[lead], due⟩).2.pieces bs := by
  show (Partial.lead lead).1 ++ (Partial.lead lead).2.pieces bs = _
  rw [Partial.lead, h]

/-- A character at the front is the first piece. -/
theorem pieces_whole_append (h : IsWhole whole) (rest : List UInt8) :
    pieces (whole ++ rest) = .whole whole :: pieces rest := by
  obtain ⟨lead, others, due, rfl, hdue, hothers⟩ := h
  rw [List.cons_append, pieces_cons_of_after? hdue]
  exact Partial.settle_pieces hothers rest

/-- A first piece that is a character stands at the front. -/
theorem exists_of_pieces_whole {others : List Piece}
    (h : pieces bs = .whole whole :: others) :
    ∃ rest, bs = whole ++ rest ∧ IsWhole whole := by
  cases bs with
  | nil => cases h
  | cons lead bs =>
    cases hdue : after? lead with
    | none =>
      have hlead : pieces (lead :: bs) = .broken [lead] :: Partial.idle.pieces bs := by
        show (Partial.lead lead).1 ++ (Partial.lead lead).2.pieces bs = _
        rw [Partial.lead, hdue]
        rfl
      cases hlead.symm.trans h
    | some due =>
      rw [pieces_cons_of_after? hdue] at h
      obtain ⟨taken, rest, rfl, rfl, htaken⟩ := Partial.exists_of_settle_pieces h
      exact ⟨rest, rfl, lead, taken, due, rfl, hdue, htaken⟩

/-! ## §4. The longest text at the front. -/

/-- A character at the front is valid. -/
theorem validLength_whole_append (h : IsWhole whole) (rest : List UInt8) :
    validLength (whole ++ rest) = whole.length + validLength rest := by
  rw [validLength, pieces_whole_append h, List.takeWhile_cons_of_pos rfl,
    List.flatMap_cons, List.length_append]
  rfl

/-- The bytes are those of some text. -/
def IsText (bs : List UInt8) : Prop :=
  ∃ text, bytes text = bs

theorem isText_nil : IsText [] :=
  ⟨"", rfl⟩

theorem IsText.append {as bs : List UInt8} (ha : IsText as) (hb : IsText bs) :
    IsText (as ++ bs) := by
  obtain ⟨s, rfl⟩ := ha
  obtain ⟨t, rfl⟩ := hb
  exact ⟨s ++ t, bytes_append s t⟩

theorem IsWhole.isText (h : IsWhole whole) : IsText whole := by
  obtain ⟨c, rfl⟩ := h.exists_char
  exact ⟨String.ofList [c], by rw [bytes_ofList, List.flatMap_singleton]⟩

/-- Text at the front is valid, and what comes after it is looked at afresh. -/
theorem validLength_bytes_append (text : String) (rest : List UInt8) :
    validLength (bytes text ++ rest) = (bytes text).length + validLength rest := by
  obtain ⟨cs, rfl⟩ : ∃ cs, text = String.ofList cs := ⟨text.toList, by simp⟩
  rw [bytes_ofList]
  induction cs with
  | nil => simp
  | cons c cs ih =>
    rw [List.flatMap_cons, List.append_assoc, validLength_whole_append (isWhole_encode c), ih,
      List.length_append, Nat.add_assoc]

theorem IsText.validLength_append (h : IsText bs) (rest : List UInt8) :
    validLength (bs ++ rest) = bs.length + validLength rest := by
  obtain ⟨text, rfl⟩ := h
  exact validLength_bytes_append text rest

/-- All of a text is valid. -/
theorem IsText.validLength_eq (h : IsText bs) : validLength bs = bs.length := by
  have hnil := h.validLength_append []
  rwa [List.append_nil] at hnil

/-- The bytes before the first broken run stand at the front: cutting loses
none. -/
theorem takeWhile_pieces_isPrefix (bs : List UInt8) :
    ((pieces bs).takeWhile Piece.isWhole).flatMap Piece.bytes <+: bs := by
  have hall := flatten_pieces bs
  rw [← List.flatMap_def, ← List.takeWhile_append_dropWhile (p := Piece.isWhole)
    (l := pieces bs), List.flatMap_append] at hall
  exact ⟨_, hall⟩

/-- And they are text. -/
theorem isText_takeWhile_pieces (bs : List UInt8) :
    IsText (((pieces bs).takeWhile Piece.isWhole).flatMap Piece.bytes) := by
  -- The induction is on the pieces; after a character they are those of the rest.
  generalize hp : pieces bs = ps
  induction ps generalizing bs with
  | nil => exact isText_nil
  | cons piece others ih =>
    cases piece with
    | broken _ => exact isText_nil
    | whole whole =>
      obtain ⟨rest, rfl, hwhole⟩ := exists_of_pieces_whole hp
      rw [pieces_whole_append hwhole] at hp
      cases hp
      exact hwhole.isText.append (ih rest rfl)

/-- The valid length cuts the bytes in front of the first broken run. -/
theorem take_validLength (bs : List UInt8) :
    bs.take (validLength bs)
      = ((pieces bs).takeWhile Piece.isWhole).flatMap Piece.bytes :=
  (List.prefix_iff_eq_take.1 (takeWhile_pieces_isPrefix bs)).symm

/-- **The valid length is that of the longest text at the front.** -/
theorem isGreatest_validLength (bs : List UInt8) :
    IsGreatest {n | n ≤ bs.length ∧ IsText (bs.take n)} (validLength bs) := by
  constructor
  · show validLength bs ≤ bs.length ∧ IsText (bs.take (validLength bs))
    rw [take_validLength]
    exact ⟨(takeWhile_pieces_isPrefix bs).length_le, isText_takeWhile_pieces bs⟩
  · intro n hn
    obtain ⟨hle, htext⟩ := hn
    have hvalid := htext.validLength_append (bs.drop n)
    rw [List.take_append_drop, List.length_take_of_le hle] at hvalid
    omega

theorem validLength_le (bs : List UInt8) : validLength bs ≤ bs.length :=
  (isGreatest_validLength bs).1.1

/-- So the bytes up to the valid length are text. -/
theorem isText_take_validLength (bs : List UInt8) : IsText (bs.take (validLength bs)) :=
  (isGreatest_validLength bs).1.2

/-- And no text at the front is longer. -/
theorem le_validLength {n : Nat} (hle : n ≤ bs.length) (h : IsText (bs.take n)) :
    n ≤ validLength bs :=
  (isGreatest_validLength bs).2 ⟨hle, h⟩

/-- Bytes are text exactly if all of them are valid. -/
theorem isText_iff : IsText bs ↔ validLength bs = bs.length := by
  refine ⟨IsText.validLength_eq, fun h => ?_⟩
  have htext := isText_take_validLength bs
  rwa [h, List.take_length] at htext

/-- What comes after text is text if the whole is. -/
theorem IsText.of_append {rest : List UInt8} (h : IsText bs) (hall : IsText (bs ++ rest)) :
    IsText rest := by
  have hvalid := hall.validLength_eq
  rw [h.validLength_append, List.length_append] at hvalid
  exact isText_iff.2 (Nat.add_left_cancel hvalid)

theorem validLength_lt_of_not_isText (h : ¬ IsText bs) : validLength bs < bs.length :=
  Nat.lt_of_le_of_ne (validLength_le bs) (fun heq => h (isText_iff.2 heq))

/-- Text at the front is valid, whatever comes after it. -/
theorem IsText.length_le_validLength (h : IsText bs) (rest : List UInt8) :
    bs.length ≤ validLength (bs ++ rest) := by
  rw [h.validLength_append]
  exact Nat.le_add_right _ _

/-- Bytes that end below 128 and are no text are not mended by more. -/
theorem validLength_append_of_not_isText {b : UInt8} (hb : b.toNat < 128)
    (h : ¬ IsText (bs ++ [b])) (more : List UInt8) :
    validLength (bs ++ [b] ++ more) = validLength (bs ++ [b]) := by
  have hcut : IsText ((bs ++ [b] ++ more).take (validLength (bs ++ [b] ++ more))) :=
    isText_take_validLength _
  refine Nat.le_antisymm ?_ ?_
  · by_cases hle : validLength (bs ++ [b] ++ more) ≤ (bs ++ [b]).length
    · rw [List.take_append_of_le_length hle] at hcut
      exact le_validLength hle hcut
    · -- A longer text could be cut after the byte.
      rw [List.take_append, List.take_of_length_le (by omega), List.append_assoc] at hcut
      obtain ⟨text, htext⟩ := hcut
      have hfront : IsText bs := (exists_bytes_of_append htext hb).1
      exact absurd (hfront.append (exists_bytes_of_ascii (by simpa using hb))) h
  · refine le_validLength ?_ ?_
    · exact (validLength_le _).trans (by simp)
    · rw [List.take_append_of_le_length (validLength_le _)]
      exact isText_take_validLength _

end

end ByteLayout.Utf8
