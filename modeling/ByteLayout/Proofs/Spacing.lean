/-
  ByteLayout.Proofs.Spacing
  ─────────────────────────
  **WHERE TOKENS NEED SPACE BETWEEN THEM.**

  Tokens can be written with blank space before, between and after them
  (`spaced`), and mostly there need be none between two of them.  What would
  run into the token after it (`Kind.RunsInto`) is

      an identifier   before an identifier or an integer
      an integer      before all but a comma, a slash and a closing bracket

  and the main result is that tokens are read back exactly if there is space
  wherever one would run into the next (`space_where_needed`).

  That space is enough is seen from the first byte of a lexeme, whose class
  tells the kind (`Kind.endsBefore_iff`).  That it is needed follows because
  no lexeme begins with blank space, so that there is one way at most in which
  the bytes can spell the tokens (`spelled_token_iff`).
-/
import ByteLayout.Proofs.Spelling
import Mathlib.Data.List.Chain

namespace ByteLayout

/-! ## §1. Tokens written with space. -/

/-- Blank space, or none. -/
structure Gap where
  bytes : List UInt8
  blank : ∀ b ∈ bytes, ByteClass.isBlank b

/-- The texts of tokens, each with the gap after it. -/
def spaced : List (Token × Gap) → List UInt8
  | [] => []
  | (t, gap) :: ps => Utf8.bytes t.text ++ (gap.bytes ++ spaced ps)

/-- Without space between them, a token of the first kind does not end before
one of the second. -/
def Kind.RunsInto : Kind → Kind → Prop
  | .identifier, next => next = .identifier ∨ next = .integer
  | .integer, next =>
    next ≠ .mark .comma ∧ next ≠ .mark .slash ∧ next ≠ .mark .closeBracket
  | .string, _ | .mark _, _ => False

/-! ## §2. The first byte of a lexeme. -/

/-- The class of the first byte of every lexeme of the kind. -/
def Kind.firstClass : Kind → ByteClass
  | .integer => .digit
  | .string => .quote
  | .identifier => .letter
  | .mark m => .mark m

/-- An integer begins with a digit. -/
theorem IsInteger.exists_first {bs : List UInt8} (h : IsInteger bs) :
    ∃ b others, bs = b :: others ∧ ByteClass.of b = .digit := by
  obtain ⟨base, digits, hne, hdigits, rfl⟩ := h
  by_cases hbase : base = .decimal
  · subst hbase
    obtain ⟨d, ds, rfl⟩ := List.exists_cons_of_ne_nil hne
    have hd : Base.decimal.IsDigit d := hdigits d List.mem_cons_self
    refine ⟨d, ds, rfl, ByteClass.of_eq_digit_iff.2 ?_⟩
    simpa [ByteClass.isDigit, Base.IsDigit] using hd
  · -- The sign of an announced base begins with a zero.
    obtain ⟨letter, hsign, -⟩ := Lexeme.exists_letter hbase
    exact ⟨'0'.toUInt8, letter :: digits, by rw [hsign]; rfl, by decide⟩

/-- The first byte of a lexeme tells its kind. -/
theorem Kind.Lexeme.exists_first {k : Kind} {bs : List UInt8} (h : k.Lexeme bs) :
    ∃ b others, bs = b :: others ∧ ByteClass.of b = k.firstClass := by
  cases k with
  | integer => exact IsInteger.exists_first h
  | string =>
    cases bs with
    | nil => cases h.1
    | cons b others =>
      obtain rfl : b = quotationMark := Option.some.inj h.1
      exact ⟨quotationMark, others, rfl, ByteClass.of_eq_quote_iff.2 rfl⟩
  | identifier =>
    obtain ⟨first, others, rfl, hfirst, -⟩ := h
    exact ⟨first, others, rfl, ByteClass.of_eq_letter_iff.2 hfirst⟩
  | mark m => exact ⟨m.byte, [], h, ByteClass.of_markByte m⟩

/-- Any lexeme may end at the end of the source. -/
theorem Kind.endsBefore_none (k : Kind) : k.EndsBefore none := by
  cases k <;> exact trivial

/-- A lexeme may end before the first byte of another exactly if it does not
run into it. -/
theorem Kind.endsBefore_iff {k next : Kind} {b : UInt8}
    (hb : ByteClass.of b = next.firstClass) :
    k.EndsBefore (some b) ↔ ¬ k.RunsInto next := by
  cases k with
  | string | mark m => exact iff_of_true trivial id
  | identifier =>
    show ¬ (ByteClass.isLetter b ∨ ByteClass.isDigit b)
      ↔ ¬ (next = .identifier ∨ next = .integer)
    rw [← ByteClass.isWordPart_of_iff, hb]
    cases next <;> simp [firstClass, ByteClass.isWordPart]
  | integer =>
    show (ByteClass.isBlank b ∨ b = Mark.comma.byte ∨ b = Mark.slash.byte
        ∨ b = Mark.closeBracket.byte)
      ↔ ¬ (next ≠ .mark .comma ∧ next ≠ .mark .slash ∧ next ≠ .mark .closeBracket)
    rw [← ByteClass.endsInteger_of_iff, hb]
    cases next with
    | mark m => cases m <;> simp [firstClass, ByteClass.endsInteger]
    | _ => simp [firstClass, ByteClass.endsInteger]

/-! ## §3. One way to spell. -/

/-- No lexeme begins with blank space. -/
theorem not_isBlank_of_first {k : Kind} {b : UInt8}
    (hb : ByteClass.of b = k.firstClass) : ¬ ByteClass.isBlank b := by
  rw [← ByteClass.of_eq_blank_iff, hb]
  cases k <;> simp [Kind.firstClass]

/-- So the blank space before it is all there is. -/
theorem takeWhile_isBlank_append {blank : List UInt8}
    (hblank : ∀ b ∈ blank, ByteClass.isBlank b) {b : UInt8}
    (hb : ¬ ByteClass.isBlank b) (bs : List UInt8) :
    (blank ++ b :: bs).takeWhile ByteClass.isBlank = blank := by
  rw [List.takeWhile_append_of_pos hblank, List.takeWhile_cons_of_neg hb,
    List.append_nil]

/-- Bytes that begin with a gap and a lexeme spell its token and others exactly
if the lexeme may end there and the bytes after it spell the others. -/
theorem spelled_token_iff {t : Token} {ts : List Token} {rest : List UInt8}
    (h : t.kind.Lexeme (Utf8.bytes t.text)) (gap : Gap) :
    Spelled (gap.bytes ++ (Utf8.bytes t.text ++ rest)) (t :: ts) ↔
      t.kind.EndsBefore rest.head? ∧ Spelled rest ts := by
  constructor
  · intro hspelled
    generalize hsource : gap.bytes ++ (Utf8.bytes t.text ++ rest) = source at hspelled
    cases hspelled with
    | @token blank rest' _ _ hblank _ hends hrest =>
      -- Both ways take the same blank space, and then the same text.
      obtain ⟨b, others, htext, hclass⟩ := h.exists_first
      have hb := not_isBlank_of_first hclass
      rw [List.append_assoc] at hsource
      have hgap : gap.bytes = blank := by
        have htake := congrArg (List.takeWhile ByteClass.isBlank) hsource
        rwa [htext, List.cons_append, List.cons_append,
          takeWhile_isBlank_append gap.blank hb,
          takeWhile_isBlank_append hblank hb] at htake
      rw [hgap] at hsource
      have hrest' : rest = rest' :=
        List.append_cancel_left (List.append_cancel_left hsource)
      subst hrest'
      exact ⟨hends, hrest⟩
  · intro hspelled
    obtain ⟨hends, hrest⟩ := hspelled
    rw [← List.append_assoc]
    exact .token gap.blank h hends hrest

/-- What comes next is the gap, or the first byte of the next token. -/
theorem endsBefore_spaced_iff {ps : List (Token × Gap)}
    (hps : ∀ p ∈ ps, p.1.kind.Lexeme (Utf8.bytes p.1.text)) (k : Kind) (gap : Gap) :
    k.EndsBefore (gap.bytes ++ spaced ps).head? ↔
      ∀ q ∈ ps.head?, gap.bytes = [] → ¬ k.RunsInto q.1.kind := by
  obtain ⟨bytes, blank⟩ := gap
  cases bytes with
  | cons w bytes =>
    -- Blank space ends any lexeme, so there is no condition.
    have hw : Kind.integer.EndsBefore (some w) := Or.inl (blank w List.mem_cons_self)
    refine iff_of_true (Kind.endsBefore_of_integer hw k) ?_
    intro q _ hnil
    cases hnil
  | nil =>
    cases ps with
    | nil => exact iff_of_true k.endsBefore_none (by simp)
    | cons q ps =>
      -- Without a gap the next byte is the first of the next token.
      obtain ⟨b, others, htext, hclass⟩ := (hps q List.mem_cons_self).exists_first
      have hhead : ([] ++ spaced (q :: ps)).head? = some b := by
        rw [spaced, htext]
        rfl
      rw [hhead, Kind.endsBefore_iff hclass]
      simp

/-- Tokens written with space are spelled exactly if none runs into the next
one. -/
theorem spelled_spaced_iff {ps : List (Token × Gap)}
    (hps : ∀ p ∈ ps, p.1.kind.Lexeme (Utf8.bytes p.1.text)) (gap : Gap) :
    Spelled (gap.bytes ++ spaced ps) (ps.map Prod.fst) ↔
      ps.IsChain (fun p q => p.2.bytes = [] → ¬ p.1.kind.RunsInto q.1.kind) := by
  induction ps generalizing gap with
  | nil =>
    refine iff_of_true ?_ .nil
    rw [spaced, List.append_nil]
    exact .gap gap.blank
  | cons p ps ih =>
    obtain ⟨hp, hrest⟩ := List.forall_mem_cons.1 hps
    rw [spaced, List.map_cons, spelled_token_iff hp, endsBefore_spaced_iff hrest,
      ih hrest, List.isChain_cons]

/-! ## §4. Space where it is needed. -/

/-- **Space is needed where a token would run into the next.**  Tokens that some
source is read as are read from their texts, with any blank space before,
between and after them, exactly if there is some between any two of which the
first would run into the second. -/
theorem space_where_needed (lead : Gap) (ps : List (Token × Gap))
    (h : ∃ source, (Intake.standard.read (.ofBytes source)).outcome
      = .ok (ps.map Prod.fst)) :
    (Intake.standard.read (.ofBytes (lead.bytes ++ spaced ps))).outcome
        = .ok (ps.map Prod.fst) ↔
      ps.IsChain (fun p q => p.2.bytes = [] → ¬ p.1.kind.RunsInto q.1.kind) := by
  obtain ⟨source, hsource⟩ := h
  rw [Intake.outcome_read_standard, tokensOf_eq_ok_iff] at hsource
  rw [Intake.outcome_read_standard, tokensOf_eq_ok_iff]
  apply spelled_spaced_iff
  intro p hp
  exact hsource.lexeme_of_mem (List.mem_map_of_mem hp)

/-- A string needs no space before it or after it; but between a zero and a
name that begins with an `x` there has to be some, or they are one integer. -/
theorem space_needed_after_zero :
    (∃ source, (Intake.standard.read (.ofBytes source)).outcome
        = .ok [⟨.identifier, "a"⟩, ⟨.string, "\x22\x22"⟩, ⟨.integer, "0"⟩,
            ⟨.identifier, "x1"⟩])
      ∧ (Intake.standard.read (.ofBytes (Utf8.bytes "a\x22\x220 x1"))).outcome
        = .ok [⟨.identifier, "a"⟩, ⟨.string, "\x22\x22"⟩, ⟨.integer, "0"⟩,
            ⟨.identifier, "x1"⟩]
      ∧ (Intake.standard.read (.ofBytes (Utf8.bytes "a \x22\x22 0x1\n"))).outcome
        ≠ .ok [⟨.identifier, "a"⟩, ⟨.string, "\x22\x22"⟩, ⟨.integer, "0"⟩,
            ⟨.identifier, "x1"⟩] := by
  have hnone : ∀ b ∈ ([] : List UInt8), ByteClass.isBlank b := List.forall_mem_nil _
  have hspace : ∀ b ∈ [' '.toUInt8], ByteClass.isBlank b :=
    List.forall_mem_singleton.2 (by decide)
  have hline : ∀ b ∈ ['\n'.toUInt8], ByteClass.isBlank b :=
    List.forall_mem_singleton.2 (by decide)
  have hread : ∃ source, (Intake.standard.read (.ofBytes source)).outcome
      = .ok [⟨.identifier, "a"⟩, ⟨.string, "\x22\x22"⟩, ⟨.integer, "0"⟩,
          ⟨.identifier, "x1"⟩] :=
    ⟨Utf8.bytes "a \x22\x22 0 x1", by decide +kernel⟩
  refine ⟨hread, ?_, ?_⟩
  · refine (space_where_needed ⟨[], hnone⟩ [(_, ⟨[], hnone⟩), (_, ⟨[], hnone⟩),
      (_, ⟨[' '.toUInt8], hspace⟩), (_, ⟨[], hnone⟩)] hread).2 ?_
    simp [Kind.RunsInto]
  · intro h
    have hchain := (space_where_needed ⟨[], hnone⟩ [(_, ⟨[' '.toUInt8], hspace⟩),
      (_, ⟨[' '.toUInt8], hspace⟩), (_, ⟨[], hnone⟩),
      (_, ⟨['\n'.toUInt8], hline⟩)] hread).1 h
    simp [Kind.RunsInto] at hchain

end ByteLayout
