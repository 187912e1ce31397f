/-
  ByteLayout.Proofs.Spelling
  ──────────────────────────
  **WHICH SOURCES SPELL WHICH TOKENS.**

  A source spells tokens if it consists of their texts in order, with blank
  space before, between and after them, where each text is a lexeme of its
  token's kind and nothing that such a lexeme may not have after it comes
  right after it (`Spelled`).

  The main result is that reading tokens decides this relation
  (`tokensOf_eq_ok_iff`).  One direction is an induction on the bytes ahead of
  a lexeme in hand, whose shape fits its bytes all along; the other is an
  induction on the relation, where each lexeme is taken whole
  (`Kind.Lexeme.taken`) and then complete.
-/
import ByteLayout.Proofs.Intake
import ByteLayout.Proofs.Lexeme
import ByteLayout.Proofs.Scan

namespace ByteLayout

/-! ## §1. Spellings. -/

/-- The bytes are the texts of the tokens, in order, with blank space around
them. -/
inductive Spelled : List UInt8 → List Token → Prop
  | gap {blank : List UInt8} (hblank : ∀ b ∈ blank, ByteClass.isBlank b) :
    Spelled blank []
  | token {blank rest : List UInt8} {t : Token} {ts : List Token}
    (hblank : ∀ b ∈ blank, ByteClass.isBlank b)
    (hlexeme : t.kind.Lexeme (Utf8.bytes t.text))
    (hends : t.kind.EndsBefore rest.head?) (hrest : Spelled rest ts) :
    Spelled (blank ++ Utf8.bytes t.text ++ rest) (t :: ts)

/-- There may be more blank space in front. -/
theorem Spelled.blank_append {blank bs : List UInt8} {ts : List Token}
    (hblank : ∀ b ∈ blank, ByteClass.isBlank b) (h : Spelled bs ts) :
    Spelled (blank ++ bs) ts := by
  cases h with
  | gap h =>
    exact .gap (fun b hb => (List.mem_append.1 hb).elim (hblank b) (h b))
  | token h hlexeme hends hrest =>
    rw [← List.append_assoc, ← List.append_assoc]
    exact .token (fun b hb => (List.mem_append.1 hb).elim (hblank b) (h b))
      hlexeme hends hrest

/-- Every token that a source spells is a lexeme of its kind. -/
theorem Spelled.lexeme_of_mem {bs : List UInt8} {ts : List Token}
    (h : Spelled bs ts) {t : Token} (ht : t ∈ ts) :
    t.kind.Lexeme (Utf8.bytes t.text) := by
  induction h with
  | gap => cases ht
  | token _ hlexeme _ _ ih =>
    rcases List.mem_cons.1 ht with rfl | ht
    · exact hlexeme
    · exact ih ht

/-! ## §2. What is read is spelled. -/

/-- Only blank space makes no token. -/
theorem Shape.eq_blank_of_kind? {s : Shape} (h : s.kind? = none) : s = .blank := by
  cases s <;> first | rfl | cases h

namespace Lexeme

/-- A lexeme begins with a byte that gives it a shape. -/
theorem begin?_eq_ok_iff {offset : Nat} {b : UInt8} {l : Lexeme} :
    begin? offset b = .ok l ↔
      ∃ s, Shape.start? b = some s ∧ l = ⟨offset, s, [b]⟩ := by
  unfold begin?
  cases Shape.start? b with
  | none => simp
  | some s => simp [eq_comm]

/-- A scan begins with the lexeme of the first byte. -/
theorem scanFrom_cons_eq_ok_iff {offset : Nat} {b : UInt8} {bs : List UInt8}
    {found : List Sighting} :
    scanFrom offset (b :: bs) = .ok found ↔
      ∃ s, Shape.start? b = some s ∧ scan ⟨offset, s, [b]⟩ bs = .ok found := by
  rw [scanFrom, begin?]
  cases Shape.start? b with
  | none => simp [bind, Except.bind]
  | some s => simp [bind, Except.bind]

/-- Blank space makes no token. -/
theorem token_of_blank {l : Lexeme} (h : l.shape.kind? = none) :
    l.token = .ok none := by
  rw [token, h]

/-- The token of a lexeme has its kind, and the text that its bytes spell. -/
theorem token_eq_ok_iff {l : Lexeme} {k : Kind} (h : l.shape.kind? = some k)
    {found : Option Sighting} :
    l.token = .ok found ↔
      ∃ text, Utf8.bytes text = l.bytes ∧ found = some ⟨⟨k, text⟩, l.start⟩ := by
  rw [token, h]
  simp only [← Utf8.text?_eq_some_iff]
  cases Utf8.text? l.bytes with
  | none => simp
  | some text => simp [eq_comm]

/-- A complete lexeme, in front of what is spelled after it. -/
theorem spelled_of_complete {l : Lexeme} {rest : List UInt8}
    {found : List Sighting} (hf : l.shape.Fits l.bytes)
    (hn : l.next rest.head? = .complete) (h : l.scan rest = .ok found)
    (hrest : ∀ others, scanFrom l.stop rest = .ok others →
      Spelled rest (others.map Sighting.token)) :
    Spelled (l.bytes ++ rest) (found.map Sighting.token) := by
  obtain ⟨first, others, ht, ho, rfl⟩ := (scan_eq_ok_iff_of_complete rest hn).1 h
  cases hk : l.shape.kind? with
  | none =>
    have hs : l.shape = .blank := Shape.eq_blank_of_kind? hk
    cases (token_of_blank hk).symm.trans ht
    rw [hs] at hf
    exact .blank_append hf.2 (hrest others ho)
  | some k =>
    obtain ⟨text, htext, rfl⟩ := (token_eq_ok_iff hk).1 ht
    obtain ⟨hlexeme, hends⟩ := lexeme_of_next hf hn hk
    rw [← htext] at hlexeme ⊢
    exact .token (t := ⟨k, text⟩) (List.forall_mem_nil _) hlexeme hends
      (hrest others ho)

/-- A scan that finds tokens finds them spelled.  The induction is on the
bytes ahead; a lexeme that is begun on the way has a shape that fits. -/
theorem spelled_of_scan {l : Lexeme} {rest : List UInt8} {found : List Sighting}
    (hf : l.shape.Fits l.bytes) (h : l.scan rest = .ok found) :
    Spelled (l.bytes ++ rest) (found.map Sighting.token) := by
  induction rest generalizing l found with
  | nil =>
    cases hn : l.next none with
    | more s => exact absurd hn (l.next_none_ne_more s)
    | refuse e =>
      rw [scan_of_refuse [] hn] at h
      cases h
    | complete =>
      -- The end of the input leaves nothing to spell.
      refine spelled_of_complete hf hn h (fun others ho => ?_)
      cases ho
      exact .gap (by simp)
  | cons b bs ih =>
    cases hn : l.next (some b) with
    | more s =>
      rw [scan_of_more hn] at h
      have := ih (l := l.push s b) (bytes_push l s b ▸ fits_of_next hf hn) h
      rwa [bytes_push, List.append_assoc] at this
    | refuse e =>
      rw [scan_of_refuse (b :: bs) hn] at h
      cases h
    | complete =>
      refine spelled_of_complete hf hn h (fun others ho => ?_)
      -- The byte is met afresh, and begins the lexeme in hand.
      obtain ⟨s, hs, hscan⟩ := scanFrom_cons_eq_ok_iff.1 ho
      exact ih (Shape.fits_start hs) hscan

end Lexeme

/-! ## §3. What is spelled is read. -/

/-- Reading takes the bytes whole: the first begins a lexeme, the others are
taken one by one, and then it is complete wherever one of the kind may end. -/
def Kind.Taken (k : Kind) (bs : List UInt8) : Prop :=
  ∀ offset, ∃ b cs l l', bs = b :: cs ∧ Lexeme.begin? offset b = .ok l
    ∧ l.take? cs = some l' ∧ l'.shape.kind? = some k
    ∧ ∀ ahead, k.EndsBefore ahead → l'.next ahead = .complete

namespace Lexeme

/-- A mark is in hand as soon as its byte is. -/
theorem taken_mark (m : Mark) : Kind.Taken (.mark m) [m.byte] := by
  intro offset
  refine ⟨m.byte, [], ⟨offset, .mark m, [m.byte]⟩, _, rfl, ?_, rfl, rfl,
    fun _ _ => rfl⟩
  exact begin?_eq_ok_iff.2 ⟨_, by simp [Shape.start?], rfl⟩

/-- An identifier is taken byte by byte, since it may go on with any of them. -/
theorem taken_identifier {bs : List UInt8} (h : IsIdentifier bs) :
    Kind.Taken .identifier bs := by
  obtain ⟨first, others, rfl, hf, ho⟩ := h
  intro offset
  -- The first letter starts a word, and the others leave it one.
  have hstart : Shape.start? first = some .word := by
    simp [Shape.start?, ByteClass.of_eq_letter_iff.2 hf]
  have hstays : ∀ b ∈ others, ∀ m : Lexeme, m.shape = .word →
      m.next (some b) = .more .word := by
    intro b hb m hm
    rw [next_of_word hm]
    exact if_pos (ByteClass.isWordPart_of_iff.2 (ho b hb))
  obtain ⟨l', ht, hs⟩ := exists_take?_of_stays (l := ⟨offset, .word, [first]⟩) hstays
  refine ⟨first, others, _, l', rfl, begin?_eq_ok_iff.2 ⟨_, hstart, rfl⟩, ht,
    by rw [hs]; rfl, fun ahead ha => ?_⟩
  rw [next_of_word hs]
  apply if_neg
  cases ahead with
  | none => decide
  | some b => exact fun hw => ha (ByteClass.isWordPart_of_iff.1 hw)

/-- An integer with digits takes a run of digits of its base. -/
theorem exists_take?_of_digits {l : Lexeme} {base : Base} {digits : List UInt8}
    (hl : l.shape = .digits base) (hd : ∀ d ∈ digits, base.IsDigit d) :
    ∃ l', l.take? digits = some l' ∧ l'.shape = .digits base := by
  rw [← hl]
  refine exists_take?_of_stays (fun d hd' m hm => ?_)
  rw [hl] at hm ⊢
  rw [next_of_digits hm]
  exact nextInteger_of_isDigit (hd d hd') m false

/-- So does a lexeme that a first digit makes such an integer. -/
theorem exists_take?_of_first_digit {l : Lexeme} {base : Base}
    {digits : List UInt8}
    (hl : ∀ d, base.IsDigit d → l.next (some d) = .more (.digits base))
    (hne : digits ≠ []) (hd : ∀ d ∈ digits, base.IsDigit d) :
    ∃ l', l.take? digits = some l' ∧ l'.shape = .digits base := by
  obtain ⟨d, ds, rfl⟩ := List.exists_cons_of_ne_nil hne
  rw [take?_of_more (hl d (hd d List.mem_cons_self))]
  exact exists_take?_of_digits rfl (fun c hc => hd c (List.mem_cons_of_mem d hc))

/-- A zero goes on with a digit as a number of base ten. -/
theorem next_zero_of_isDigit {l : Lexeme} (h : l.shape = .zero) {d : UInt8}
    (hd : Base.decimal.IsDigit d) : l.next (some d) = .more (.digits .decimal) := by
  rw [next_of_zero h, Option.bind_some, Base.ofLetter?_of_isDigit hd]
  exact nextInteger_of_isDigit hd l false

/-- And it is an integer by itself before what ends one. -/
theorem next_zero_of_endsBefore {l : Lexeme} (h : l.shape = .zero)
    {ahead : Option UInt8} (ha : Kind.integer.EndsBefore ahead) :
    l.next ahead = .complete := by
  have hnone : ahead.bind Base.ofLetter? = none := by
    cases ahead with
    | none => rfl
    | some b => exact Base.ofLetter?_of_endsInteger (ByteClass.endsInteger_of_iff.2 ha)
  rw [next_of_zero h, hnone]
  exact nextInteger_of_endsBefore ha l .decimal

/-- Every announced base has its letter. -/
theorem exists_letter {base : Base} (h : base ≠ .decimal) :
    ∃ letter, Utf8.bytes base.sign = ['0'.toUInt8, letter]
      ∧ Base.ofLetter? letter = some base := by
  cases base with
  | decimal => exact absurd rfl h
  | hexadecimal => exact ⟨'x'.toUInt8, by decide +kernel⟩
  | octal => exact ⟨'o'.toUInt8, by decide +kernel⟩
  | binary => exact ⟨'b'.toUInt8, by decide +kernel⟩

theorem next_of_digits_of_endsBefore {l : Lexeme} {base : Base}
    (h : l.shape = .digits base) {ahead : Option UInt8}
    (ha : Kind.integer.EndsBefore ahead) : l.next ahead = .complete := by
  rw [next_of_digits h]
  exact nextInteger_of_endsBefore ha l base

/-- Digits of base ten are taken, and a zero in front of them announces
nothing. -/
theorem taken_decimal {digits : List UInt8} (hne : digits ≠ [])
    (hd : ∀ d ∈ digits, Base.decimal.IsDigit d) : Kind.Taken .integer digits := by
  obtain ⟨d, ds, rfl⟩ := List.exists_cons_of_ne_nil hne
  obtain ⟨hfirst, hothers⟩ := List.forall_mem_cons.1 hd
  have hclass : ByteClass.of d = .digit :=
    ByteClass.of_eq_digit_iff.2 (by simpa [ByteClass.isDigit, Base.IsDigit] using hfirst)
  intro offset
  by_cases hz : d = '0'.toUInt8
  · -- A zero could yet announce a base, which a digit or the end rules out.
    have hstart : Shape.start? d = some .zero := by
      rw [Shape.start?, hclass]
      exact congrArg some (if_pos hz)
    refine ⟨d, ds, ⟨offset, .zero, [d]⟩, ?_⟩
    cases ds with
    | nil =>
      exact ⟨_, rfl, begin?_eq_ok_iff.2 ⟨_, hstart, rfl⟩, rfl, rfl,
        fun _ => next_zero_of_endsBefore rfl⟩
    | cons e es =>
      obtain ⟨l', ht, hs⟩ := exists_take?_of_first_digit
        (l := ⟨offset, .zero, [d]⟩) (fun _ => next_zero_of_isDigit rfl)
        (List.cons_ne_nil e es) hothers
      exact ⟨l', rfl, begin?_eq_ok_iff.2 ⟨_, hstart, rfl⟩, ht, by rw [hs]; rfl,
        fun _ => next_of_digits_of_endsBefore hs⟩
  · -- Any other digit is a number from the start.
    have hstart : Shape.start? d = some (.digits .decimal) := by
      rw [Shape.start?, hclass]
      exact congrArg some (if_neg hz)
    obtain ⟨l', ht, hs⟩ := exists_take?_of_digits
      (l := ⟨offset, .digits .decimal, [d]⟩) rfl hothers
    exact ⟨d, ds, _, l', rfl, begin?_eq_ok_iff.2 ⟨_, hstart, rfl⟩, ht,
      by rw [hs]; rfl, fun _ => next_of_digits_of_endsBefore hs⟩

/-- Those of another base are taken after its announcement. -/
theorem taken_announced {base : Base} {digits : List UInt8} (hb : base ≠ .decimal)
    (hne : digits ≠ []) (hd : ∀ d ∈ digits, base.IsDigit d) :
    Kind.Taken .integer (Utf8.bytes base.sign ++ digits) := by
  obtain ⟨letter, hsign, hletter⟩ := exists_letter hb
  intro offset
  -- The zero takes the letter, and is bare until the first digit.
  have hmore : (⟨offset, .zero, ['0'.toUInt8]⟩ : Lexeme).next (some letter)
      = .more (.bare base) := by
    rw [next_of_zero rfl, Option.bind_some, hletter]
  obtain ⟨l', ht, hs⟩ := exists_take?_of_first_digit
    (l := push ⟨offset, .zero, ['0'.toUInt8]⟩ (.bare base) letter)
    (fun d hd' => (next_of_bare rfl _).trans (nextInteger_of_isDigit hd' _ true))
    hne hd
  refine ⟨'0'.toUInt8, letter :: digits, ⟨offset, .zero, ['0'.toUInt8]⟩, l',
    by rw [hsign]; rfl, begin?_eq_ok_iff.2 ⟨_, by decide, rfl⟩, ?_, by rw [hs]; rfl,
    fun _ => next_of_digits_of_endsBefore hs⟩
  rw [take?_of_more hmore, ht]

/-- So every integer is taken whole. -/
theorem taken_integer {bs : List UInt8} (h : IsInteger bs) : Kind.Taken .integer bs := by
  obtain ⟨base, digits, hne, hd, rfl⟩ := h
  by_cases hb : base = .decimal
  · subst hb
    exact taken_decimal hne hd
  · exact taken_announced hb hne hd

/-- A string takes its bytes up to the closing quotation mark: until then its
progress, which fits the bytes taken, is not that of a closed one. -/
theorem exists_take?_of_quoted {taken rest : List UInt8}
    (h : IsString (taken ++ rest)) {l : Lexeme} {q : Quoting}
    (hs : l.shape = .quoted q) (hq : q.Fits taken) :
    ∃ l', l.take? rest = some l' ∧ l'.shape = .quoted .closed := by
  induction rest generalizing taken l q with
  | nil =>
    refine ⟨l, rfl, ?_⟩
    by_cases hc : q = .closed
    · rw [hs, hc]
    · rw [List.append_nil] at h
      exact absurd (hq.isOpenString hc) (by simpa using h.not_isOpenString [])
  | cons b rest ih =>
    -- A closed string would be a shorter one in front of the whole.
    have hc : q ≠ .closed := by
      intro hclosed
      subst hclosed
      exact h.not_isString_prefix (List.cons_ne_nil b rest) hq
    rw [take?_of_more (next_of_quoted hs hc b)]
    exact ih (by simpa using h) rfl (Quoting.fits_push hq hc b)

/-- A string is taken whole, because nothing before its last byte closes it. -/
theorem taken_string {bs : List UInt8} (h : IsString bs) : Kind.Taken .string bs := by
  intro offset
  -- The first quotation mark is in hand when the others come.
  obtain ⟨cs, rfl⟩ : ∃ cs, bs = [quotationMark] ++ cs := by
    cases bs with
    | nil => cases h.1
    | cons b cs => exact ⟨cs, by rw [Option.some.inj h.1]; rfl⟩
  obtain ⟨l', ht, hs⟩ := exists_take?_of_quoted h
    (l := ⟨offset, .quoted .plain, [quotationMark]⟩) rfl
    ⟨isOpenString_quotationMark, by decide⟩
  exact ⟨quotationMark, cs, _, l', rfl, begin?_eq_ok_iff.2 ⟨_, by decide, rfl⟩, ht,
    by rw [hs]; rfl, fun ahead _ => next_of_closed hs ahead⟩

/-- Blank space in hand makes no token: the scan goes on as if it started
after it. -/
theorem scan_of_blank {l : Lexeme} (h : l.shape = .blank) (rest : List UInt8) :
    l.scan rest = scanFrom l.stop rest := by
  have hcomplete {m : Lexeme} {bs : List UInt8} (hm : m.shape = .blank)
      (hn : m.next bs.head? = .complete) : m.scan bs = scanFrom m.stop bs := by
    rw [scan_of_complete bs hn, token_of_blank (by rw [hm]; rfl)]
    cases scanFrom m.stop bs <;> rfl
  induction rest generalizing l with
  | nil => exact hcomplete h (next_of_blank h none)
  | cons b bs ih =>
    by_cases hb : ByteClass.of b = .blank
    · -- Both sides go on with blank space in hand, and so come to the same.
      have hn : l.next (some b) = .more .blank :=
        (next_of_blank h _).trans (if_pos (congrArg some hb))
      have hbegin : begin? l.stop b = .ok ⟨l.stop, .blank, [b]⟩ :=
        begin?_eq_ok_iff.2 ⟨.blank, by rw [Shape.start?, hb], rfl⟩
      calc l.scan (b :: bs)
          = (l.push .blank b).scan bs := scan_of_more hn bs
        _ = scanFrom (l.push .blank b).stop bs := ih rfl
        _ = scanFrom (stop ⟨l.stop, .blank, [b]⟩) bs := rfl
        _ = scan ⟨l.stop, .blank, [b]⟩ bs := (ih rfl).symm
        _ = scanFrom l.stop (b :: bs) := by rw [scanFrom, hbegin]; rfl
    · have hne : (some b).map ByteClass.of ≠ some .blank :=
        fun hsome => hb (Option.some.inj hsome)
      exact hcomplete h ((next_of_blank h _).trans (if_neg hne))

end Lexeme

/-- An integer's text announces the base that it is written in, with digits or
without. -/
theorem Base.of_sign_append {base : Base} {digits : List UInt8}
    (hdigits : ∀ d ∈ digits, base.IsDigit d) :
    of (Utf8.bytes base.sign ++ digits) = base := by
  by_cases hbase : base = .decimal
  · subst hbase
    show of digits = .decimal
    unfold of
    split
    · next z l _ =>
      have hl : ofLetter? l = none := ofLetter?_of_isDigit (hdigits l (by simp))
      rw [hl]
      exact ite_self _
    · rfl
  · obtain ⟨letter, hsign, hletter⟩ := Lexeme.exists_letter hbase
    rw [hsign]
    show (if '0'.toUInt8 = '0'.toUInt8 then (ofLetter? letter).getD .decimal else .decimal)
      = base
    rw [if_pos rfl, hletter]
    rfl

/-- Every lexeme is taken whole. -/
theorem Kind.Lexeme.taken {k : Kind} {bs : List UInt8} (h : k.Lexeme bs) :
    k.Taken bs := by
  cases k with
  | integer => exact ByteLayout.Lexeme.taken_integer h
  | string => exact ByteLayout.Lexeme.taken_string h
  | identifier => exact ByteLayout.Lexeme.taken_identifier h
  | mark m => exact (show bs = [m.byte] from h) ▸ ByteLayout.Lexeme.taken_mark m

/-- A blank is passed over. -/
theorem scanFrom_blank_cons {b : UInt8} (hb : ByteClass.isBlank b) (offset : Nat)
    (bs : List UInt8) : scanFrom offset (b :: bs) = scanFrom (offset + 1) bs := by
  have hbegin : Lexeme.begin? offset b = .ok ⟨offset, .blank, [b]⟩ :=
    Lexeme.begin?_eq_ok_iff.2
      ⟨.blank, by rw [Shape.start?, ByteClass.of_eq_blank_iff.2 hb], rfl⟩
  rw [scanFrom, hbegin]
  exact Lexeme.scan_of_blank rfl bs

/-- Blank space at the front only moves the tokens. -/
theorem scanFrom_blank_append {blank : List UInt8}
    (hblank : ∀ b ∈ blank, ByteClass.isBlank b) (offset : Nat) (bs : List UInt8) :
    scanFrom offset (blank ++ bs) = scanFrom (offset + blank.length) bs := by
  induction blank generalizing offset with
  | nil => rfl
  | cons b blank ih =>
    obtain ⟨hb, hrest⟩ := List.forall_mem_cons.1 hblank
    rw [List.cons_append, scanFrom_blank_cons hb, ih hrest, List.length_cons,
      Nat.add_assoc, Nat.add_comm 1]

/-- A lexeme at the front makes the first token, if it may end where it
does. -/
theorem scanFrom_lexeme_append {t : Token} (h : t.kind.Lexeme (Utf8.bytes t.text))
    {rest : List UInt8} (hends : t.kind.EndsBefore rest.head?) (offset : Nat) :
    scanFrom offset (Utf8.bytes t.text ++ rest)
      = (scanFrom (offset + (Utf8.bytes t.text).length) rest).map (⟨t, offset⟩ :: ·) := by
  -- The bytes are taken whole, so the lexeme in hand after them is the text.
  obtain ⟨b, cs, l, l', hbs, hbegin, htake, hkind, hcomplete⟩ := h.taken offset
  obtain ⟨s, _, rfl⟩ := Lexeme.begin?_eq_ok_iff.1 hbegin
  obtain ⟨hstart, hbytes⟩ := Lexeme.start_and_bytes_of_take? htake
  have hbytes' : l'.bytes = Utf8.bytes t.text := by rw [hbytes, hbs]; rfl
  have hstop : l'.stop = offset + (Utf8.bytes t.text).length := by
    rw [← hbytes', Lexeme.stop, hstart, Lexeme.bytes, List.length_reverse]
  have htoken : l'.token = .ok (some ⟨t, offset⟩) :=
    (Lexeme.token_eq_ok_iff hkind).2 ⟨t.text, hbytes'.symm, by rw [hstart]⟩
  -- There it is complete, and the scan starts afresh.
  rw [hbs, List.cons_append, scanFrom, hbegin]
  refine (Lexeme.scan_append_of_take? htake rest).trans ?_
  rw [Lexeme.scan_of_complete rest (hcomplete _ hends), htoken, hstop, hbs]
  cases scanFrom (offset + (b :: cs).length) rest <;> rfl

/-- Tokens that are spelled are found, wherever their source begins. -/
theorem Spelled.exists_scanFrom {bs : List UInt8} {ts : List Token}
    (h : Spelled bs ts) (offset : Nat) :
    ∃ found, scanFrom offset bs = .ok found ∧ found.map Sighting.token = ts := by
  -- The rest is found further on, by the blank space and the lexeme.
  induction h generalizing offset with
  | @gap blank hblank =>
    refine ⟨[], ?_, rfl⟩
    have := scanFrom_blank_append hblank offset []
    rwa [List.append_nil] at this
  | @token blank rest t ts hblank hlexeme hends _ ih =>
    obtain ⟨found, hfound, rfl⟩ := ih (offset + blank.length + (Utf8.bytes t.text).length)
    refine ⟨⟨t, offset + blank.length⟩ :: found, ?_, rfl⟩
    rw [List.append_assoc, scanFrom_blank_append hblank,
      scanFrom_lexeme_append hlexeme hends, hfound]
    rfl

/-! ## §4. Reading tokens is exact. -/

/-- What a scan finds, its bytes spell. -/
theorem spelled_of_scanFrom {offset : Nat} {bs : List UInt8} {found : List Sighting}
    (h : scanFrom offset bs = .ok found) : Spelled bs (found.map Sighting.token) := by
  cases bs with
  | nil =>
    cases h
    exact .gap (List.forall_mem_nil _)
  | cons b bs =>
    obtain ⟨s, hs, hscan⟩ := Lexeme.scanFrom_cons_eq_ok_iff.1 h
    exact Lexeme.spelled_of_scan (Shape.fits_start hs) hscan

/-- A source is read as tokens exactly if it spells them. -/
theorem tokensOf_eq_ok_iff {source : List UInt8} {ts : List Token} :
    tokensOf source = .ok ts ↔ Spelled source ts := by
  rw [tokensOf_eq_scan]
  constructor
  · intro h
    cases hs : scanFrom 0 source with
    | error e =>
      rw [hs] at h
      cases h
    | ok found =>
      rw [hs] at h
      cases h
      exact spelled_of_scanFrom hs
  · intro h
    obtain ⟨found, hfound, rfl⟩ := h.exists_scanFrom 0
    rw [hfound]
    rfl

/-- **Reading tokens is exact**: a source is read as tokens exactly if it
spells them, and it spells at most one sequence of tokens. -/
theorem tokens_exact (source : List UInt8) :
    (∀ ts, (Intake.standard.read (.ofBytes source)).outcome = .ok ts
        ↔ Spelled source ts)
      ∧ ∀ ts us, Spelled source ts → Spelled source us → ts = us := by
  refine ⟨fun ts => ?_, fun ts us ht hu => ?_⟩
  · rw [Intake.outcome_read_standard, tokensOf_eq_ok_iff]
  · have h := (tokensOf_eq_ok_iff.2 ht).symm.trans (tokensOf_eq_ok_iff.2 hu)
    exact Except.ok.inj h

end ByteLayout
