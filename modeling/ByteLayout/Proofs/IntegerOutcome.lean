/-
  ByteLayout.Proofs.IntegerOutcome
  ────────────────────────────────
  **WHAT DIGITS COME TO.**

  Where a source goes on with a digit, an integer begins there.  Its text is
  the longest that digits, or the announcement of a base and digits of it,
  make from there on (`Base.Begins`); the byte after that text decides what
  becomes of it, in one of five ways (`IntegerOutcome`).

  The reading of tokens does not look for the longest text: it takes byte
  after byte, and a zero may yet turn out to announce a base.  But it takes
  the bytes of any text that begins an integer (`Base.Begins.exists_lexeme`),
  and then goes on exactly with a byte that makes a longer one; so after the
  longest its verdict is that of an integer that ends
  (`Lexeme.next_eq_nextInteger`).

  What is in front of the integer has to be apart from it (`Apart`).  The main
  result is `integer_outcome`.
-/
import ByteLayout.Proofs.Sightings
import ByteLayout.Proofs.Splitting
import Mathlib.Data.List.Infix

namespace ByteLayout

/-! ## §1. Where an integer begins. -/

/-- The bytes are what an integer of the base begins with: the announcement of
the base, and digits of it after that, if any.  Base ten has no announcement,
and needs a digit. -/
def Base.Begins (base : Base) (bs : List UInt8) : Prop :=
  ∃ digits, (∀ d ∈ digits, base.IsDigit d) ∧ (base = .decimal → digits ≠ [])
    ∧ bs = Utf8.bytes base.sign ++ digits

instance (base : Base) : DecidablePred base.Begins := fun bs =>
  decidable_of_iff
    ((Utf8.bytes base.sign).isPrefixOf bs
      ∧ (bs.drop (Utf8.bytes base.sign).length).all base.accepts
      ∧ (base = .decimal → bs.drop (Utf8.bytes base.sign).length ≠ [])) <| by
    simp only [List.isPrefixOf_iff_prefix, List.all_eq_true, Base.accepts_iff]
    constructor
    · intro h
      obtain ⟨⟨digits, rfl⟩, hdigits, hne⟩ := h
      rw [List.drop_left] at hdigits hne
      exact ⟨digits, hdigits, hne, rfl⟩
    · intro h
      obtain ⟨digits, hdigits, hne, rfl⟩ := h
      rw [List.drop_left]
      exact ⟨List.prefix_append _ _, hdigits, hne⟩

/-- Of the bytes at the front of the source that begin an integer, in whatever
base, these are the most. -/
def LongestBegun (source : List UInt8) : List UInt8 → Prop :=
  IsLongest (fun bs => bs <+: source ∧ ∃ base : Base, base.Begins bs)

instance (source : List UInt8) : DecidablePred (LongestBegun source) := fun bs =>
  decidable_of_iff
    ((bs <+: source ∧ ∃ base ∈ Base.all, base.Begins bs)
      ∧ ∀ p ∈ source.inits, (∃ base ∈ Base.all, base.Begins p) → p <+: bs) <| by
    simp [LongestBegun, IsLongest, Base.mem_all]

namespace Base

variable {base other : Base} {bs : List UInt8} {b : UInt8}

/-- The base that an integer begins with can be told from its bytes. -/
theorem Begins.of_eq (h : base.Begins bs) : of bs = base := by
  obtain ⟨digits, hdigits, -, rfl⟩ := h
  exact of_sign_append hdigits

/-- Bytes begin an integer of one base at most. -/
theorem Begins.unique (h : base.Begins bs) (h' : other.Begins bs) : base = other :=
  h.of_eq.symm.trans h'.of_eq

/-- With another digit the bytes still begin an integer. -/
theorem Begins.concat (h : base.Begins bs) (hb : base.IsDigit b) :
    base.Begins (bs ++ [b]) := by
  obtain ⟨digits, hdigits, -, rfl⟩ := h
  refine ⟨digits ++ [b], List.forall_mem_append.2 ⟨hdigits, ?_⟩, fun _ => by simp,
    List.append_assoc _ _ _⟩
  exact List.forall_mem_singleton.2 hb

theorem begins_decimal_singleton (h : ByteClass.isDigit b) : decimal.Begins [b] := by
  refine ⟨[b], List.forall_mem_singleton.2 ?_, fun _ => List.cons_ne_nil _ _, rfl⟩
  simpa [ByteClass.isDigit, IsDigit] using h

/-- A letter after a zero begins the base that it announces. -/
theorem begins_of_ofLetter? (h : ofLetter? b = some base) :
    base.Begins ['0'.toUInt8, b] := by
  obtain ⟨hbase, hsign⟩ := ofLetter?_eq_some_iff.1 h
  exact ⟨[], List.forall_mem_nil _, fun hd => absurd hd hbase,
    hsign.symm.trans (List.append_nil _).symm⟩

/-- With a digit, what begins an integer is one. -/
theorem Begins.isInteger (h : base.Begins bs) (hbs : bs ≠ Utf8.bytes base.sign) :
    IsInteger bs := by
  obtain ⟨digits, hdigits, -, rfl⟩ := h
  refine ⟨base, digits, ?_, hdigits, rfl⟩
  rintro rfl
  exact hbs (List.append_nil _)

/-- What begins an integer is text. -/
theorem Begins.exists_bytes (h : base.Begins bs) : ∃ text, Utf8.bytes text = bs := by
  by_cases hbs : bs = Utf8.bytes base.sign
  · exact ⟨base.sign, hbs.symm⟩
  · exact Kind.Lexeme.exists_bytes (k := .integer) (h.isInteger hbs) nofun

/-- Only the announcement of a base is there without digits. -/
theorem Begins.ne_decimal (h : base.Begins (Utf8.bytes base.sign)) : base ≠ .decimal := by
  rintro rfl
  obtain ⟨digits, -, hne, hbs⟩ := h
  exact hne rfl hbs.symm

end Base

/-- Where a source goes on with a digit, some text is the longest. -/
theorem exists_longestBegun {source : List UInt8}
    (h : ∃ b ∈ source.head?, ByteClass.isDigit b) :
    ∃ text, LongestBegun source (Utf8.bytes text) := by
  obtain ⟨b, hb, hdigit⟩ := h
  obtain ⟨rest, rfl⟩ : ∃ rest, source = b :: rest := List.head?_eq_some_iff.1 hb
  obtain ⟨bs, hbs⟩ := exists_isLongest_prefix (P := fun bs => ∃ base : Base, base.Begins bs)
    ⟨[b], ⟨rest, rfl⟩, .decimal, Base.begins_decimal_singleton hdigit⟩
  obtain ⟨base, hbase⟩ := hbs.1.2
  obtain ⟨text, rfl⟩ := hbase.exists_bytes
  exact ⟨text, hbs⟩

/-- The byte after the longest text does not make a longer one. -/
theorem LongestBegun.not_begins_concat {bs rest : List UInt8}
    (h : LongestBegun (bs ++ rest) bs) {b : UInt8} (hb : b ∈ rest.head?) (base : Base) :
    ¬ base.Begins (bs ++ [b]) := by
  intro hbase
  obtain ⟨others, rfl⟩ : ∃ others, rest = b :: others := List.head?_eq_some_iff.1 hb
  have hle := (h.2 (bs ++ [b]) ⟨⟨others, by simp⟩, base, hbase⟩).length_le
  rw [List.length_append, List.length_singleton] at hle
  omega

/-! ## §2. The lexeme that an integer's bytes make. -/

namespace Lexeme

variable {l l' : Lexeme} {base : Base} {bs : List UInt8} {ahead : Option UInt8}

/-- A lexeme keeps to its shape over the bytes that it takes. -/
theorem fits_of_take? (hf : l.shape.Fits l.bytes) (h : l.take? bs = some l') :
    l'.shape.Fits l'.bytes := by
  induction bs generalizing l with
  | nil =>
    cases h
    exact hf
  | cons b bs ih =>
    obtain ⟨s, hn, ht⟩ := take?_cons_eq_some_iff.1 h
    refine ih ?_ ht
    rw [bytes_push]
    exact fits_of_next hf hn

/-- The announcement of a base is taken whole. -/
theorem exists_take?_of_sign (hbase : base ≠ .decimal) :
    ∃ b cs l l', Utf8.bytes base.sign = b :: cs ∧ begin? 0 b = .ok l
      ∧ l.take? cs = some l' ∧ l'.shape.kind? = some .integer := by
  obtain ⟨letter, hsign, hletter⟩ := exists_letter hbase
  have hmore : (⟨0, .zero, ['0'.toUInt8]⟩ : Lexeme).next (some letter)
      = .more (.bare base) := by
    rw [next_of_zero rfl, Option.bind_some, hletter]
  exact ⟨'0'.toUInt8, [letter], ⟨0, .zero, ['0'.toUInt8]⟩, _, hsign,
    begin?_eq_ok_iff.2 ⟨_, by decide, rfl⟩, take?_of_more hmore [], rfl⟩

/-- After the longest text an integer goes on with nothing: its verdict is that
of an integer that ends here, or cannot. -/
theorem next_eq_nextInteger (hf : l.shape.Fits l.bytes)
    (hk : l.shape.kind? = some .integer) (hbase : base.Begins l.bytes)
    (hahead : ∀ b ∈ ahead, ∀ other : Base, ¬ other.Begins (l.bytes ++ [b])) :
    l.next ahead = l.nextInteger base (l.bytes = Utf8.bytes base.sign) ahead := by
  cases hs : l.shape with
  | mark m | blank | word | quoted q =>
    rw [hs] at hk
    cases hk
  | zero =>
    rw [hs] at hf
    have hbytes : l.bytes = ['0'.toUInt8] := hf
    obtain rfl : base = .decimal :=
      hbase.unique (hbytes ▸ Base.begins_decimal_singleton (by decide))
    -- No letter ahead announces a base: with it the text would be longer.
    have hletter : ahead.bind Base.ofLetter? = none := by
      by_contra hne
      obtain ⟨other, hother⟩ := Option.ne_none_iff_exists'.1 hne
      obtain ⟨b, hb, hletter⟩ := Option.bind_eq_some_iff.1 hother
      exact hahead b hb other (hbytes ▸ Base.begins_of_ofLetter? hletter)
    rw [next_of_zero hs, hletter, hbytes]
    rfl
  | bare other =>
    rw [hs] at hf
    have hother : other.Begins l.bytes :=
      ⟨[], List.forall_mem_nil _, fun hd => absurd hd hf.1, by rw [hf.2, List.append_nil]⟩
    obtain rfl : base = other := hbase.unique hother
    rw [next_of_bare hs, decide_eq_true hf.2]
  | digits other =>
    rw [hs] at hf
    obtain ⟨digits, hne, hdigits, hbytes⟩ := hf
    obtain rfl : base = other := hbase.unique ⟨digits, hdigits, fun _ => hne, hbytes⟩
    have hbare : l.bytes ≠ Utf8.bytes base.sign := by
      rw [hbytes]
      exact fun h => hne (List.append_right_eq_self.1 h)
    rw [next_of_digits hs, decide_eq_false hbare]

section

variable {b : UInt8} {bare : Bool}

/-- Where an integer may end, it has to have digits. -/
theorem nextInteger_bare_of_endsBefore (hends : Kind.integer.EndsBefore ahead) :
    l.nextInteger base true ahead = .refuse (.noDigits base.sign l.start) := by
  cases ahead with
  | none => rfl
  | some b =>
    simp only [nextInteger]
    rw [if_pos (ByteClass.endsInteger_of_iff.2 hends)]
    rfl

/-- A byte that neither ends an integer nor goes on with it is refused. -/
theorem nextInteger_of_fault (hends : ¬ Kind.integer.EndsBefore (some b))
    (hdigit : ¬ base.IsDigit b) :
    l.nextInteger base bare (some b)
      = if b = Mark.dot.byte ∧ base = .decimal then .refuse (.fraction l.stop)
        else if base.announced && (ByteClass.of b).isWordPart then
          .refuse (.badDigit b base l.stop)
        else .refuse (.badFollower b l.stop) := by
  simp only [nextInteger]
  rw [if_neg (mt ByteClass.endsInteger_of_iff.1 hends), if_neg (mt Base.accepts_iff.1 hdigit)]

/-- Letters and digits are refused as digits of the base that is announced. -/
theorem announced_and_isWordPart_iff :
    (base.announced && (ByteClass.of b).isWordPart) = true
      ↔ base ≠ .decimal ∧ (ByteClass.isLetter b ∨ ByteClass.isDigit b) := by
  have hannounced : base.announced ↔ base ≠ .decimal := by cases base <;> decide
  rw [Bool.and_eq_true, ByteClass.isWordPart_of_iff, hannounced]

end

end Lexeme

/-- What begins an integer is taken whole, and makes a lexeme of that kind. -/
theorem Base.Begins.exists_lexeme {base : Base} {bs : List UInt8} (h : base.Begins bs) :
    ∃ l : Lexeme, l.start = 0 ∧ l.bytes = bs ∧ l.shape.Fits l.bytes
      ∧ l.shape.kind? = some .integer
      ∧ ∀ rest, scanFrom 0 (bs ++ rest) = l.scan rest := by
  have htaken : ∃ b cs l l', bs = b :: cs ∧ Lexeme.begin? 0 b = .ok l
      ∧ l.take? cs = some l' ∧ l'.shape.kind? = some .integer := by
    by_cases hbs : bs = Utf8.bytes base.sign
    · subst hbs
      exact Lexeme.exists_take?_of_sign h.ne_decimal
    · obtain ⟨b, cs, l, l', hcons, hbegin, htake, hkind, -⟩ :=
        Lexeme.taken_integer (h.isInteger hbs) 0
      exact ⟨b, cs, l, l', hcons, hbegin, htake, hkind⟩
  obtain ⟨b, cs, l, l', rfl, hbegin, htake, hkind⟩ := htaken
  obtain ⟨s, hs, rfl⟩ := Lexeme.begin?_eq_ok_iff.1 hbegin
  obtain ⟨hstart, hbytes⟩ := Lexeme.start_and_bytes_of_take? htake
  refine ⟨l', hstart, hbytes, Lexeme.fits_of_take? (Shape.fits_start hs) htake, hkind,
    fun rest => ?_⟩
  rw [List.cons_append, scanFrom, hbegin]
  exact Lexeme.scan_append_of_take? htake rest

/-! ## §3. What is in front. -/

/-- No digit goes on with what is in front: it is nothing, or ends in blank
space, or its last token is a mark or a string. -/
def Apart (front : List UInt8) (ts : List Token) : Prop :=
  front = [] ∨ (∃ w ∈ front.getLast?, ByteClass.isBlank w)
    ∨ ∃ t ∈ ts.getLast?, t.kind = .string ∨ ∃ m, t.kind = .mark m

/-- No byte of a word separates tokens. -/
theorem ByteClass.not_isBlank_of_isWordPart {b : UInt8} (h : (of b).isWordPart) :
    ¬ isBlank b := by
  intro hb
  rw [of_eq_blank_iff.2 hb] at h
  cases h

/-- No lexeme ends in blank space. -/
theorem Kind.Lexeme.not_isBlank_getLast {k : Kind} {bs : List UInt8} (h : k.Lexeme bs) :
    ∀ w ∈ bs.getLast?, ¬ ByteClass.isBlank w := by
  intro w hw
  have hmem : w ∈ bs := List.mem_of_getLast? hw
  cases k with
  | mark m =>
    cases (show bs = [m.byte] from h)
    rw [List.mem_singleton.1 hmem]
    cases m <;> decide
  | identifier =>
    obtain ⟨first, others, rfl, hfirst, hothers⟩ := h
    apply ByteClass.not_isBlank_of_isWordPart
    rw [ByteClass.isWordPart_of_iff]
    rcases List.mem_cons.1 hmem with rfl | hmem
    · exact .inl hfirst
    · exact hothers w hmem
  | integer =>
    obtain ⟨base, digits, hne, hdigits, rfl⟩ := h
    rw [List.getLast?_append_of_ne_nil _ hne] at hw
    exact ByteClass.not_isBlank_of_isWordPart
      (hdigits w (List.mem_of_getLast? hw)).isWordPart
  | string =>
    obtain ⟨-, j, hlength, hcloses, -⟩ := h
    rw [List.getLast?_eq_getElem?, hlength, Nat.add_sub_cancel, hcloses.2.1] at hw
    cases hw
    decide

section

variable {front rest : List UInt8} {ts : List Token}

/-- A source splits after blank space. -/
theorem Spelled.splits_of_isBlank (h : Spelled front ts)
    (hblank : ∃ w ∈ front.getLast?, ByteClass.isBlank w) (rest : List UInt8) :
    Splits front ts rest := by
  induction h with
  | gap hgap => exact splits_blank hgap rest
  | @token blank others t ts hgap hlexeme hends hothers ih =>
    obtain ⟨w, hw, hwblank⟩ := hblank
    by_cases hne : others = []
    · -- The last byte would be that of a lexeme.
      subst hne
      have htext : Utf8.bytes t.text ≠ [] := List.length_pos_iff.1 hlexeme.length_pos
      rw [List.append_nil, List.getLast?_append_of_ne_nil _ htext] at hw
      exact absurd hwblank (hlexeme.not_isBlank_getLast w hw)
    · -- The blank is at the end of what is left, so the lexeme ends before the
      -- same byte as it did.
      rw [List.getLast?_append_of_ne_nil _ hne] at hw
      have hnext : t.kind.EndsBefore (others ++ rest).head? := by
        rwa [List.head?_append_of_ne_nil _ hne]
      exact ((splits_blank hgap _).append (splits_lexeme hlexeme hnext)).append
        (ih ⟨w, hw, hwblank⟩)

/-- A source splits after what is apart. -/
theorem splits_of_apart (h : tokensOf front = .ok ts) (hapart : Apart front ts)
    (rest : List UInt8) : Splits front ts rest := by
  have hspelled := tokensOf_eq_ok_iff.1 h
  rcases hapart with rfl | hblank | ⟨t, ht, hkind⟩
  · cases hspelled.eq_nil
    exact splits_blank (List.forall_mem_nil _) rest
  · exact hspelled.splits_of_isBlank hblank rest
  · refine hspelled.splits (fun u hu => ?_)
    cases Option.some.inj (ht.symm.trans hu)
    rcases hkind with hkind | ⟨m, hkind⟩
    · rw [hkind]
      trivial
    · rw [hkind]
      trivial

end

/-! ## §4. The five outcomes. -/

/-- What a source comes to that has the text of an integer in it, at the offset
after some tokens and in front of the rest: if the integer may end there, it is
the next token, or has no digits; if not, the next byte is at fault. -/
structure IntegerOutcome (ts : List Token) (start : Nat) (base : Base) (text : String)
    (rest : List UInt8) (outcome : Except LexicalError (List Token)) : Prop where
  /-- The announcement of a base, without digits. -/
  noDigits : Kind.integer.EndsBefore rest.head? → text = base.sign →
    outcome = .error (.noDigits text start)
  /-- A whole integer, in front of what the rest comes to. -/
  whole : Kind.integer.EndsBefore rest.head? → text ≠ base.sign →
    outcome = ((Intake.standard.read (.ofBytes rest)).outcome.map
      (ts ++ [⟨.integer, text⟩] ++ ·)).mapError
        (LexicalError.shift (start + (Utf8.bytes text).length))
  /-- A point after base ten. -/
  fraction : ∀ b ∈ rest.head?, ¬ Kind.integer.EndsBefore (some b) →
    b = Mark.dot.byte → base = .decimal →
    outcome = .error (.fraction (start + (Utf8.bytes text).length))
  /-- A letter or a digit after another base. -/
  badDigit : ∀ b ∈ rest.head?, ¬ Kind.integer.EndsBefore (some b) →
    base ≠ .decimal → (ByteClass.isLetter b ∨ ByteClass.isDigit b) →
    outcome = .error (.badDigit b base (start + (Utf8.bytes text).length))
  /-- Anything else. -/
  badFollower : ∀ b ∈ rest.head?, ¬ Kind.integer.EndsBefore (some b) →
    ¬ (b = Mark.dot.byte ∧ base = .decimal) →
    ¬ (base ≠ .decimal ∧ (ByteClass.isLetter b ∨ ByteClass.isDigit b)) →
    outcome = .error (.badFollower b (start + (Utf8.bytes text).length))

section

variable {front rest : List UInt8} {ts : List Token} {base : Base} {text : String}

/-- Where the verdict on an integer's text is a refusal, it is that of the whole
source, with offsets from its start. -/
theorem tokensOf_eq_refusal {e : LexicalError} {l : Lexeme}
    (hsplits : Splits front ts (Utf8.bytes text ++ rest))
    (hscan : scanFrom 0 (Utf8.bytes text ++ rest) = l.scan rest)
    (hn : l.next rest.head? = .refuse e) :
    tokensOf (front ++ (Utf8.bytes text ++ rest)) = .error (e.shift front.length) := by
  rw [hsplits.tokensOf_append, tokensOf_eq_scan, hscan, Lexeme.scan_of_refuse rest hn]
  rfl

/-- A whole integer is one more token in front of the rest. -/
theorem tokensOf_integer_append (hsplits : Splits front ts (Utf8.bytes text ++ rest))
    (hinteger : IsInteger (Utf8.bytes text))
    (hends : Kind.integer.EndsBefore rest.head?) :
    tokensOf (front ++ (Utf8.bytes text ++ rest))
      = ((tokensOf rest).map (ts ++ [⟨.integer, text⟩] ++ ·)).mapError
          (LexicalError.shift (front.length + (Utf8.bytes text).length)) := by
  have htoken : Splits (Utf8.bytes text) [⟨.integer, text⟩] rest :=
    splits_lexeme (t := ⟨.integer, text⟩) hinteger hends
  rw [← List.append_assoc, ← List.length_append]
  exact (hsplits.append htoken).tokensOf_append

/-- After the longest text that begins an integer, one of the five comes of the
source. -/
theorem integerOutcome_of_longest (h : tokensOf front = .ok ts) (hapart : Apart front ts)
    (hlongest : LongestBegun (Utf8.bytes text ++ rest) (Utf8.bytes text))
    (hbase : base.Begins (Utf8.bytes text)) :
    IntegerOutcome ts front.length base text rest
      (tokensOf (front ++ (Utf8.bytes text ++ rest))) := by
  have hsplits := splits_of_apart h hapart (Utf8.bytes text ++ rest)
  obtain ⟨l, hstart, hbytes, hf, hk, hscan⟩ := hbase.exists_lexeme
  -- No byte ahead makes a longer text, so the verdict is that on an integer.
  have hlonger {b : UInt8} (hb : b ∈ rest.head?) (other : Base) :
      ¬ other.Begins (Utf8.bytes text ++ [b]) := hlongest.not_begins_concat hb other
  have hverdict : l.next rest.head?
      = l.nextInteger base (l.bytes = Utf8.bytes base.sign) rest.head? :=
    Lexeme.next_eq_nextInteger hf hk (hbytes ▸ hbase)
      (fun b hb other => hbytes ▸ hlonger hb other)
  have hdigit {b : UInt8} (hb : b ∈ rest.head?) : ¬ base.IsDigit b :=
    fun hd => hlonger hb base (hbase.concat hd)
  have hstop : l.stop + front.length = front.length + (Utf8.bytes text).length := by
    rw [Lexeme.stop_eq_add_length, hstart, hbytes]
    omega
  -- If it is a refusal, so is that of the source, with the offset moved.
  have hrefuse {ahead : Option UInt8} (hahead : rest.head? = ahead) {e e' : LexicalError}
      (he : l.nextInteger base (l.bytes = Utf8.bytes base.sign) ahead = .refuse e)
      (hshift : e.shift front.length = e') :
      tokensOf (front ++ (Utf8.bytes text ++ rest)) = .error e' := by
    subst hahead
    exact hshift ▸ tokensOf_eq_refusal hsplits (hscan rest) (hverdict.trans he)
  exact {
    noDigits := by
      intro hends htext
      subst htext
      have hbare : l.nextInteger base (l.bytes = Utf8.bytes base.sign) rest.head?
          = .refuse (.noDigits base.sign l.start) := by
        rw [decide_eq_true hbytes]
        exact Lexeme.nextInteger_bare_of_endsBefore hends
      have hoffset : l.start + front.length = front.length := by omega
      exact hrefuse rfl hbare (congrArg (LexicalError.noDigits base.sign) hoffset)
    whole := by
      intro hends htext
      rw [Intake.outcome_read_standard]
      refine tokensOf_integer_append hsplits (hbase.isInteger ?_) hends
      exact fun hbare => htext (Utf8.bytes_inj.1 hbare)
    fraction := by
      intro b hb hends hdot hdecimal
      have hpoint : l.nextInteger base (l.bytes = Utf8.bytes base.sign) (some b)
          = .refuse (.fraction l.stop) := by
        rw [Lexeme.nextInteger_of_fault hends (hdigit hb), if_pos ⟨hdot, hdecimal⟩]
      exact hrefuse hb hpoint (congrArg LexicalError.fraction hstop)
    badDigit := by
      intro b hb hends hannounced hword
      have hbad : l.nextInteger base (l.bytes = Utf8.bytes base.sign) (some b)
          = .refuse (.badDigit b base l.stop) := by
        rw [Lexeme.nextInteger_of_fault hends (hdigit hb), if_neg (fun h => hannounced h.2),
          if_pos (Lexeme.announced_and_isWordPart_iff.2 ⟨hannounced, hword⟩)]
      exact hrefuse hb hbad (congrArg (LexicalError.badDigit b base) hstop)
    badFollower := by
      intro b hb hends hdot hword
      have hbad : l.nextInteger base (l.bytes = Utf8.bytes base.sign) (some b)
          = .refuse (.badFollower b l.stop) := by
        rw [Lexeme.nextInteger_of_fault hends (hdigit hb), if_neg hdot,
          if_neg (mt Lexeme.announced_and_isWordPart_iff.1 hword)]
      exact hrefuse hb hbad (congrArg (LexicalError.badFollower b) hstop) }

end

/-- **What digits come to.**  Where a source goes on with a digit, apart from the
whole tokens in front, some text is the longest that begins an integer there;
and what comes of the source is decided by that text and the byte after it.
If an integer may end there, the text is the next token, and the rest is read as
it would be alone, with offsets from the start of the whole; or it lacks its
digits.  If not, that byte is at fault. -/
theorem integer_outcome (front source : List UInt8) (ts : List Token)
    (hfront : (Intake.standard.read (.ofBytes front)).outcome = .ok ts)
    (hapart : Apart front ts) (hdigit : ∃ b ∈ source.head?, ByteClass.isDigit b) :
    (∃ text, LongestBegun source (Utf8.bytes text))
      ∧ ∀ (base : Base) (text : String) (rest : List UInt8),
        source = Utf8.bytes text ++ rest →
        LongestBegun source (Utf8.bytes text) → base.Begins (Utf8.bytes text) →
        IntegerOutcome ts front.length base text rest
          (Intake.standard.read (.ofBytes (front ++ source))).outcome := by
  refine ⟨exists_longestBegun hdigit, ?_⟩
  rintro base text rest rfl hlongest hbase
  rw [Intake.outcome_read_standard] at hfront ⊢
  exact integerOutcome_of_longest hfront hapart hlongest hbase

/-- Each of the five: after an opening bracket, after blank space, after a
string, after nothing and after a colon. -/
theorem integer_outcome_of_each :
    (Intake.standard.read (.ofBytes (Utf8.bytes "a[" ++ Utf8.bytes "0b]"))).outcome
        = .error (.noDigits "0b" 2)
      ∧ (Intake.standard.read (.ofBytes (Utf8.bytes "7 " ++ Utf8.bytes "0x1F,#"))).outcome
        = .error (.unknownByte '#'.toUInt8 7)
      ∧ (Intake.standard.read (.ofBytes (Utf8.bytes "\x22\x22" ++ Utf8.bytes "00.5"))).outcome
        = .error (.fraction 4)
      ∧ (Intake.standard.read (.ofBytes ([] ++ Utf8.bytes "0b102"))).outcome
        = .error (.badDigit '2'.toUInt8 .binary 4)
      ∧ (Intake.standard.read (.ofBytes (Utf8.bytes "n:" ++ Utf8.bytes "12:"))).outcome
        = .error (.badFollower ':'.toUInt8 4) := by
  refine ⟨?_, ?_, ?_, ?_, ?_⟩
  · have hfront : (Intake.standard.read (.ofBytes (Utf8.bytes "a["))).outcome
        = .ok [⟨.identifier, "a"⟩, ⟨.mark .openBracket, "["⟩] := by decide +kernel
    have hapart : Apart (Utf8.bytes "a[")
        [⟨.identifier, "a"⟩, ⟨.mark .openBracket, "["⟩] :=
      .inr (.inr ⟨_, rfl, .inr ⟨_, rfl⟩⟩)
    have houtcome := (integer_outcome _ (Utf8.bytes "0b]") _ hfront hapart
      ⟨_, rfl, by decide⟩).2 .binary "0b" [']'.toUInt8] rfl (by decide +kernel)
        (by decide +kernel)
    exact houtcome.noDigits (by decide) rfl
  · have hfront : (Intake.standard.read (.ofBytes (Utf8.bytes "7 "))).outcome
        = .ok [⟨.integer, "7"⟩] := by decide +kernel
    have hapart : Apart (Utf8.bytes "7 ") [⟨.integer, "7"⟩] :=
      .inr (.inl ⟨_, rfl, by decide⟩)
    have hrest : (Intake.standard.read (.ofBytes [','.toUInt8, '#'.toUInt8])).outcome
        = .error (.unknownByte '#'.toUInt8 1) := by decide +kernel
    have houtcome := (integer_outcome _ (Utf8.bytes "0x1F,#") _ hfront hapart
      ⟨_, rfl, by decide⟩).2 .hexadecimal "0x1F" [','.toUInt8, '#'.toUInt8] rfl
        (by decide +kernel) (by decide +kernel)
    rw [houtcome.whole (by decide) (by decide), hrest]
    rfl
  · have hfront : (Intake.standard.read (.ofBytes (Utf8.bytes "\x22\x22"))).outcome
        = .ok [⟨.string, "\x22\x22"⟩] := by decide +kernel
    have hapart : Apart (Utf8.bytes "\x22\x22") [⟨.string, "\x22\x22"⟩] :=
      .inr (.inr ⟨_, rfl, .inl rfl⟩)
    have houtcome := (integer_outcome _ (Utf8.bytes "00.5") _ hfront hapart
      ⟨_, rfl, by decide⟩).2 .decimal "00" ['.'.toUInt8, '5'.toUInt8] rfl
        (by decide +kernel) (by decide +kernel)
    exact houtcome.fraction _ rfl (by decide) rfl rfl
  · have houtcome := (integer_outcome [] (Utf8.bytes "0b102") [] rfl (.inl rfl)
      ⟨_, rfl, by decide⟩).2 .binary "0b10" ['2'.toUInt8] rfl (by decide +kernel)
        (by decide +kernel)
    exact houtcome.badDigit _ rfl (by decide) (by decide) (by decide)
  · have hfront : (Intake.standard.read (.ofBytes (Utf8.bytes "n:"))).outcome
        = .ok [⟨.identifier, "n"⟩, ⟨.mark .colon, ":"⟩] := by decide +kernel
    have hapart : Apart (Utf8.bytes "n:") [⟨.identifier, "n"⟩, ⟨.mark .colon, ":"⟩] :=
      .inr (.inr ⟨_, rfl, .inr ⟨_, rfl⟩⟩)
    have houtcome := (integer_outcome _ (Utf8.bytes "12:") _ hfront hapart
      ⟨_, rfl, by decide⟩).2 .decimal "12" [':'.toUInt8] rfl (by decide +kernel)
        (by decide +kernel)
    exact houtcome.badFollower _ rfl (by decide) (by decide) (by decide)

end ByteLayout
