/-
  ByteLayout.Proofs.Representation
  ────────────────────────────────
  **WHAT A LEXER HOLDS.**

  Between two bytes a lexer holds the tokens found, and the lexeme in hand with
  its start and its shape.  Together they make up the bytes taken in, but for
  blank space around the tokens:

      0                      start                     next byte
      |  tokens and space    |  the lexeme in hand     |

  The shape goes with the class of the first byte in hand (`Shape.byteClass`),
  and the class says what the bytes in hand can be: a lexeme that has begun as
  a byte of this class begins one, and may be whole (`ByteClass.Begun`).

  That a byte keeps what is in hand in step with the bytes taken in is
  `Lexer.InHand.push`, and that it keeps what is found so is
  `Lexer.Shows.push`.  The main result is `lexer_holds`.
-/
import ByteLayout.Proofs.IntegerOutcome

namespace ByteLayout

/-! ## §1. Strings that have begun. -/

/-- The bytes end in a quotation mark, and one that closes. -/
def EndsClosing (bs : List UInt8) : Prop :=
  ClosesAt bs (bs.length - 1)

/-- Some bytes from a quotation mark on, of which none in front of the last
closes. -/
def IsBegunString (bs : List UInt8) : Prop :=
  bs[0]? = some quotationMark
    ∧ ∀ front, front <+: bs → front ≠ bs → ¬ EndsClosing front

instance : DecidablePred EndsClosing := fun bs =>
  inferInstanceAs (Decidable (ClosesAt bs _))

instance : DecidablePred IsBegunString := fun bs =>
  decidable_of_iff
    (bs[0]? = some quotationMark
      ∧ ∀ front ∈ bs.inits, front ≠ bs → ¬ EndsClosing front) <| by
    simp only [List.mem_inits, IsBegunString]

/-- Where the front of some bytes closes a string, so do they. -/
theorem EndsClosing.closesAt {front bs : List UInt8} (h : EndsClosing front)
    (hfront : front <+: bs) : ClosesAt bs (front.length - 1) := by
  obtain ⟨rest, rfl⟩ := hfront
  exact (closesAt_append h.lt_length).2 h

/-- An open string has begun. -/
theorem IsOpenString.isBegunString {bs : List UInt8} (h : IsOpenString bs) :
    IsBegunString bs := by
  refine ⟨h.1, fun front hfront _ hcloses => ?_⟩
  exact h.2 _ (hcloses.closesAt hfront)

/-- A whole string has begun too: only its last byte closes it. -/
theorem IsString.isBegunString {bs : List UInt8} (h : IsString bs) :
    IsBegunString bs := by
  obtain ⟨hfirst, j, hlength, -, hmin⟩ := h
  refine ⟨hfirst, fun front hfront hne hcloses => ?_⟩
  have hpos := hcloses.lt_length
  have hlt : front.length < bs.length := by
    apply Nat.lt_of_le_of_ne hfront.length_le
    exact fun heq => hne (hfront.eq_of_length heq)
  exact hmin (front.length - 1) (by omega) (hcloses.closesAt hfront)

/-- So whatever the lexer has in hand of a string has begun one. -/
theorem Quoting.Fits.isBegunString {q : Quoting} {bs : List UInt8} (h : q.Fits bs) :
    IsBegunString bs := by
  by_cases hq : q = .closed
  · subst hq
    exact IsString.isBegunString h
  · exact (h.isOpenString hq).isBegunString

/-! ## §2. Lexemes that have begun. -/

/-- The class of the byte that a lexeme of the shape begins with. -/
def Shape.byteClass : Shape → ByteClass
  | .mark m => .mark m
  | .blank => .blank
  | .word => .letter
  | .zero | .bare _ | .digits _ => .digit
  | .quoted _ => .quote

/-- The bytes are those of a lexeme that has begun with a byte of the class,
and may be whole. -/
def ByteClass.Begun : ByteClass → List UInt8 → Prop
  | .mark m, bs => bs = [m.byte]
  | .blank, bs => bs ≠ [] ∧ ∀ b ∈ bs, isBlank b
  | .letter, bs => IsIdentifier bs
  | .digit, bs => ∃ base : Base, base.Begins bs
  | .quote, bs => IsBegunString bs
  | .foreign, _ => False

instance : (c : ByteClass) → DecidablePred c.Begun
  | .mark _, _ => inferInstanceAs (Decidable (_ = _))
  | .blank, _ => inferInstanceAs (Decidable (_ ∧ _))
  | .letter, bs => inferInstanceAs (Decidable (IsIdentifier bs))
  | .digit, bs =>
    decidable_of_iff (∃ base ∈ Base.all, base.Begins bs) <| by
      simp only [Base.mem_all, true_and, ByteClass.Begun]
  | .quote, bs => inferInstanceAs (Decidable (IsBegunString bs))
  | .foreign, _ => isFalse id

/-- What begins an integer begins with a digit. -/
theorem Base.Begins.head {base : Base} {bs : List UInt8} (h : base.Begins bs) :
    ∃ b ∈ bs.head?, ByteClass.isDigit b := by
  obtain ⟨digits, hdigits, hne, rfl⟩ := h
  cases base with
  | decimal =>
    obtain ⟨d, others, rfl⟩ := List.exists_cons_of_ne_nil (hne rfl)
    exact ⟨d, rfl, by simpa [ByteClass.isDigit, IsDigit] using hdigits d List.mem_cons_self⟩
  | hexadecimal | octal | binary => exact ⟨'0'.toUInt8, rfl, by decide⟩

/-- What has begun as bytes of a class do begins with a byte of the class. -/
theorem ByteClass.Begun.head {c : ByteClass} {bs : List UInt8} (h : c.Begun bs) :
    bs.head?.map of = some c := by
  have hsome {b : UInt8} (hb : b ∈ bs.head?) (hc : of b = c) :
      bs.head?.map of = some c := by
    rw [Option.mem_def.1 hb]
    exact congrArg some hc
  -- One case for each class; only those of quotation marks and digits tell more
  -- than the first byte.
  cases c with
  | mark m =>
    cases (show bs = [m.byte] from h)
    exact hsome rfl (of_markByte m)
  | blank =>
    obtain ⟨hne, hblank⟩ := h
    obtain ⟨b, others, rfl⟩ := List.exists_cons_of_ne_nil hne
    exact hsome rfl (of_eq_blank_iff.2 (hblank b List.mem_cons_self))
  | letter =>
    obtain ⟨first, others, rfl, hfirst, -⟩ := h
    exact hsome rfl (of_eq_letter_iff.2 hfirst)
  | digit =>
    obtain ⟨base, hbegins⟩ := h
    obtain ⟨b, hb, hdigit⟩ := hbegins.head
    exact hsome hb (of_eq_digit_iff.2 hdigit)
  | quote =>
    exact hsome (List.head?_eq_getElem?.trans h.1) (of_eq_quote_iff.2 rfl)
  | foreign => exact h.elim

/-- A byte that can begin nothing has begun nothing. -/
theorem ByteClass.Begun.ne_foreign {c : ByteClass} {bs : List UInt8} (h : c.Begun bs) :
    c ≠ .foreign := by
  intro hforeign
  subst hforeign
  exact h

/-- Bytes of a shape have begun as its class says. -/
theorem Shape.Fits.begun {s : Shape} {bs : List UInt8} (h : s.Fits bs) :
    s.byteClass.Begun bs := by
  cases s with
  | mark m => exact h
  | blank => exact h
  | word => exact h
  | zero =>
    cases (show bs = ['0'.toUInt8] from h)
    exact ⟨.decimal, Base.begins_decimal_singleton (by decide)⟩
  | bare base =>
    -- An announcement has begun an integer, though no digit has come.
    obtain ⟨hbase, rfl⟩ := h
    exact ⟨base, [], List.forall_mem_nil _, fun hten => absurd hten hbase,
      (List.append_nil _).symm⟩
  | digits base =>
    obtain ⟨digits, hne, hdigits, rfl⟩ := h
    exact ⟨base, digits, hdigits, fun _ => hne, rfl⟩
  | quoted q => exact Quoting.Fits.isBegunString h

/-- After a quotation mark that comes after a backslash a string goes on, and
after one that comes after two it does not. -/
example : ByteClass.Begun .quote (Utf8.bytes "\x22\\\x22a")
    ∧ ¬ ByteClass.Begun .quote (Utf8.bytes "\x22\\\\\x22a") := by
  decide +kernel

/-! ## §3. What is held of the bytes taken in. -/

namespace Lexer

/-- The offset of the next byte, by what is in hand: that after the lexeme, and
0 before the first byte. -/
def nextOffset : Option Lexeme → Nat
  | none => 0
  | some l => l.stop

/-- There a byte is met afresh, when what was in hand is complete. -/
theorem state_push_of_complete {x : Lexer} {inHand : Option Lexeme} {b : UInt8}
    (hx : x.state = .ok inHand)
    (h : ∀ l ∈ inHand, l.next (some b) = .complete ∧ ∃ found, l.token = .ok found) :
    (x.push b).state = (Lexeme.begin? (nextOffset inHand) b).map some := by
  cases inHand with
  | none => exact state_push_of_none hx b
  | some l =>
    obtain ⟨hn, found, ht⟩ := h l rfl
    rw [push_of_lexeme hx, hn]
    exact state_retire ht

end Lexer

namespace Lexeme

/-- The lexeme in hand and the tokens found are what the source has come to:
the tokens up to the lexeme's start, and the lexeme from there on. -/
structure Holds (l : Lexeme) (source : List UInt8) (found : List Sighting) : Prop where
  /-- There are bytes in hand. -/
  ne_nil : l.bytes ≠ []
  /-- They are those of the source from the start of the lexeme to the next
  byte. -/
  bytes_eq : l.bytes = (source.take l.stop).drop l.start
  /-- The shape goes with the class of the first of them. -/
  head : l.bytes.head?.map ByteClass.of = some l.shape.byteClass
  /-- It is not the class of the bytes that begin nothing. -/
  ne_foreign : l.shape.byteClass ≠ .foreign
  /-- All of them are a lexeme that has begun with a byte of this class. -/
  begun : l.shape.byteClass.Begun l.bytes
  /-- Before the lexeme there are the tokens and blank space. -/
  sighted : Sighted (source.take l.start) found

variable {l : Lexeme} {source : List UInt8} {found : List Sighting}

/-- The bytes in hand are those from the start of the lexeme to its stop. -/
theorem EndOf.bytes_eq (h : l.EndOf source) :
    l.bytes = (source.take l.stop).drop l.start := by
  rw [h.stop_eq, List.take_length, h.drop_start]

theorem EndOf.holds (h : l.EndOf source) (hfound : Sighted (source.take l.start) found) :
    l.Holds source found where
  ne_nil := h.fits.ne_nil
  bytes_eq := h.bytes_eq
  head := h.fits.begun.head
  ne_foreign := h.fits.begun.ne_foreign
  begun := h.fits.begun
  sighted := hfound

end Lexeme

/-- **What a lexer holds.**  After some bytes without an error the next offset
is the number of them, and a lexeme is in hand unless there were none.  It is
the last of the bytes, begun as the class of its first byte says, and the
tokens found are those of all the bytes before it. -/
theorem lexer_holds (source : List UInt8) (inHand : Option Lexeme)
    (h : (Lexer.empty.pushAll source).state = .ok inHand) :
    Lexer.nextOffset inHand = source.length ∧ (inHand = none → source = [])
      ∧ ∀ l ∈ inHand, l.Holds source (Lexer.empty.pushAll source).sightings := by
  have hsource := Lexer.inHand_pushAll h
  cases inHand with
  | none =>
    cases (show source = [] from hsource)
    exact ⟨rfl, fun _ => rfl, nofun⟩
  | some l =>
    have hl : l.EndOf source := hsource
    refine ⟨hl.stop_eq, nofun, fun m hm => ?_⟩
    cases hm
    exact hl.holds ((Lexer.shows_of_some h).1 (Lexer.shows_pushAll source))

/-- A string that a quotation mark after a backslash has left open, after two
tokens. -/
theorem lexer_holds_in_string :
    (Lexer.empty.pushAll (Utf8.bytes "a, \x22\\\x22")).state
        = .ok (some ⟨3, .quoted .plain, (Utf8.bytes "\x22\\\x22").reverse⟩)
      ∧ Lexeme.Holds ⟨3, .quoted .plain, (Utf8.bytes "\x22\\\x22").reverse⟩
          (Utf8.bytes "a, \x22\\\x22")
          [⟨⟨.identifier, "a"⟩, 0⟩, ⟨⟨.mark .comma, ","⟩, 1⟩] := by
  have hstate : (Lexer.empty.pushAll (Utf8.bytes "a, \x22\\\x22")).state
      = .ok (some ⟨3, .quoted .plain, (Utf8.bytes "\x22\\\x22").reverse⟩) := by
    decide +kernel
  have hfound : (Lexer.empty.pushAll (Utf8.bytes "a, \x22\\\x22")).sightings
      = [⟨⟨.identifier, "a"⟩, 0⟩, ⟨⟨.mark .comma, ","⟩, 1⟩] := by
    decide +kernel
  refine ⟨hstate, ?_⟩
  rw [← hfound]
  exact (lexer_holds _ _ hstate).2.2 _ rfl

end ByteLayout
