/-
  ByteLayout.Proofs.Scan
  ──────────────────────
  **READING TOKENS FROM THE FRONT.**

  A lexer collects the tokens it has found.  `Lexeme.scan` says the same from
  the other end: the tokens that a lexeme in hand and the bytes ahead make,
  by recursion on the bytes ahead.  One equation per verdict describes it
  (`scan_of_more`, `scan_of_complete`, `scan_of_refuse`), and the reading of
  a whole source is the scan that starts without a lexeme (`tokensOf_eq_scan`).

  `Lexeme.take?` is the part of a scan in which a lexeme only grows.
-/
import ByteLayout.Token.Lexer

namespace ByteLayout

/-! ## §1. Scanning. -/

/-- The tokens that a lexeme in hand and the bytes after it make. -/
def Lexeme.scan (l : Lexeme) : List UInt8 → Except LexicalError (List Sighting)
  | [] =>
    match l.next none with
    | .more _ | .complete => l.token.map Option.toList
    | .refuse e => .error e
  | b :: bs =>
    match l.next (some b) with
    | .more shape => (l.push shape b).scan bs
    | .complete => do
      let found ← l.token
      let next ← begin? l.stop b
      return found.toList ++ (← next.scan bs)
    | .refuse e => .error e

/-- The tokens that bytes from an offset on make, with no lexeme in hand. -/
def scanFrom (offset : Nat) : List UInt8 → Except LexicalError (List Sighting)
  | [] => .ok []
  | b :: bs => do (← Lexeme.begin? offset b).scan bs

namespace Lexeme

/-- A byte that the lexeme in hand takes is in hand from then on. -/
theorem scan_of_more {l : Lexeme} {b : UInt8} {s : Shape}
    (h : l.next (some b) = .more s) (bs : List UInt8) :
    l.scan (b :: bs) = (l.push s b).scan bs := by
  rw [scan, h]

/-- One that it refuses is the error of the scan. -/
theorem scan_of_refuse {l : Lexeme} {e : LexicalError} (rest : List UInt8)
    (h : l.next rest.head? = .refuse e) : l.scan rest = .error e := by
  cases rest with
  | nil => rw [scan, show l.next none = .refuse e from h]
  | cons b bs => rw [scan, show l.next (some b) = .refuse e from h]

/-- A complete lexeme makes its token, and the scan starts afresh after it. -/
theorem scan_of_complete {l : Lexeme} (rest : List UInt8)
    (h : l.next rest.head? = .complete) :
    l.scan rest = do
      let found ← l.token
      return found.toList ++ (← scanFrom l.stop rest) := by
  cases rest with
  | nil =>
    rw [scan, show l.next none = .complete from h]
    cases l.token with
    | error e => rfl
    | ok found => exact congrArg Except.ok (List.append_nil _).symm
  | cons b bs =>
    rw [scan, show l.next (some b) = .complete from h, scanFrom]
    cases l.token with
    | error e => rfl
    | ok found =>
      cases begin? l.stop b with
      | error e => rfl
      | ok next => rfl

/-- After a lexeme that is complete, a scan comes to its end exactly if the rest
does. -/
theorem scan_eq_ok_iff_of_complete {l : Lexeme} {found : List Sighting}
    (rest : List UInt8) (h : l.next rest.head? = .complete) :
    l.scan rest = .ok found ↔
      ∃ first others, l.token = .ok first ∧ scanFrom l.stop rest = .ok others
        ∧ found = first.toList ++ others := by
  rw [scan_of_complete rest h]
  cases l.token with
  | error e => simp [bind, Except.bind]
  | ok first =>
    cases scanFrom l.stop rest with
    | error e => simp [bind, Except.bind]
    | ok others => simp [bind, Except.bind, pure, Except.pure, eq_comm]

end Lexeme

/-! ## §2. A scan is what a lexer finds. -/

namespace Lexer

variable {x : Lexer} {l : Lexeme} {b : UInt8}

/-- What a byte does to a lexer with a lexeme in hand, by the verdict. -/
theorem push_of_lexeme (h : x.state = .ok (some l)) (b : UInt8) :
    x.push b =
      match l.next (some b) with
      | .more shape => { x with state := .ok (some (l.push shape b)) }
      | .complete => x.retire l ((Lexeme.begin? l.stop b).map some)
      | .refuse e => { x with state := .error e } := by
  unfold push
  cases hn : l.next (some b) <;> simp only [h, hn]

/-- At the end of the input a lexeme that is complete is found. -/
theorem close_of_complete (h : x.state = .ok (some l))
    (hn : l.next none = .complete) : x.close = x.retire l (.ok none) := by
  rw [close, h]
  dsimp only
  rw [hn]

/-- And one that is not is an error. -/
theorem close_of_refuse {e : LexicalError} (h : x.state = .ok (some l))
    (hn : l.next none = .refuse e) : x.close = { x with state := .error e } := by
  rw [close, h]
  dsimp only
  rw [hn]

/-- After an error nothing more is looked at. -/
theorem outcome_of_error {e : LexicalError} (h : x.state = .error e)
    (bs : List UInt8) : (x.pushAll bs).close.outcome = .error e := by
  rw [pushAll_of_error h, close_of_error h, outcome, h]

/-- A lexeme that is found leaves the lexer with what comes next. -/
theorem state_retire {found : Option Sighting}
    {next : Except LexicalError (Option Lexeme)} (h : l.token = .ok found) :
    (x.retire l next).state = next := by
  rw [retire, h]

/-- And it is found after all others. -/
theorem sightings_retire {found : Option Sighting}
    {next : Except LexicalError (Option Lexeme)} (h : l.token = .ok found) :
    (x.retire l next).sightings = x.sightings ++ found.toList := by
  rw [retire, h]
  cases found <;> simp [sightings]

/-- If it is no text, that is the error. -/
theorem state_retire_of_error {e : LexicalError}
    {next : Except LexicalError (Option Lexeme)} (h : l.token = .error e) :
    (x.retire l next).state = .error e := by
  rw [retire, h]

theorem sightings_retire_of_error {e : LexicalError}
    {next : Except LexicalError (Option Lexeme)} (h : l.token = .error e) :
    (x.retire l next).sightings = x.sightings := by
  rw [retire, h]
  rfl

/-- What a lexer with a lexeme in hand finds in the bytes ahead comes after
what it has found. -/
theorem outcome_of_lexeme (h : x.state = .ok (some l)) (bs : List UInt8) :
    (x.pushAll bs).close.outcome
      = (l.scan bs).map (fun found => (x.sightings ++ found).map Sighting.token) := by
  induction bs generalizing x l with
  | nil =>
    rw [pushAll_nil]
    cases hn : l.next none with
    | more s => exact absurd hn (l.next_none_ne_more s)
    | refuse e => rw [close_of_refuse h hn, Lexeme.scan_of_refuse [] hn]; rfl
    | complete =>
      rw [close_of_complete h hn, Lexeme.scan_of_complete [] hn]
      cases ht : l.token with
      | error e => rw [outcome, state_retire_of_error ht]; rfl
      | ok found =>
        rw [outcome, state_retire ht, sightings_retire ht]
        simp [scanFrom, bind, Except.bind, pure, Except.pure, Except.map]
  | cons b bs ih =>
    rw [pushAll_cons, push_of_lexeme h]
    cases hn : l.next (some b) with
    | more s => rw [Lexeme.scan_of_more hn]; exact ih rfl
    | refuse e =>
      rw [Lexeme.scan_of_refuse (b :: bs) hn]
      exact outcome_of_error rfl bs
    | complete =>
      -- The byte begins the next lexeme, once the token has been made.
      rw [Lexeme.scan_of_complete (b :: bs) hn, scanFrom]
      cases ht : l.token with
      | error e => exact outcome_of_error (state_retire_of_error ht) bs
      | ok found =>
        cases hb : Lexeme.begin? l.stop b with
        | error e => exact outcome_of_error (state_retire ht) bs
        | ok next =>
          refine (ih (state_retire ht)).trans ?_
          rw [sightings_retire ht]
          cases hs : next.scan bs with
          | error e => simp [bind, Except.bind, Except.map, hs]
          | ok others => simp [bind, Except.bind, pure, Except.pure, Except.map, hs]

end Lexer

/-- The tokens of a source are those that a scan from its start finds. -/
theorem tokensOf_eq_scan (source : List UInt8) :
    tokensOf source = (scanFrom 0 source).map (List.map Sighting.token) := by
  cases source with
  | nil => rfl
  | cons b bs =>
    -- An empty lexer begins a lexeme with the first byte, and has none to
    -- retire.
    rw [tokensOf, Lexer.pushAll_cons]
    show ((⟨[], (Lexeme.begin? 0 b).map some, []⟩ : Lexer).pushAll bs).close.outcome = _
    rw [scanFrom]
    cases hb : Lexeme.begin? 0 b with
    | error e => exact Lexer.outcome_of_error rfl bs
    | ok l => exact Lexer.outcome_of_lexeme rfl bs

/-! ## §3. Taking bytes. -/

namespace Lexeme

/-- The lexeme in hand after some bytes, if it goes on with each of them. -/
def take? (l : Lexeme) : List UInt8 → Option Lexeme
  | [] => some l
  | b :: bs =>
    match l.next (some b) with
    | .more shape => (l.push shape b).take? bs
    | _ => none

theorem take?_of_more {l : Lexeme} {b : UInt8} {s : Shape}
    (h : l.next (some b) = .more s) (bs : List UInt8) :
    l.take? (b :: bs) = (l.push s b).take? bs := by
  rw [take?, h]

/-- And each of them has to be one that the lexeme goes on with. -/
theorem take?_cons_eq_some_iff {l l' : Lexeme} {b : UInt8} {bs : List UInt8} :
    l.take? (b :: bs) = some l' ↔
      ∃ s, l.next (some b) = .more s ∧ (l.push s b).take? bs = some l' := by
  rw [take?]
  cases l.next (some b) <;> simp

/-- A scan over bytes that are taken goes on with them in hand. -/
theorem scan_append_of_take? {l l' : Lexeme} {bs : List UInt8}
    (h : l.take? bs = some l') (rest : List UInt8) :
    l.scan (bs ++ rest) = l'.scan rest := by
  -- The byte in front is taken, and then the others are.
  induction bs generalizing l with
  | nil =>
    cases h
    rfl
  | cons b bs ih =>
    obtain ⟨s, hn, ht⟩ := take?_cons_eq_some_iff.1 h
    rw [List.cons_append, scan_of_more hn, ih ht]

theorem bytes_push (l : Lexeme) (s : Shape) (b : UInt8) :
    (l.push s b).bytes = l.bytes ++ [b] :=
  List.reverse_cons

/-- Taking bytes leaves the start of a lexeme, and puts the bytes after those
it has. -/
theorem start_and_bytes_of_take? {l l' : Lexeme} {bs : List UInt8}
    (h : l.take? bs = some l') : l'.start = l.start ∧ l'.bytes = l.bytes ++ bs := by
  induction bs generalizing l with
  | nil =>
    cases h
    exact ⟨rfl, (List.append_nil _).symm⟩
  | cons b bs ih =>
    obtain ⟨s, _, ht⟩ := take?_cons_eq_some_iff.1 h
    obtain ⟨hstart, hbytes⟩ := ih ht
    refine ⟨hstart, ?_⟩
    rw [hbytes, bytes_push, List.append_assoc]
    rfl

/-- A lexeme that keeps its shape with each of some bytes takes them all. -/
theorem exists_take?_of_stays {l : Lexeme} {bs : List UInt8}
    (h : ∀ b ∈ bs, ∀ m : Lexeme, m.shape = l.shape → m.next (some b) = .more l.shape) :
    ∃ l', l.take? bs = some l' ∧ l'.shape = l.shape := by
  induction bs generalizing l with
  | nil => exact ⟨l, rfl, rfl⟩
  | cons b bs ih =>
    have hb := h b List.mem_cons_self l rfl
    rw [take?_of_more hb]
    exact ih (fun c hc => h c (List.mem_cons_of_mem b hc))

end Lexeme

end ByteLayout
