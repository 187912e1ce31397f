/-
  ByteLayout.Token.Lexer
  ──────────────────────
  **FROM BYTES TO TOKENS.**

  A lexer holds the tokens found so far and the lexeme in hand.  It takes one
  byte at a time (`push`), and is told when the input ends (`close`).  The
  first error stays: a lexer that has failed takes in nothing more.

  Because a lexer is a value that each byte turns into the next one, reading
  a source in pieces is the same as reading it whole
  (`pushAll_append`), and the tokens found before an error are still there
  to be reported.  Each of them is put on record when it is found; the log is
  part of the lexer, and no later byte changes what is in it.
-/
import ByteLayout.Record
import ByteLayout.Token.Lexeme

namespace ByteLayout

/-- The record of a token. -/
def Sighting.record (s : Sighting) : Record :=
  ⟨.trace, .tokens, s!"token {s.token.describe} at offset {s.start}"⟩

/-- The reading of tokens between two bytes: the tokens found, the newest
first, and either the lexeme in hand or the error that ended the reading; and
the log so far, the newest record first.  No lexeme is in hand before the first
byte and after the end. -/
structure Lexer where
  found : List Sighting
  state : Except LexicalError (Option Lexeme)
  log : List Record

namespace Lexer

/-- Nothing has been read yet. -/
def empty : Lexer := ⟨[], .ok none, []⟩

/-- The error that ended the reading, if one did. -/
def error? (x : Lexer) : Option LexicalError :=
  match x.state with
  | .ok _ => none
  | .error e => some e

/-- The tokens found, in the order of the source. -/
def sightings (x : Lexer) : List Sighting :=
  x.found.reverse

/-- Ends the reading with an error, unless it has ended with one. -/
def fail (x : Lexer) (e : LexicalError) : Lexer :=
  match x.state with
  | .ok _ => { x with state := .error e }
  | .error _ => x

/-- Puts a complete lexeme among the tokens found and on record, and goes on as
told. -/
def retire (x : Lexer) (l : Lexeme)
    (next : Except LexicalError (Option Lexeme)) : Lexer :=
  match l.token with
  | .ok sighting =>
    ⟨sighting.toList ++ x.found, next, sighting.toList.map Sighting.record ++ x.log⟩
  | .error e => { x with state := .error e }

/-- Takes in one byte. -/
def push (x : Lexer) (b : UInt8) : Lexer :=
  match x.state with
  | .error _ => x
  | .ok none => { x with state := (Lexeme.begin? 0 b).map some }
  | .ok (some l) =>
    match l.next (some b) with
    | .more shape => { x with state := .ok (some (l.push shape b)) }
    | .complete => x.retire l ((Lexeme.begin? l.stop b).map some)
    | .refuse e => { x with state := .error e }

/-- Takes in bytes, one after another. -/
def pushAll (x : Lexer) (bs : List UInt8) : Lexer :=
  bs.foldl push x

/-- Settles the lexeme in hand at the end of the input. -/
def close (x : Lexer) : Lexer :=
  match x.state with
  | .error _ | .ok none => x
  | .ok (some l) =>
    match l.next none with
    -- a lexeme does not go on here (`Lexeme.next_none_ne_more`)
    | .more _ | .complete => x.retire l (.ok none)
    | .refuse e => { x with state := .error e }

/-- The log when the stage is over, the newest record first: if it came to its
end, the number of its tokens is put on record last. -/
def report (x : Lexer) : List Record :=
  match x.state with
  | .ok _ => .tokenCount x.found.length :: x.log
  | .error _ => x.log

/-- The tokens that were read, or the error that ended the reading. -/
def outcome (x : Lexer) : Except LexicalError (List Token) :=
  match x.state with
  | .ok _ => .ok (x.sightings.map Sighting.token)
  | .error e => .error e

/-! ## Failure stays, and pieces add up. -/

/-- A lexer that has failed takes no more bytes. -/
theorem push_of_error {x : Lexer} {e : LexicalError} (h : x.state = .error e)
    (b : UInt8) : x.push b = x := by
  unfold push
  rw [h]

theorem pushAll_of_error {x : Lexer} {e : LexicalError}
    (h : x.state = .error e) (bs : List UInt8) : x.pushAll bs = x := by
  induction bs with
  | nil => rfl
  | cons b bs ih =>
    show (x.push b).pushAll bs = x
    rw [push_of_error h, ih]

/-- The end of the input does not mend it either. -/
theorem close_of_error {x : Lexer} {e : LexicalError} (h : x.state = .error e) :
    x.close = x := by
  unfold close
  rw [h]

theorem error?_eq_some_iff {x : Lexer} {e : LexicalError} :
    x.error? = some e ↔ x.state = .error e := by
  unfold error?
  cases x.state <;> simp

/-- A lexer without an error has a lexeme in hand, or nothing. -/
theorem error?_eq_none_iff {x : Lexer} :
    x.error? = none ↔ ∃ inHand, x.state = .ok inHand := by
  unfold error?
  cases x.state <;> simp

/-- Its first error is what comes of the reading. -/
theorem outcome_eq_error {x : Lexer} {e : LexicalError} (h : x.state = .error e) :
    x.outcome = .error e := by
  unfold outcome
  rw [h]

/-- The first error is kept, whatever else goes wrong after it. -/
theorem fail_of_error {x : Lexer} {e : LexicalError} (h : x.state = .error e)
    (other : LexicalError) : x.fail other = x := by
  unfold fail
  rw [h]

/-- A lexer that has not failed fails with the error that it is given. -/
theorem state_fail_of_ok {x : Lexer} {inHand : Option Lexeme}
    (h : x.state = .ok inHand) (e : LexicalError) : (x.fail e).state = .error e := by
  unfold fail
  rw [h]

/-- With an error of its own or with this one, a lexer has failed then. -/
theorem exists_state_fail (x : Lexer) (e : LexicalError) :
    ∃ e', (x.fail e).state = .error e' := by
  cases h : x.state with
  | ok inHand => exact ⟨e, state_fail_of_ok h e⟩
  | error e' => exact ⟨e', by rw [fail_of_error h, h]⟩

@[simp] theorem pushAll_nil (x : Lexer) : x.pushAll [] = x := rfl

@[simp] theorem pushAll_cons (x : Lexer) (b : UInt8) (bs : List UInt8) :
    x.pushAll (b :: bs) = (x.push b).pushAll bs := rfl

/-- Reading in pieces is reading the whole. -/
@[simp] theorem pushAll_append (x : Lexer) (as bs : List UInt8) :
    x.pushAll (as ++ bs) = (x.pushAll as).pushAll bs := by
  simp [pushAll]

end Lexer

/-- The tokens of a source. -/
def tokensOf (source : List UInt8) : Except LexicalError (List Token) :=
  (Lexer.empty.pushAll source).close.outcome

end ByteLayout
