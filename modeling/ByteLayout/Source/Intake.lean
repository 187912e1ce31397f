/-
  ByteLayout.Source.Intake
  ────────────────────────
  **READING A SOURCE CALL BY CALL.**

  An intake fixes how many bytes each call asks for, and how long a source
  may be.  Calls are made until the source ends, fails, grows too long or
  shows a byte at which the reading of tokens fails.

  Of a source that is too long, the bytes within the limit are read first, so
  that an error among them is the one reported.
-/
import ByteLayout.Source.Reader
import ByteLayout.Token.Lexer

namespace ByteLayout

/-- How a source is read. -/
structure Intake where
  /-- How many bytes a call asks for. -/
  chunk : Nat := 64
  /-- How many bytes a source may have, if there is a limit. -/
  limit : Option Nat := none
  chunk_pos : 0 < chunk := by decide
  deriving Repr

/-- A call that was made, and what it got. -/
structure Call where
  asked : Nat
  reply : Reply
  deriving DecidableEq, Repr

/-- What came of reading a source: the lexer after its last byte, closed if
the source came to its end, and the calls that were made. -/
structure Reading where
  lexer : Lexer
  calls : List Call

/-- A reading with one more call before all others. -/
def Reading.after (r : Reading) (call : Call) : Reading :=
  { r with calls := call :: r.calls }

namespace Intake

/-- No limit, and calls of the usual size. -/
def standard : Intake := {}

/-- Sets the size of the calls; zero counts as one. -/
def withChunk (intake : Intake) (n : Nat) : Intake :=
  { intake with chunk := max n 1, chunk_pos := by omega }

/-- Sets the limit. -/
def withLimit (intake : Intake) (n : Nat) : Intake :=
  { intake with limit := some n }

/-- Reads the bytes of one reply, as far as the limit allows after the bytes
taken before. -/
def accept (intake : Intake) (x : Lexer) (taken : Nat) (data : List UInt8) :
    Lexer :=
  match intake.limit with
  | none => x.pushAll data
  | some limit =>
    let x := x.pushAll (data.take (limit - taken))
    if taken + data.length ≤ limit then x else x.fail (.tooLong limit)

/-- The call that gets a reply. -/
def call (intake : Intake) (reply : Reply) : Call :=
  ⟨intake.chunk, reply⟩

/-- Reads on after so many bytes have been taken. -/
def readFrom (intake : Intake) (x : Lexer) (taken : Nat) : List Reply → Reading
  | [] => ⟨x.close, [intake.call (.bytes [])]⟩
  | .bytes [] :: _ => ⟨x.close, [intake.call (.bytes [])]⟩
  | .failed reason :: _ =>
    ⟨x.fail (.unreadable reason), [intake.call (.failed reason)]⟩
  | .interrupted :: replies =>
    (intake.readFrom x taken replies).after (intake.call .interrupted)
  | .bytes (b :: bs) :: replies =>
    let y := intake.accept x taken (b :: bs)
    match y.error? with
    | some _ => ⟨y, [intake.call (.bytes (b :: bs))]⟩
    | none =>
      -- every byte of the reply has been taken in
      (intake.readFrom y (taken + (b :: bs).length) replies).after
        (intake.call (.bytes (b :: bs)))

/-- Reads a source from its start. -/
def read (intake : Intake) (reader : Reader) : Reading :=
  intake.readFrom .empty 0 (reader.replies intake.chunk)

end Intake

/-- The tokens that were read, or the error that ended the reading. -/
def Reading.outcome (r : Reading) : Except LexicalError (List Token) :=
  r.lexer.outcome

end ByteLayout
