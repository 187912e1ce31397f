/-
  ByteLayout.Session
  ──────────────────
  **SUCCESSIVE READINGS.**

  A session reads one source after another with an intake that can be changed
  in between.  It keeps the tokens of the last source that was read as
  tokens, and the last two layouts.  A reading that fails changes nothing.
-/
import ByteLayout.Layout.Read

namespace ByteLayout

/-- What a session keeps between two readings. -/
structure Session where
  intake : Intake
  tokens : List Token
  current : Layout
  previous : Layout

namespace Session

/-- Nothing has been read yet. -/
def start : Session := ⟨.standard, [], .empty, .empty⟩

/-- Changes the intake of the readings to come. -/
def configure (s : Session) (intake : Intake) : Session :=
  { s with intake := intake }

/-- Keeps a layout that was read, and the one before it. -/
def adopt {ε : Type} (s : Session) : Except ε Layout → Session
  | .ok layout => { s with previous := s.current, current := layout }
  | .error _ => s

/-- Reads a source as tokens. -/
def tokenize (s : Session) (source : List UInt8) :
    Except LexicalError (List Token) × Session :=
  let outcome := (s.intake.read (.ofBytes source)).outcome
  (outcome,
    match outcome with
    | .ok ts => { s with tokens := ts }
    | .error _ => s)

/-- Reads a source as a layout. -/
def parse (s : Session) (source : List UInt8) :
    Except Rejection Layout × Session :=
  let outcome := (s.intake.read (.ofBytes source)).layout
  (outcome, s.adopt outcome)

/-- The last tokens from one position up to another; positions after the last
token count as the end, and a start after the end gives none. -/
def slice (s : Session) (start stop : Nat) : List Token :=
  (s.tokens.take stop).drop start

/-- Reads a slice of the last tokens as a layout. -/
def parseSlice (s : Session) (start stop : Nat) :
    Except Rejection Layout × Session :=
  let outcome := (Layout.ofTokens (s.slice start stop)).mapError Rejection.grammar
  (outcome, s.adopt outcome)

/-- Whether the last two layouts are equal. -/
def unchanged (s : Session) : Bool :=
  decide (s.current = s.previous)

end Session

end ByteLayout
