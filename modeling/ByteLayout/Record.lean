/-
  ByteLayout.Record
  ─────────────────
  **RECORDS OF A LOG.**

  Reading a layout leaves records: one for every token found and one for
  every complete term, and a count after each of the two stages that came to
  its end.  This module holds the form of a record and which records are
  wanted; each stage makes its own, and keeps them as it goes.
-/

namespace ByteLayout

/-- How detailed a record is. -/
inductive Level where
  /-- One token or one term. -/
  | trace
  /-- The count at the end of a stage. -/
  | debug
  deriving DecidableEq, Repr

/-- The stage of the reading that a record is about. -/
inductive Stage where
  | tokens
  | terms
  deriving DecidableEq, Repr

/-- One line of the log. -/
structure Record where
  level : Level
  stage : Stage
  text : String
  deriving DecidableEq, Repr

/-- How much of the log is wanted. -/
inductive Verbosity where
  | off
  | debug
  | trace
  deriving DecidableEq, Repr

/-- Whether records of a level are wanted. -/
def Verbosity.shows : Verbosity → Level → Bool
  | .off, _ => false
  | .debug, .trace => false
  | .debug, .debug => true
  | .trace, _ => true

namespace Record

/-- The record of all tokens' having been read. -/
def tokenCount (tokens : Nat) : Record :=
  ⟨.debug, .tokens, s!"tokenized {tokens} tokens"⟩

/-- The record of a layout's having been read. -/
def termCount (terms tokens : Nat) : Record :=
  ⟨.debug, .terms, s!"parsed {terms} nodes from {tokens} tokens"⟩

end Record

end ByteLayout
