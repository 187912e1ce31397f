/-
  ByteLayout.Layout.Read
  ──────────────────────
  **READING A LAYOUT FROM ITS SOURCE.**

  The two stages put together: bytes to tokens, tokens to a layout.  A source
  is rejected in the first stage or in the second; the second begins only
  when the first has come to its end.  One log goes through both.
-/
import ByteLayout.Layout.Builder
import ByteLayout.Source.Intake

namespace ByteLayout

/-- Why a source is no layout. -/
inductive Rejection where
  /-- The source cannot be read as tokens. -/
  | lexical (e : LexicalError)
  /-- The tokens make no layout. -/
  | grammar (e : GrammarError)
  deriving DecidableEq, Repr

namespace Rejection

/-- The message of a rejection, which is that of its cause. -/
def message : Rejection → String
  | .lexical e => e.message
  | .grammar e => e.message

/-- Whether the first stage rejected the source. -/
def isLexical : Rejection → Bool
  | .lexical _ => true
  | .grammar _ => false

/-- Whether the second stage rejected the source. -/
def isGrammar : Rejection → Bool
  | .lexical _ => false
  | .grammar _ => true

end Rejection

/-- The second stage after the first: the layout that its tokens make, or the
rejection by either stage. -/
def Layout.ofTokenized (tokens : Except LexicalError (List Token)) :
    Except Rejection Layout :=
  match tokens with
  | .ok ts => (Layout.ofTokens ts).mapError .grammar
  | .error e => .error (.lexical e)

/-- The layout that was read, or the rejection. -/
def Reading.layout (r : Reading) : Except Rejection Layout :=
  Layout.ofTokenized r.outcome

/-- The log of the reading, the newest record first: the second stage, if it is
come to, goes on with that of the first. -/
def Reading.report (r : Reading) : List Record :=
  match r.outcome with
  | .ok ts => ((Builder.start r.lexer.report).pushAll ts).close.report ts.length
  | .error _ => r.lexer.report

/-- The records that are wanted, in the order in which they were made. -/
def Reading.log (r : Reading) (v : Verbosity) : List Record :=
  r.report.reverse.filter (fun record => v.shows record.level)

/-- The layout that a source of bytes writes. -/
def Layout.ofBytes (source : List UInt8) : Except Rejection Layout :=
  Layout.ofTokenized (tokensOf source)

end ByteLayout
