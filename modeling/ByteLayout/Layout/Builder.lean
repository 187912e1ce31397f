/-
  ByteLayout.Layout.Builder
  ─────────────────────────
  **FROM TOKENS TO A LAYOUT.**

      layout := (term (`,` term)*)?
      term   := integer | string | list | field
      list   := identifier `[` body `]` length?
      field  := identifier length? type?
      length := `:` (integer | identifier | `.` `.` `.`)
      type   := `/` identifier             (bytes, integer or float)

  The body of a list is passed over: any tokens whose brackets pair up.

  A builder holds the terms that are complete and the place it has come to in
  the grammar.  It takes one token at a time (`push`) and is told when the
  tokens end (`close`).  A place is either within a term, or one where the
  term read so far may end; a token that does not go on with that term ends
  it, and then has to be a comma.  The first error stays, and the terms that
  were complete by then stay with it.  A term is put on record when it is
  complete, after what is on record already.
-/
import ByteLayout.Layout.GrammarError
import ByteLayout.Layout.Render
import ByteLayout.Record

namespace ByteLayout

/-! ## §1. Places in the grammar. -/

/-- What a length belongs to. -/
inductive Subject where
  | field (name : String)
  | list (name : String)
  deriving DecidableEq, Repr

/-- Where the reading of a layout stands between two tokens. -/
inductive Place where
  /-- Before the first token. -/
  | opening
  /-- After a comma. -/
  | next
  /-- After an identifier at the start of a term. -/
  | named (name : String)
  /-- Within the brackets of a list, with so many further brackets open. -/
  | within (name : String) (depth : Nat)
  /-- After the closing bracket of a list. -/
  | listed (name : String)
  /-- After the colon of a length. -/
  | colon (subject : Subject)
  /-- After the first dot of a length. -/
  | dot (subject : Subject)
  /-- After the second dot of a length. -/
  | dots (subject : Subject)
  /-- After the length of a field. -/
  | measured (name : String) (length : Length)
  /-- After the slash of a type. -/
  | slash (name : String) (length : Option Length)
  /-- After a term that nothing but a comma can follow. -/
  | done (term : Term)
  deriving DecidableEq, Repr

/-- The place after the length of a field or a list. -/
def Subject.at (subject : Subject) (length : Length) : Place :=
  match subject with
  | .field name => .measured name length
  | .list name => .done (.list name [] (some length))

/-! ## §2. One token. -/

/-- What a token makes of a place. -/
inductive Move where
  /-- The token belongs to the term being read, or starts one. -/
  | go (place : Place)
  /-- The term was complete before the token. -/
  | ended (term : Term)
  /-- The token cannot stand here. -/
  | refuse (e : GrammarError)

/-- The move of a token that has to start a term. -/
def Move.start (t : Token) : Move :=
  match t.kind with
  | .integer => .go (.done (.literal (.integer t.text)))
  | .string => .go (.done (.literal (.string t.text)))
  | .identifier => .go (.named t.text)
  | .mark _ => .refuse (.noTerm (some t))

/-- The move of a token at a place. -/
def Place.move (place : Place) (t : Token) : Move :=
  match place with
  | .opening | .next => Move.start t
  | .named name =>
    match t.kind with
    | .mark .openBracket => .go (.within name 0)
    | .mark .colon => .go (.colon (.field name))
    | .mark .slash => .go (.slash name none)
    | _ => .ended (.field name none none)
  | .within name depth =>
    match t.kind, depth with
    | .mark .openBracket, depth => .go (.within name (depth + 1))
    | .mark .closeBracket, 0 => .go (.listed name)
    | .mark .closeBracket, depth + 1 => .go (.within name depth)
    | _, depth => .go (.within name depth)
  | .listed name =>
    match t.kind with
    | .mark .colon => .go (.colon (.list name))
    | _ => .ended (.list name [] none)
  | .colon subject =>
    match t.kind with
    | .integer => .go (subject.at (.literal t.text))
    | .identifier => .go (subject.at (.field t.text))
    | .mark .dot => .go (.dot subject)
    | _ => .refuse (.noLength (some t))
  | .dot subject =>
    match t.kind with
    | .mark .dot => .go (.dots subject)
    | _ => .refuse (.shortEllipsis (some t))
  | .dots subject =>
    match t.kind with
    | .mark .dot => .go (subject.at .rest)
    | _ => .refuse (.shortEllipsis (some t))
  | .measured name length =>
    match t.kind with
    | .mark .slash => .go (.slash name (some length))
    | _ => .ended (.field name (some length) none)
  | .slash name length =>
    match t.kind with
    | .identifier =>
      match FieldType.ofKeyword? t.text with
      | some type => .go (.done (.field name length (some type)))
      | none => .refuse (.unknownType t.text)
    | _ => .refuse (.noType (some t))
  | .done term => .ended term

/-- What the end of the tokens makes of a place: the term that ends there, if
one is being read. -/
def Place.close (place : Place) : Except GrammarError (Option Term) :=
  match place with
  | .opening => .ok none
  | .next => .error .commaAtEnd
  | .within name _ => .error (.openList name)
  | .colon _ => .error (.noLength none)
  | .dot _ | .dots _ => .error (.shortEllipsis none)
  | .slash _ _ => .error (.noType none)
  | .named name => .ok (some (.field name none none))
  | .listed name => .ok (some (.list name [] none))
  | .measured name length => .ok (some (.field name (some length) none))
  | .done term => .ok (some term)

/-! ## §3. The builder. -/

/-- The record of a complete term. -/
def Term.record (t : Term) : Record :=
  ⟨.trace, .terms, s!"node {t.render}"⟩

/-- The reading of a layout between two tokens: the complete terms, the
newest first, and either the place come to or the error that ended the
reading; and the log so far, the newest record first. -/
structure Builder where
  complete : List Term
  state : Except GrammarError Place
  log : List Record

namespace Builder

/-- Nothing has been read yet, and the log goes on from here. -/
def start (log : List Record) : Builder := ⟨[], .ok .opening, log⟩

/-- Nothing has been read yet, nor put on record. -/
def empty : Builder := start []

/-- The complete terms, in the order of the tokens. -/
def terms (x : Builder) : List Term :=
  x.complete.reverse

/-- Takes in one token. -/
def push (x : Builder) (t : Token) : Builder :=
  match x.state with
  | .error _ => x
  | .ok place =>
    match place.move t with
    | .go place => { x with state := .ok place }
    | .refuse e => { x with state := .error e }
    | .ended term =>
      ⟨term :: x.complete,
        if t.kind = .mark .comma then .ok .next
        else .error (.noComma (some t)),
        term.record :: x.log⟩

/-- Takes in tokens, one after another. -/
def pushAll (x : Builder) (ts : List Token) : Builder :=
  ts.foldl push x

/-- Settles the term being read at the end of the tokens. -/
def close (x : Builder) : Builder :=
  match x.state with
  | .error _ => x
  | .ok place =>
    match place.close with
    | .ok term =>
      ⟨term.toList ++ x.complete, .ok .opening, term.toList.map Term.record ++ x.log⟩
    | .error e => { x with state := .error e }

/-- The log when the stage is over, the newest record first: if it came to its
end, the number of its terms is put on record last, and over how many tokens. -/
def report (x : Builder) (tokens : Nat) : List Record :=
  match x.state with
  | .ok _ => .termCount x.complete.length tokens :: x.log
  | .error _ => x.log

/-- The layout that was read, or the error that ended the reading. -/
def outcome (x : Builder) : Except GrammarError Layout :=
  match x.state with
  | .ok _ => .ok ⟨x.terms⟩
  | .error e => .error e

/-! ## Failure stays, and pieces add up. -/

/-- A builder that has failed takes no more tokens. -/
theorem push_of_error {x : Builder} {e : GrammarError} (h : x.state = .error e)
    (t : Token) : x.push t = x := by
  unfold push
  rw [h]

theorem pushAll_of_error {x : Builder} {e : GrammarError}
    (h : x.state = .error e) (ts : List Token) : x.pushAll ts = x := by
  induction ts with
  | nil => rfl
  | cons t ts ih =>
    show (x.push t).pushAll ts = x
    rw [push_of_error h, ih]

/-- And the end of the tokens does not mend it. -/
theorem close_of_error {x : Builder} {e : GrammarError} (h : x.state = .error e) :
    x.close = x := by
  unfold close
  rw [h]

@[simp] theorem pushAll_nil (x : Builder) : x.pushAll [] = x := rfl

@[simp] theorem pushAll_cons (x : Builder) (t : Token) (ts : List Token) :
    x.pushAll (t :: ts) = (x.push t).pushAll ts := rfl

@[simp] theorem pushAll_append (x : Builder) (ss ts : List Token) :
    x.pushAll (ss ++ ts) = (x.pushAll ss).pushAll ts := by
  simp [pushAll]

end Builder

/-- The builder after all tokens of a layout and their end. -/
def Builder.ofTokens (ts : List Token) : Builder :=
  (Builder.empty.pushAll ts).close

/-- The layout that tokens write. -/
def Layout.ofTokens (ts : List Token) : Except GrammarError Layout :=
  (Builder.ofTokens ts).outcome

end ByteLayout
