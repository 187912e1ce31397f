/-
  ByteLayout.Proofs.Intake
  ────────────────────────
  **READING CALL BY CALL.**

  A source arrives in pieces, one for each call, with interruptions between
  them.  What it delivers before it ends is `Delivered`: some bytes, and the
  failure that it ends with, if it does not simply come to its end.

  `Delivered.outcome` says what that comes to without any calls, in the order
  of precedence: an error among the bytes within the limit, a source that is
  too long, a failure, and last the end of the source.  `Delivered.lexer` says
  in the same way what lexer is left, and every reading ends with that one
  (`lexer_readFrom`).

  The main result is that nothing else bears on the outcome of a reading
  (`streaming_invisible`): not the size of the calls, nor how the bytes are
  cut into replies, nor the interruptions.  So a source that is there from the
  start, and that the limit lets in, is read as `tokensOf` and
  `Layout.ofBytes` say (`outcome_read_ofBytes`, `layout_read_ofBytes`).
-/
import ByteLayout.Layout.Read

namespace ByteLayout

/-! ## §1. What is delivered. -/

/-- What a source delivers before it ends. -/
structure Delivered where
  bytes : List UInt8
  /-- The failure that the source ends with, if it ends with one. -/
  failure : Option String := none
  deriving DecidableEq, Repr

namespace Delivered

/-- What is delivered if some bytes come first. -/
def after (d : Delivered) (bs : List UInt8) : Delivered :=
  { d with bytes := bs ++ d.bytes }

/-- What replies deliver, up to the first that ends the source. -/
def ofReplies : List Reply → Delivered
  | [] => ⟨[], none⟩
  | .bytes [] :: _ => ⟨[], none⟩
  | .failed reason :: _ => ⟨[], some reason⟩
  | .interrupted :: replies => ofReplies replies
  | .bytes (b :: bs) :: replies => (ofReplies replies).after (b :: bs)

/-- What a reader delivers, up to the first delivery that ends the source. -/
def ofReader : Reader → Delivered
  | [] => ⟨[], none⟩
  | .bytes [] :: _ => ⟨[], none⟩
  | .failure reason :: _ => ⟨[], some reason⟩
  | .interruption :: reader => ofReader reader
  | .bytes (b :: bs) :: reader => (ofReader reader).after (b :: bs)

/-- The bytes that a limit lets in. -/
def within (limit : Option Nat) (bs : List UInt8) : List UInt8 :=
  match limit with
  | none => bs
  | some n => bs.take n

/-- The limit, if there are more bytes than it lets in. -/
def exceeded (limit : Option Nat) (bs : List UInt8) : Option Nat :=
  limit.filter (· < bs.length)

/-- What a lexer comes to that has taken in all bytes within the limit: the
first error that one of them raised; else the error that there are more of
them; else the failure that the source ends with; else what the end of the
input makes of them. -/
def conclude (x : Lexer) (excess : Option Nat) (failure : Option String) :
    Except LexicalError (List Token) :=
  match x.state, excess, failure with
  | .error e, _, _ => .error e
  | .ok _, some n, _ => .error (.tooLong n)
  | .ok _, none, some reason => .error (.unreadable reason)
  | .ok _, none, none => x.close.outcome

/-- What the delivered bytes come to, taken in one by one as far as the limit
lets them in. -/
def outcome (limit : Option Nat) (d : Delivered) :
    Except LexicalError (List Token) :=
  conclude (Lexer.empty.pushAll (within limit d.bytes)) (exceeded limit d.bytes)
    d.failure

/-- The lexer that comes of the delivered bytes: one that has taken in those
within the limit, and then fails or comes to the end of the input. -/
def lexer (limit : Option Nat) (d : Delivered) : Lexer :=
  let x := Lexer.empty.pushAll (within limit d.bytes)
  match exceeded limit d.bytes, d.failure with
  | some n, _ => x.fail (.tooLong n)
  | none, some reason => x.fail (.unreadable reason)
  | none, none => x.close

theorem after_of_nothing (failure : Option String) (bs : List UInt8) :
    after ⟨[], failure⟩ bs = ⟨bs, failure⟩ := by
  simp [after]

/-- To come first in two parts is to come first as a whole. -/
theorem after_append (d : Delivered) (as bs : List UInt8) :
    d.after (as ++ bs) = (d.after bs).after as := by
  simp [after]

variable {limit : Option Nat} {bs : List UInt8} {d : Delivered} {e : LexicalError}

/-- What is within the limit is let in as it is. -/
theorem within_of_le (h : ∀ n ∈ limit, bs.length ≤ n) : within limit bs = bs := by
  cases limit with
  | none => rfl
  | some n => exact List.take_of_length_le (h n rfl)

/-- It is not exceeded as long as all of the bytes are within it. -/
theorem exceeded_eq_none_iff :
    exceeded limit bs = none ↔ ∀ n ∈ limit, bs.length ≤ n := by
  simp [exceeded, Option.filter_eq_none_iff]

theorem exceeded_eq_some_iff {n : Nat} :
    exceeded limit bs = some n ↔ limit = some n ∧ n < bs.length := by
  simp [exceeded, Option.filter_eq_some_iff]

/-- More bytes after those that the limit lets in change nothing of these. -/
theorem prefix_within_append (h : ∀ n ∈ limit, bs.length ≤ n)
    (others : List UInt8) : bs <+: within limit (bs ++ others) := by
  cases limit with
  | none => exact List.prefix_append bs others
  | some n =>
    show bs <+: (bs ++ others).take n
    rw [List.take_append, List.take_of_length_le (h n rfl)]
    exact List.prefix_append bs _

/-- An error among the bytes goes before all others. -/
theorem conclude_of_error {x : Lexer} (h : x.state = .error e)
    (excess : Option Nat) (failure : Option String) :
    conclude x excess failure = .error e := by
  unfold conclude
  rw [h]

/-- An error that would come of a lexer that has not failed ends it. -/
theorem conclude_eq_fail {x : Lexer} {excess : Option Nat} {failure : Option String}
    (h : ∀ inHand, x.state = .ok inHand → conclude x excess failure = .error e) :
    conclude x excess failure = (x.fail e).outcome := by
  cases hx : x.state with
  | error e' =>
    rw [conclude_of_error hx, Lexer.fail_of_error hx, Lexer.outcome_eq_error hx]
  | ok inHand =>
    rw [Lexer.outcome_eq_error (Lexer.state_fail_of_ok hx e), h inHand hx]

/-- Then comes the limit, then the failure of the source. -/
theorem conclude_of_excess (x : Lexer) (n : Nat) (failure : Option String) :
    conclude x (some n) failure = (x.fail (.tooLong n)).outcome :=
  conclude_eq_fail (fun _ hx => by simp only [conclude, hx])

theorem conclude_of_failure (x : Lexer) (reason : String) :
    conclude x none (some reason) = (x.fail (.unreadable reason)).outcome :=
  conclude_eq_fail (fun _ hx => by simp only [conclude, hx])

/-- And what is left is the end of the input. -/
theorem conclude_of_end (x : Lexer) : conclude x none none = x.close.outcome := by
  cases hx : x.state with
  | error e =>
    rw [conclude_of_error hx, Lexer.close_of_error hx, Lexer.outcome_eq_error hx]
  | ok inHand => simp only [conclude, hx]

/-- The outcome is that of this lexer. -/
theorem outcome_eq_outcome_lexer (limit : Option Nat) (d : Delivered) :
    d.outcome limit = (d.lexer limit).outcome := by
  rw [outcome, lexer]
  cases exceeded limit d.bytes with
  | some n => exact conclude_of_excess _ n d.failure
  | none =>
    cases d.failure with
    | some reason => exact conclude_of_failure _ reason
    | none => exact conclude_of_end _

/-- A lexer that fails on bytes at the front takes in nothing after them. -/
theorem lexer_of_error (hbs : bs <+: within limit d.bytes)
    (h : (Lexer.empty.pushAll bs).state = .error e) :
    d.lexer limit = Lexer.empty.pushAll bs := by
  obtain ⟨others, hothers⟩ := hbs
  rw [lexer, ← hothers, Lexer.pushAll_append, Lexer.pushAll_of_error h]
  cases exceeded limit d.bytes with
  | some n => exact Lexer.fail_of_error h _
  | none =>
    cases d.failure with
    | some reason => exact Lexer.fail_of_error h _
    | none => exact Lexer.close_of_error h

/-- Bytes that the limit lets in are all taken in. -/
theorem lexer_of_end (hle : ∀ n ∈ limit, bs.length ≤ n) :
    lexer limit ⟨bs, none⟩ = (Lexer.empty.pushAll bs).close := by
  simp only [lexer, within_of_le hle, exceeded_eq_none_iff.2 hle]

/-- So are they where the source fails after them. -/
theorem lexer_of_failure (hle : ∀ n ∈ limit, bs.length ≤ n) (reason : String) :
    lexer limit ⟨bs, some reason⟩
      = (Lexer.empty.pushAll bs).fail (.unreadable reason) := by
  simp only [lexer, within_of_le hle, exceeded_eq_none_iff.2 hle]

/-- Of more bytes only those up to the limit are taken in. -/
theorem lexer_of_lt {n : Nat} (hlt : n < d.bytes.length) :
    d.lexer (some n) = (Lexer.empty.pushAll (d.bytes.take n)).fail (.tooLong n) := by
  simp only [lexer, exceeded_eq_some_iff.2 ⟨rfl, hlt⟩]
  rfl

/-! ## §2. Readers and replies deliver the same. -/

/-- Pieces with a byte in each are delivered one after another. -/
theorem ofReplies_pieces_append {pieces : List (List UInt8)}
    (h : ∀ p ∈ pieces, p ≠ []) (replies : List Reply) :
    ofReplies (pieces.map .bytes ++ replies)
      = (ofReplies replies).after pieces.flatten := by
  induction pieces with
  | nil => rfl
  | cons piece pieces ih =>
    obtain ⟨hp, hps⟩ := List.forall_mem_cons.1 h
    obtain ⟨b, bs, rfl⟩ := List.exists_cons_of_ne_nil hp
    rw [List.map_cons, List.cons_append, ofReplies, ih hps, List.flatten_cons,
      after_append]

end Delivered

/-- Every piece has a byte. -/
theorem Delivery.ne_nil_of_mem_cut {size : Nat} {bs piece : List UInt8}
    (h : piece ∈ cut size bs) : piece ≠ [] := by
  fun_induction cut size bs with
  | case1 => cases h
  | case2 b bs ih =>
    rcases List.mem_cons.1 h with rfl | h
    · exact List.cons_ne_nil _ _
    · exact ih h

/-- What a reader delivers does not depend on the size of the calls. -/
theorem Delivered.ofReplies_replies (size : Nat) (reader : Reader) :
    ofReplies (reader.replies size) = ofReader reader := by
  induction reader with
  | nil => rfl
  | cons delivery reader ih =>
    rw [Reader.replies, List.flatMap_cons]
    cases delivery with
    | interruption => exact ih
    | failure reason => rfl
    | bytes data =>
      cases data with
      | nil => rfl
      | cons b bs =>
        -- The pieces of a delivery come one after another, and make it up.
        rw [Delivery.replies, ofReplies_pieces_append (fun p => Delivery.ne_nil_of_mem_cut),
          Delivery.flatten_cut, ofReader]
        exact congrArg (after · (b :: bs)) ih

/-! ## §3. Only what is delivered bears on a reading. -/

namespace Intake

variable {intake : Intake}

/-- A reply that the limit lets in is taken in after the bytes before it. -/
theorem accept_of_le {taken data : List UInt8}
    (hle : ∀ n ∈ intake.limit, (taken ++ data).length ≤ n) :
    intake.accept (Lexer.empty.pushAll taken) taken.length data
      = Lexer.empty.pushAll (taken ++ data) := by
  rw [accept, Lexer.pushAll_append]
  cases hlimit : intake.limit with
  | none => rfl
  | some n =>
    have hn := hle n hlimit
    rw [List.length_append] at hn
    simp only [if_pos hn]
    rw [List.take_of_length_le (by omega)]

/-- Of one that goes beyond the limit, the bytes up to there are. -/
theorem accept_of_lt {taken data : List UInt8} {n : Nat}
    (hlimit : intake.limit = some n) (hle : taken.length ≤ n)
    (hlt : n < (taken ++ data).length) :
    intake.accept (Lexer.empty.pushAll taken) taken.length data
      = (Lexer.empty.pushAll ((taken ++ data).take n)).fail (.tooLong n) := by
  rw [List.length_append] at hlt
  rw [List.take_append, List.take_of_length_le hle, Lexer.pushAll_append, accept, hlimit]
  exact if_neg (by omega)

/-- A reply after which the lexer has failed is the last one. -/
theorem readFrom_of_error {x : Lexer} {taken : Nat} {b : UInt8} {bs : List UInt8}
    {e : LexicalError} (h : (intake.accept x taken (b :: bs)).state = .error e)
    (replies : List Reply) :
    intake.readFrom x taken (.bytes (b :: bs) :: replies)
      = ⟨intake.accept x taken (b :: bs), [intake.call (.bytes (b :: bs))]⟩ := by
  simp only [readFrom, Lexer.error?_eq_some_iff.2 h]

/-- One after which it has not is followed by another call. -/
theorem readFrom_of_ok {x : Lexer} {taken : Nat} {b : UInt8} {bs : List UInt8}
    {inHand : Option Lexeme} (h : (intake.accept x taken (b :: bs)).state = .ok inHand)
    (replies : List Reply) :
    intake.readFrom x taken (.bytes (b :: bs) :: replies)
      = (intake.readFrom (intake.accept x taken (b :: bs))
          (taken + (b :: bs).length) replies).after (intake.call (.bytes (b :: bs))) := by
  simp only [readFrom, Lexer.error?_eq_none_iff.2 ⟨_, h⟩]

/-- A call without bytes leaves the lexer to the replies after it. -/
theorem lexer_readFrom_interrupted (x : Lexer) (taken : Nat) (replies : List Reply) :
    (intake.readFrom x taken (.interrupted :: replies)).lexer
      = (intake.readFrom x taken replies).lexer := rfl

/-- The lexer that is left after an error is the one that failed. -/
theorem lexer_readFrom_of_error {x : Lexer} {taken : Nat} {b : UInt8}
    {bs : List UInt8} {e : LexicalError}
    (h : (intake.accept x taken (b :: bs)).state = .error e) (replies : List Reply) :
    (intake.readFrom x taken (.bytes (b :: bs) :: replies)).lexer
      = intake.accept x taken (b :: bs) :=
  congrArg Reading.lexer (readFrom_of_error h replies)

/-- Otherwise it is that of the replies to come. -/
theorem lexer_readFrom_of_ok {x : Lexer} {taken : Nat} {b : UInt8}
    {bs : List UInt8} {inHand : Option Lexeme}
    (h : (intake.accept x taken (b :: bs)).state = .ok inHand) (replies : List Reply) :
    (intake.readFrom x taken (.bytes (b :: bs) :: replies)).lexer
      = (intake.readFrom (intake.accept x taken (b :: bs))
          (taken + (b :: bs).length) replies).lexer := by
  rw [readFrom_of_ok h]
  rfl

/-- Reading on after bytes that the limit lets in comes to what these and the
bytes still delivered come to. -/
theorem lexer_readFrom (replies : List Reply) {taken : List UInt8}
    (hle : ∀ n ∈ intake.limit, taken.length ≤ n) :
    (intake.readFrom (Lexer.empty.pushAll taken) taken.length replies).lexer
      = ((Delivered.ofReplies replies).after taken).lexer intake.limit := by
  -- The induction moves each reply's bytes to those taken in before.
  induction replies generalizing taken with
  | nil =>
    rw [Delivered.ofReplies, Delivered.after_of_nothing, Delivered.lexer_of_end hle]
    rfl
  | cons reply replies ih =>
    cases reply with
    | interrupted =>
      rw [lexer_readFrom_interrupted]
      exact ih hle
    | failed reason =>
      rw [Delivered.ofReplies, Delivered.after_of_nothing, Delivered.lexer_of_failure hle]
      rfl
    | bytes data =>
      cases data with
      | nil =>
        rw [Delivered.ofReplies, Delivered.after_of_nothing, Delivered.lexer_of_end hle]
        rfl
      | cons b bs =>
        rw [Delivered.ofReplies, ← Delivered.after_append]
        cases hexcess : Delivered.exceeded intake.limit (taken ++ b :: bs) with
        | none =>
          -- All of the reply is taken in, and may hold an error.
          have hfits := Delivered.exceeded_eq_none_iff.1 hexcess
          have haccept := accept_of_le hfits
          cases hx : (Lexer.empty.pushAll (taken ++ b :: bs)).state with
          | error e =>
            rw [lexer_readFrom_of_error (haccept ▸ hx), haccept]
            refine (Delivered.lexer_of_error ?_ hx).symm
            exact Delivered.prefix_within_append hfits _
          | ok inHand =>
            rw [lexer_readFrom_of_ok (haccept ▸ hx), haccept, ← List.length_append]
            exact ih hfits
        | some n =>
          -- The limit is the error, unless a byte up to there raises one.
          obtain ⟨hlimit, hlt⟩ := Delivered.exceeded_eq_some_iff.1 hexcess
          have hdelivered : n < ((Delivered.ofReplies replies).after
              (taken ++ b :: bs)).bytes.length :=
            Nat.lt_of_lt_of_le hlt (by simp [Delivered.after])
          have haccept := accept_of_lt hlimit (hle n hlimit) hlt
          obtain ⟨e, he⟩ := (Lexer.empty.pushAll ((taken ++ b :: bs).take n)).exists_state_fail
            (.tooLong n)
          rw [lexer_readFrom_of_error (haccept ▸ he), haccept, hlimit,
            Delivered.lexer_of_lt hdelivered, Delivered.after,
            List.take_append_of_le_length (Nat.le_of_lt hlt)]

/-- The lexer after reading replies is that of what they deliver. -/
theorem lexer_readFrom_start (replies : List Reply) :
    (intake.readFrom .empty 0 replies).lexer
      = (Delivered.ofReplies replies).lexer intake.limit := by
  have hstart : ∀ n ∈ intake.limit, ([] : List UInt8).length ≤ n :=
    fun _ _ => Nat.zero_le _
  exact lexer_readFrom replies hstart

/-- The lexer after reading is that of what the reader delivers. -/
theorem lexer_read (reader : Reader) :
    (intake.read reader).lexer = (Delivered.ofReader reader).lexer intake.limit := by
  rw [read, lexer_readFrom_start, Delivered.ofReplies_replies]

/-- What comes of the replies is what comes of the bytes that they deliver. -/
theorem outcome_readFrom_start (replies : List Reply) :
    (intake.readFrom .empty 0 replies).outcome
      = (Delivered.ofReplies replies).outcome intake.limit := by
  rw [Reading.outcome, lexer_readFrom_start, Delivered.outcome_eq_outcome_lexer]

theorem outcome_read (reader : Reader) :
    (intake.read reader).outcome = (Delivered.ofReader reader).outcome intake.limit := by
  rw [Reading.outcome, lexer_read, Delivered.outcome_eq_outcome_lexer]

/-- **How a source arrives does not show.**  Whatever replies the calls get,
the outcome of the reading is that of the bytes that they deliver and of how
the source ends, within the limit; and so it is for a reader, whose
deliveries are cut to the size of the calls. -/
theorem streaming_invisible (intake : Intake) :
    (∀ replies : List Reply, (intake.readFrom .empty 0 replies).outcome
        = (Delivered.ofReplies replies).outcome intake.limit)
      ∧ ∀ reader : Reader, (intake.read reader).outcome
        = (Delivered.ofReader reader).outcome intake.limit :=
  ⟨outcome_readFrom_start, outcome_read⟩

/-! ## §4. A source that is there from the start. -/

section

variable {source : List UInt8}

/-- What a source delivers that is there from the start. -/
theorem ofReader_ofBytes (source : List UInt8) :
    Delivered.ofReader (.ofBytes source) = ⟨source, none⟩ := by
  cases source with
  | nil => rfl
  | cons b bs => exact Delivered.after_of_nothing none (b :: bs)

/-- However large the calls, the tokens of a source that the limit lets in are
those of its bytes. -/
theorem outcome_read_ofBytes (hfits : ∀ n ∈ intake.limit, source.length ≤ n) :
    (intake.read (.ofBytes source)).outcome = tokensOf source := by
  rw [Reading.outcome, lexer_read, ofReader_ofBytes, Delivered.lexer_of_end hfits]
  rfl

/-- So is the layout, which depends on the tokens alone. -/
theorem layout_read_ofBytes (hfits : ∀ n ∈ intake.limit, source.length ≤ n) :
    (intake.read (.ofBytes source)).layout = Layout.ofBytes source := by
  rw [Reading.layout, outcome_read_ofBytes hfits, Layout.ofBytes]

/-- A source that is too long is not read, whatever its bytes are. -/
theorem exists_outcome_read_of_lt {n : Nat} (hlimit : intake.limit = some n)
    (hlt : n < source.length) :
    ∃ e, (intake.read (.ofBytes source)).outcome = .error e := by
  rw [Reading.outcome, lexer_read, ofReader_ofBytes, hlimit, Delivered.lexer_of_lt hlt]
  obtain ⟨e, he⟩ :=
    (Lexer.empty.pushAll (source.take n)).exists_state_fail (.tooLong n)
  exact ⟨e, Lexer.outcome_eq_error he⟩

/-- So a limit keeps sources out, and changes nothing of those it lets in. -/
theorem outcome_read_eq_ok_iff {ts : List Token} :
    (intake.read (.ofBytes source)).outcome = .ok ts ↔
      (∀ n ∈ intake.limit, source.length ≤ n) ∧ tokensOf source = .ok ts := by
  constructor
  · intro h
    have hfits : ∀ n ∈ intake.limit, source.length ≤ n := by
      intro n hn
      refine Nat.le_of_not_lt (fun hlt => ?_)
      obtain ⟨e, he⟩ := exists_outcome_read_of_lt hn hlt
      cases he.symm.trans h
    exact ⟨hfits, (outcome_read_ofBytes hfits).symm.trans h⟩
  · intro h
    rw [outcome_read_ofBytes h.1, h.2]

end

/-- The standard intake sets no limit, so that it reads any source as it is. -/
@[simp]
theorem outcome_read_standard (source : List UInt8) :
    (standard.read (.ofBytes source)).outcome = tokensOf source :=
  outcome_read_ofBytes nofun

@[simp]
theorem layout_read_standard (source : List UInt8) :
    (standard.read (.ofBytes source)).layout = Layout.ofBytes source :=
  layout_read_ofBytes nofun

end Intake

end ByteLayout
