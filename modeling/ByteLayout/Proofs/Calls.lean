/-
  ByteLayout.Proofs.Calls
  ───────────────────────
  **NO CALL TOO MANY.**

  A reading makes calls until one gets a reply after which there is nothing
  more to read: no bytes, a failure, the byte at which the reading of tokens
  fails, or more bytes than the limit lets in (`Reply.Ends`).  Whether a reply
  is such a one depends on the bytes before it, and not on those that would
  still come.

  For the bytes of one reply, to end the reading is to make the lexer fail
  (`Intake.ends_bytes_iff`).  From this follows, by induction on the replies,
  that the calls stop at the first reply that ends the reading
  (`Intake.exists_stopsAt`), and so what the calls and the lexer can have got
  under a limit.  The main result is `calls_needed`.
-/
import ByteLayout.Proofs.FirstError
import ByteLayout.Proofs.Log

namespace ByteLayout

/-! ## §1. Replies that end a reading. -/

/-- The bytes of a reply. -/
def Reply.data : Reply → List UInt8
  | .bytes data => data
  | .interrupted | .failed _ => []

/-- After the bytes taken before it, the reply is the last that a reading
needs. -/
inductive Reply.Ends (limit : Option Nat) (taken : List UInt8) : Reply → Prop
  /-- The source is at its end. -/
  | nothing : Ends limit taken (.bytes [])
  /-- The source cannot be read. -/
  | failure (reason : String) : Ends limit taken (.failed reason)
  /-- With one of its bytes the reading of tokens fails. -/
  | fault {before after : List UInt8} {b : UInt8} {inHand : Option Lexeme} {e : LexicalError}
    (hbefore : (Lexer.empty.pushAll (taken ++ before)).state = .ok inHand)
    (hb : ((Lexer.empty.pushAll (taken ++ before)).push b).state = .error e) :
    Ends limit taken (.bytes (before ++ b :: after))
  /-- It has bytes beyond the limit. -/
  | excess {data : List UInt8} {n : Nat} (hlimit : limit = some n)
    (hlt : n < (taken ++ data).length) : Ends limit taken (.bytes data)

/-- The replies up to the first that ends a reading after the bytes taken: some
that do not end it, and the last.  Where a source's replies are used up, one
without bytes comes. -/
structure StopsAt (limit : Option Nat) (taken : List UInt8) (replies earlier : List Reply)
    (last : Reply) : Prop where
  got : earlier ++ [last] <+: replies ++ [.bytes []]
  ends : last.Ends limit (taken ++ earlier.flatMap Reply.data)
  goesOn : ∀ before reply after, earlier = before ++ reply :: after →
    ¬ reply.Ends limit (taken ++ before.flatMap Reply.data)

variable {limit : Option Nat} {taken : List UInt8} {replies earlier : List Reply}
  {reply last : Reply}

theorem Reply.not_ends_interrupted : ¬ Reply.interrupted.Ends limit taken :=
  nofun

/-- The first reply may be the last. -/
theorem StopsAt.now (hgot : [last] <+: replies ++ [.bytes []])
    (h : last.Ends limit taken) : StopsAt limit taken replies [] last where
  got := hgot
  ends := (List.append_nil taken).symm ▸ h
  goesOn := by
    intro before reply after heq
    simp at heq

/-- If it does not end the reading, its bytes come before the others. -/
theorem StopsAt.later (h : ¬ reply.Ends limit taken)
    (hstop : StopsAt limit (taken ++ reply.data) replies earlier last) :
    StopsAt limit taken (reply :: replies) (reply :: earlier) last where
  got := (List.prefix_cons_inj reply).2 hstop.got
  ends := by
    rw [List.flatMap_cons, ← List.append_assoc]
    exact hstop.ends
  goesOn := by
    intro before other after heq
    cases before with
    | nil =>
      rw [List.nil_append, List.cons.injEq] at heq
      rw [List.flatMap_nil, List.append_nil, ← heq.1]
      exact h
    | cons first before =>
      rw [List.cons_append, List.cons.injEq] at heq
      rw [List.flatMap_cons, ← List.append_assoc, ← heq.1]
      exact hstop.goesOn before other after heq.2

/-! ## §2. Calls stop at the first reply that ends the reading. -/

namespace Intake

variable {intake : Intake}

/-- The bytes of a reply end the reading exactly if the lexer fails on what the
limit lets in of them, or because it does not let in all. -/
theorem ends_bytes_iff {inHand : Option Lexeme} {data : List UInt8}
    (hle : ∀ n ∈ intake.limit, taken.length ≤ n)
    (hx : (Lexer.empty.pushAll taken).state = .ok inHand) (hdata : data ≠ []) :
    (Reply.bytes data).Ends intake.limit taken
      ↔ ∃ e, (intake.accept (Lexer.empty.pushAll taken) taken.length data).state
          = .error e := by
  cases hexcess : Delivered.exceeded intake.limit (taken ++ data) with
  | some n =>
    -- Beyond the limit the lexer fails, whatever it has made of the bytes.
    obtain ⟨hlimit, hlt⟩ := Delivered.exceeded_eq_some_iff.1 hexcess
    rw [accept_of_lt hlimit (hle n hlimit) hlt]
    exact ⟨fun _ => Lexer.exists_state_fail _ _, fun _ => .excess hlimit hlt⟩
  | none =>
    have hfits := Delivered.exceeded_eq_none_iff.1 hexcess
    rw [accept_of_le hfits]
    constructor
    · intro h
      cases h with
      | nothing => exact absurd rfl hdata
      | excess hlimit hlt =>
        have := hfits _ hlimit
        omega
      | @fault before after b _ e _ hb =>
        -- The lexer has failed then, and takes in nothing more.
        refine ⟨e, ?_⟩
        rw [← List.append_assoc, Lexer.pushAll_append, Lexer.pushAll_cons,
          Lexer.pushAll_of_error hb, hb]
    · rintro ⟨e, he⟩
      rw [Lexer.pushAll_append] at he
      obtain ⟨before, b, after, rfl, ⟨_, hbefore⟩, hb⟩ := Lexer.exists_push_eq_error hx he
      rw [← Lexer.pushAll_append] at hbefore hb
      exact .fault hbefore hb

/-- Reading on after bytes that the limit lets in and that the lexer has not
failed on, calls are made up to the first reply that ends the reading. -/
theorem exists_stopsAt (replies : List Reply) {inHand : Option Lexeme}
    (hle : ∀ n ∈ intake.limit, taken.length ≤ n)
    (hx : (Lexer.empty.pushAll taken).state = .ok inHand) :
    ∃ earlier last,
      (intake.readFrom (Lexer.empty.pushAll taken) taken.length replies).calls
          = (earlier ++ [last]).map intake.call
        ∧ StopsAt intake.limit taken replies earlier last := by
  -- The induction moves each reply's bytes to those taken before.
  induction replies generalizing taken inHand with
  | nil => exact ⟨[], .bytes [], rfl, .now List.prefix_rfl .nothing⟩
  | cons reply replies ih =>
    have hfirst : [reply] <+: reply :: replies ++ [.bytes []] :=
      ⟨replies ++ [.bytes []], rfl⟩
    cases reply with
    | failed reason => exact ⟨[], .failed reason, rfl, .now hfirst (.failure reason)⟩
    | interrupted =>
      obtain ⟨earlier, last, hcalls, hstop⟩ := ih hle hx
      refine ⟨.interrupted :: earlier, last, ?_, .later Reply.not_ends_interrupted ?_⟩
      · exact congrArg (intake.call .interrupted :: ·) hcalls
      · rwa [Reply.data, List.append_nil]
    | bytes data =>
      cases data with
      | nil => exact ⟨[], .bytes [], rfl, .now hfirst .nothing⟩
      | cons b bs =>
        have hends := ends_bytes_iff hle hx (List.cons_ne_nil b bs)
        cases haccept : (intake.accept (Lexer.empty.pushAll taken) taken.length
            (b :: bs)).state with
        | error e =>
          exact ⟨[], .bytes (b :: bs), congrArg Reading.calls (readFrom_of_error haccept replies),
            .now hfirst (hends.2 ⟨e, haccept⟩)⟩
        | ok next =>
          have hgoes : ¬ (Reply.bytes (b :: bs)).Ends intake.limit taken := by
            intro h
            obtain ⟨e, he⟩ := hends.1 h
            cases haccept.symm.trans he
          -- So the limit lets in the whole reply.
          have hfits : ∀ n ∈ intake.limit, (taken ++ b :: bs).length ≤ n := by
            intro n hlimit
            by_contra hlt
            exact hgoes (.excess hlimit (by omega))
          have hwhole := accept_of_le hfits
          rw [hwhole] at haccept
          obtain ⟨earlier, last, hcalls, hstop⟩ := ih hfits haccept
          refine ⟨.bytes (b :: bs) :: earlier, last, ?_, .later hgoes hstop⟩
          rw [readFrom_of_ok (hwhole ▸ haccept), hwhole, ← List.length_append]
          exact congrArg (intake.call (.bytes (b :: bs)) :: ·) hcalls

/-- Nothing but the replies that its calls got bears on a reading. -/
theorem readFrom_calls (x : Lexer) (taken : Nat) (replies : List Reply) :
    intake.readFrom x taken ((intake.readFrom x taken replies).calls.map Call.reply)
      = intake.readFrom x taken replies := by
  -- The replies are gone through again as they were the first time: each makes
  -- the same call, and where the reading ended it ends again.
  induction replies generalizing x taken with
  | nil => rfl
  | cons reply replies ih =>
    cases reply with
    | failed reason => rfl
    | interrupted => exact congrArg (Reading.after · (intake.call .interrupted)) (ih x taken)
    | bytes data =>
      cases data with
      | nil => rfl
      | cons b bs =>
        cases h : (intake.accept x taken (b :: bs)).state with
        | error e =>
          rw [readFrom_of_error h]
          exact readFrom_of_error h []
        | ok inHand =>
          rw [readFrom_of_ok h]
          refine (readFrom_of_ok h _).trans ?_
          rw [ih]

end Intake

/-! ## §3. How many bytes the calls and the lexer get. -/

/-- Replies that do not end a reading stay within the limit. -/
theorem length_le_of_goesOn {n : Nat} (hlimit : limit = some n) (htaken : taken.length ≤ n)
    (h : ∀ before reply after, earlier = before ++ reply :: after →
      ¬ reply.Ends limit (taken ++ before.flatMap Reply.data)) :
    (taken ++ earlier.flatMap Reply.data).length ≤ n := by
  -- The induction is on the last reply, since only the bytes before it say
  -- whether it exceeds the limit.
  induction earlier using List.reverseRecOn with
  | nil => simpa using htaken
  | append_singleton front reply ih =>
    have hfront : (taken ++ front.flatMap Reply.data).length ≤ n := by
      refine ih (fun before other after heq => h before other (after ++ [reply]) ?_)
      rw [heq, List.append_assoc, List.cons_append]
    rw [List.flatMap_append, List.flatMap_singleton, ← List.append_assoc]
    cases reply with
    | interrupted | failed reason => simpa [Reply.data] using hfront
    | bytes data =>
      by_contra hlt
      exact h front (.bytes data) [] rfl (.excess hlimit (Nat.lt_of_not_le hlt))

/-- No piece is larger than the size of the calls. -/
theorem Delivery.length_le_of_mem_cut {size : Nat} (hsize : 0 < size)
    {bs piece : List UInt8} (h : piece ∈ cut size bs) : piece.length ≤ size := by
  fun_induction cut size bs with
  | case1 => cases h
  | case2 b bs ih =>
    rcases List.mem_cons.1 h with rfl | h
    · rw [List.length_cons, List.length_take]
      omega
    · exact ih h

/-- No call gets more bytes than it asks for. -/
theorem Reader.length_data_le {size : Nat} (hsize : 0 < size) {reader : Reader}
    (h : reply ∈ reader.replies size) : reply.data.length ≤ size := by
  obtain ⟨delivery, -, hreply⟩ := List.mem_flatMap.1 h
  cases delivery with
  | interruption | failure reason =>
    rw [List.mem_singleton.1 hreply]
    exact Nat.zero_le size
  | bytes data =>
    cases data with
    | nil =>
      rw [List.mem_singleton.1 hreply]
      exact Nat.zero_le size
    | cons b bs =>
      obtain ⟨piece, hpiece, rfl⟩ := List.mem_map.1 hreply
      exact Delivery.length_le_of_mem_cut hsize hpiece

/-- What replies deliver is at the front of their bytes. -/
theorem Delivered.bytes_ofReplies_prefix (replies : List Reply) :
    (ofReplies replies).bytes <+: replies.flatMap Reply.data := by
  induction replies with
  | nil => exact List.prefix_rfl
  | cons reply replies ih =>
    cases reply with
    | failed reason => exact List.nil_prefix
    | interrupted => exact ih
    | bytes data =>
      cases data with
      | nil => exact List.nil_prefix
      | cons b bs => exact (List.prefix_append_right_inj (b :: bs)).2 ih

/-- The bytes that the calls of a reading got. -/
def Reading.delivered (r : Reading) : List UInt8 :=
  r.calls.flatMap (fun call => call.reply.data)

/-- A reading takes no more than it needs from a source that has these replies
for it. -/
structure Reading.Economy (r : Reading) (chunk : Nat) (limit : Option Nat)
    (replies : List Reply) : Prop where
  asked : ∀ call ∈ r.calls, call.asked = chunk
  /-- The last call is the first to get a reply that ends the reading. -/
  stops : ∃ earlier last, r.calls.map Call.reply = earlier ++ [last]
    ∧ StopsAt limit [] replies earlier last
  delivered_le : ∀ n ∈ limit, r.delivered.length ≤ n + chunk
  /-- The lexer has taken in bytes within the limit, and then failed or come to
  the end of the input. -/
  scanned : ∃ bs, bs <+: r.delivered ∧ (∀ n ∈ limit, bs.length ≤ n)
    ∧ ((∃ e, r.lexer = (Lexer.empty.pushAll bs).fail e)
      ∨ r.lexer = (Lexer.empty.pushAll bs).close)

/-- What a reading got is what its calls got, one after another. -/
theorem Reading.delivered_eq (r : Reading) :
    r.delivered = (r.calls.map Call.reply).flatMap Reply.data :=
  (List.flatMap_map Call.reply Reply.data r.calls).symm

/-- Up to the first reply that ends the reading, no more comes than the limit
lets in and one call gets. -/
theorem StopsAt.length_le {chunk n : Nat} (hstop : StopsAt limit [] replies earlier last)
    (hreplies : ∀ reply ∈ replies, reply.data.length ≤ chunk) (hlimit : limit = some n) :
    ((earlier ++ [last]).flatMap Reply.data).length ≤ n + chunk := by
  have hearlier : ([] ++ earlier.flatMap Reply.data).length ≤ n :=
    length_le_of_goesOn hlimit (Nat.zero_le n) hstop.goesOn
  have hlast : last.data.length ≤ chunk := by
    have hmem : last ∈ replies ++ [.bytes []] := hstop.got.subset (by simp)
    rcases List.mem_append.1 hmem with hmem | hmem
    · exact hreplies last hmem
    · rw [List.mem_singleton.1 hmem]
      exact Nat.zero_le chunk
  rw [List.nil_append] at hearlier
  rw [List.flatMap_append, List.flatMap_singleton, List.length_append]
  omega

/-- A limit lets in no more bytes than it says. -/
theorem Delivered.length_within_le (bs : List UInt8) :
    ∀ n ∈ limit, (within limit bs).length ≤ n := by
  intro n hlimit
  rw [Option.mem_def.1 hlimit]
  exact List.length_take_le n bs

/-- A reading of replies that each fit a call takes no more than it needs. -/
theorem Intake.economy_readFrom (intake : Intake)
    (hreplies : ∀ reply ∈ replies, reply.data.length ≤ intake.chunk) :
    (intake.readFrom .empty 0 replies).Economy intake.chunk intake.limit replies := by
  have hstart : ∀ n ∈ intake.limit, ([] : List UInt8).length ≤ n :=
    fun _ _ => Nat.zero_le _
  obtain ⟨earlier, last, hcalls, hstop⟩ :
      ∃ earlier last, (intake.readFrom .empty 0 replies).calls
          = (earlier ++ [last]).map intake.call
        ∧ StopsAt intake.limit [] replies earlier last :=
    exists_stopsAt replies hstart rfl
  have hgot : (intake.readFrom .empty 0 replies).calls.map Call.reply = earlier ++ [last] := by
    rw [hcalls, List.map_map]
    exact List.map_id _
  constructor
  case asked =>
    intro call hcall
    rw [hcalls] at hcall
    obtain ⟨reply, -, rfl⟩ := List.mem_map.1 hcall
    rfl
  case stops => exact ⟨earlier, last, hgot, hstop⟩
  case delivered_le =>
    intro n hlimit
    rw [Reading.delivered_eq, hgot]
    exact hstop.length_le hreplies hlimit
  case scanned =>
    -- The replies that the calls got are enough for the lexer that is left.
    have hlexer : (intake.readFrom .empty 0 replies).lexer
        = (Delivered.ofReplies (earlier ++ [last])).lexer intake.limit := by
      rw [← hgot, ← lexer_readFrom_start, readFrom_calls]
    refine ⟨_, ?_, Delivered.length_within_le _, hlexer ▸ Delivered.lexer_cases _ _⟩
    rw [Reading.delivered_eq, hgot]
    exact (Delivered.within_isPrefix _ _).trans (Delivered.bytes_ofReplies_prefix _)

/-- **No call too many.**  Every call asks for the same number of bytes, and the
last one is the first whose reply ends the reading.  So under a limit the
calls get no more bytes than it lets in and one call more can bring, and the
lexer takes in none beyond it. -/
theorem calls_needed (intake : Intake) (c : Nat) (reader : Reader) :
    ((intake.withChunk c).read reader).Economy (max c 1) intake.limit
      (reader.replies (max c 1)) := by
  apply (intake.withChunk c).economy_readFrom
  intro reply hreply
  exact Reader.length_data_le (Nat.le_max_right c 1) hreply

/-- The reply that comes to the limit is not the last, and the one beyond it
is. -/
example :
    (((Intake.standard.withLimit 4).withChunk 2).read
        (.ofBytes (Utf8.bytes "abcdefgh"))).calls.map Call.reply
      = [.bytes (Utf8.bytes "ab"), .bytes (Utf8.bytes "cd"), .bytes (Utf8.bytes "ef")] := by
  decide +kernel

end ByteLayout
