/-
  ByteLayout.Source.Reader
  ────────────────────────
  **WHERE BYTES COME FROM.**

  A source is read by calls, each of which asks for at most so many bytes and
  gets a reply.  A reply without bytes is the end of the source, whatever
  would come after it.

  A reader is what it delivers, delivery by delivery.  A delivery of bytes
  is handed over in as many replies as the size of the calls makes needed; a
  call never gets bytes of two deliveries.
-/

namespace ByteLayout

/-- What a call that asks for bytes gets. -/
inductive Reply where
  /-- So many bytes; none at the end of the source. -/
  | bytes (data : List UInt8)
  /-- Nothing this time: the call is to be made again. -/
  | interrupted
  /-- The source cannot be read. -/
  | failed (reason : String)
  deriving DecidableEq, Repr

/-- One step in what a reader delivers. -/
inductive Delivery where
  | bytes (data : List UInt8)
  | interruption
  | failure (reason : String)
  deriving DecidableEq, Repr

/-- Bytes in pieces of the given size, the last one shorter if need be.  A
size of zero counts as one. -/
def Delivery.cut (size : Nat) : List UInt8 → List (List UInt8)
  | [] => []
  | b :: bs => (b :: bs.take (size - 1)) :: cut size (bs.drop (size - 1))
termination_by bs => bs.length
decreasing_by
  simp only [List.length_cons, List.length_drop]
  omega

/-- Pieces, put together again, are the bytes that were cut. -/
theorem Delivery.flatten_cut (size : Nat) (bs : List UInt8) :
    (cut size bs).flatten = bs := by
  fun_induction cut size bs with
  | case1 => rfl
  | case2 b bs ih =>
    rw [List.flatten_cons, ih, List.cons_append, List.take_append_drop]

/-- The replies in which calls of the given size get a delivery. -/
def Delivery.replies (size : Nat) : Delivery → List Reply
  | .bytes [] => [.bytes []]
  | .bytes (b :: bs) => (cut size (b :: bs)).map .bytes
  | .interruption => [.interrupted]
  | .failure reason => [.failed reason]

/-- What a reader delivers, step by step. -/
abbrev Reader := List Delivery

namespace Reader

/-- The replies that calls of the given size get, one after another.  When
the replies are used up, the source is at its end. -/
def replies (reader : Reader) (size : Nat) : List Reply :=
  reader.flatMap (Delivery.replies size)

/-- The reader that delivers the given bytes at once. -/
def ofBytes (data : List UInt8) : Reader :=
  [.bytes data]

end Reader

end ByteLayout
