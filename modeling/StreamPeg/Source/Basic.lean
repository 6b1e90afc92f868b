/-!
# Byte sources

A byte source is asked for up to `n` bytes at a time and answers once per request: with bytes, where
no bytes for a positive request mean the end of the data, or with a failure. It is read front to
back and never seeks. `ByteSource` holds the one promise that every reader relies on: an answer is
never longer than the request.

A finite source also says what it has yet to deliver, as a sequence of bytes, failures and ends.
`Serves before answer after` is one answer to a positive request as a step on that sequence, so how
the bytes are cut into answers is the source's own affair, but their order is not.
-/

namespace StreamPeg

inductive FailureKind where
  | other
  | interrupted
  | unexpectedEof
  | connectionReset
  | wouldBlock
  | notFound
  deriving DecidableEq, Repr

structure SourceFailure where
  kind : FailureKind
  text : String
  deriving DecidableEq, Repr

inductive Answer where
  | bytes (given : List UInt8)
  | failed (failure : SourceFailure)
  deriving DecidableEq, Repr

namespace Answer

/-- The bytes of an answer; a failure brings none. -/
def given : Answer → List UInt8
  | .bytes bs => bs
  | .failed _ => []

@[simp] theorem given_bytes (bs : List UInt8) : (Answer.bytes bs).given = bs := rfl

@[simp] theorem given_failed (e : SourceFailure) : (Answer.failed e).given = [] := rfl

end Answer

class ByteSource (σ : Type) where
  fill : σ → Nat → Answer × σ
  length_fill_le : ∀ (s : σ) (n : Nat), (fill s n).1.given.length ≤ n

/-- A request put to a source, and what came back. -/
structure Call where
  requested : Nat
  answer : Answer
  deriving DecidableEq, Repr

inductive Delivery where
  | byte (b : UInt8)
  | failure (e : SourceFailure)
  | ended
  deriving DecidableEq, Repr

inductive Serves : List Delivery → Answer → List Delivery → Prop where
  | bytes {bs : List UInt8} {rest : List Delivery} : bs ≠ [] →
      Serves (bs.map .byte ++ rest) (.bytes bs) rest
  | ended {rest : List Delivery} : Serves (.ended :: rest) (.bytes []) rest
  | drained : Serves [] (.bytes []) []
  | failed {e : SourceFailure} {rest : List Delivery} : Serves (.failure e :: rest) (.failed e) rest

/-- Of an answer that brings bytes, part may be handed out and the rest kept. -/
theorem Serves.split {before after : List Delivery} {bs : List UInt8} {n : Nat} (hn : 0 < n)
    (h : Serves before (.bytes bs) after) :
    Serves before (.bytes (bs.take n)) ((bs.drop n).map .byte ++ after) := by
  generalize ha : Answer.bytes bs = answer at h
  cases h with
  | @bytes cs rest hb =>
    cases ha
    have ht : bs.take n ≠ [] := fun h => (List.take_eq_nil_iff.mp h).elim (by omega) hb
    have hs := @Serves.bytes (bs.take n) ((bs.drop n).map .byte ++ after) ht
    rwa [← List.append_assoc, ← List.map_append, List.take_append_drop] at hs
  | ended => cases ha; simpa using Serves.ended
  | drained => cases ha; simpa using Serves.drained
  | failed => cases ha

class FiniteSource (σ : Type) extends ByteSource σ where
  upcoming : σ → List Delivery
  serves_fill : ∀ (s : σ) (n : Nat), 0 < n →
    Serves (upcoming s) (fill s n).1 (upcoming (fill s n).2)

end StreamPeg
