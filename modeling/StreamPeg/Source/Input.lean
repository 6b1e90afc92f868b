import StreamPeg.Source.Buffered
import StreamPeg.Source.Memory

/-!
# Sources of any kind

An input is a source of one of the three kinds, for callers that hold several kinds side by side.
-/

namespace StreamPeg

inductive Input where
  | memory (source : Memory)
  | script (source : Script)
  | buffered (source : Buffered)
  deriving DecidableEq, Repr

namespace Input

def fill : Input → Nat → Answer × Input
  | .memory s, n => (s.fill n).map id .memory
  | .script s, n => (s.fill n).map id .script
  | .buffered s, n => (s.fill n).map id .buffered

def upcoming : Input → List Delivery
  | .memory s => s.upcoming
  | .script s => s.upcoming
  | .buffered s => s.upcoming

/-- The calls that a script has answered, directly or under a buffer, the newest first. -/
def calls : Input → List Call
  | .memory _ => []
  | .script s => s.calls
  | .buffered s => s.reader.calls

theorem length_fill_le (s : Input) (n : Nat) : (s.fill n).1.given.length ≤ n := by
  cases s with
  | memory s => exact ByteSource.length_fill_le s n
  | script s => exact ByteSource.length_fill_le s n
  | buffered s => exact ByteSource.length_fill_le s n

theorem serves_fill (s : Input) (n : Nat) (hn : 0 < n) :
    Serves s.upcoming (s.fill n).1 (s.fill n).2.upcoming := by
  cases s with
  | memory s => exact s.serves_fill n hn
  | script s => exact s.serves_fill n hn
  | buffered s => exact s.serves_fill n hn

instance : FiniteSource Input where
  fill := fill
  length_fill_le := length_fill_le
  upcoming := upcoming
  serves_fill := serves_fill

end Input

end StreamPeg
