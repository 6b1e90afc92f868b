import StreamPeg.Cursor.Manager
import StreamPeg.Source.Calls

/-!
# Runs of a manager

A `Step` is one thing that is done to a manager, with ids of any kind, and `run` does one step after
the other. Nothing else changes a manager: to hand a branch over for good is to commit and then to
release it, and a parse is made of these steps too, with `stall` for the note that a repetition
leaves when it stops for want of progress.

The journal of a run tells which calls were made to the source (`calls`, the oldest first) and so
which bytes were `received`.
-/

namespace StreamPeg

inductive Step where
  | branch (id : CursorId)
  | read (id : CursorId) (count : Nat)
  | offset (id : CursorId)
  | commit (target branch : CursorId)
  | dispose (id : CursorId)
  | release (id : CursorId)
  | stall (rule part : String)
  deriving DecidableEq, Repr

namespace Manager

variable {σ : Type} [ByteSource σ]

/-- The manager after a step, whether the step succeeds or not. -/
def step (m : Manager σ) : Step → Manager σ
  | .branch id => (m.branch id).2
  | .read id count => (m.read id count).2
  | .offset _ => m
  | .commit target branch => (m.commit target branch).2
  | .dispose id => (m.dispose id).2
  | .release id => m.release id
  | .stall rule part => m.note (.stalled rule part)

def run (m : Manager σ) (steps : List Step) : Manager σ := steps.foldl step m

@[simp] theorem run_nil (m : Manager σ) : m.run [] = m := rfl

@[simp] theorem run_cons (m : Manager σ) (s : Step) (steps : List Step) :
    m.run (s :: steps) = (m.step s).run steps := rfl

theorem run_append (m : Manager σ) (steps steps' : List Step) :
    m.run (steps ++ steps') = (m.run steps).run steps' := List.foldl_append

/-- What every step keeps, a run keeps. -/
theorem run_induct {P : Manager σ → Prop} {m : Manager σ} (h : P m)
    (hs : ∀ m s, P m → P (m.step s)) (steps : List Step) : P (m.run steps) := by
  induction steps generalizing m with
  | nil => exact h
  | cons s steps ih => exact ih (hs m s h)

end Manager

/-! ### What the journal tells of the source -/

def Event.call? : Event → Option Call
  | .filled call => some call
  | _ => none

/-- The calls that a journal tells of, the oldest first. -/
def calls (journal : List Event) : List Call := (journal.filterMap Event.call?).reverse

/-- The bytes that have come from the source, in their order. -/
def received (journal : List Event) : List UInt8 := given (calls journal)

@[simp] theorem calls_nil : calls [] = [] := rfl

@[simp] theorem calls_filled (call : Call) (journal : List Event) :
    calls (.filled call :: journal) = calls journal ++ [call] := by
  simp [calls, Event.call?]

/-- Other events tell nothing of the source. -/
theorem calls_cons {event : Event} (h : event.call? = none) (journal : List Event) :
    calls (event :: journal) = calls journal := by
  simp [calls, h]

theorem received_cons {event : Event} (h : event.call? = none) (journal : List Event) :
    received (event :: journal) = received journal := by
  rw [received, calls_cons h, received]

/-- Calls say nothing to those who look for other events. -/
theorem filterMap_filled {β : Type} {f : Event → Option β} (h : ∀ call, f (.filled call) = none)
    (cs : List Call) (journal : List Event) :
    ((cs.map Event.filled).reverse ++ journal).filterMap f = journal.filterMap f := by
  have hnil : (cs.map Event.filled).filterMap f = [] := by
    rw [List.filterMap_map]
    exact List.filterMap_eq_nil_iff.mpr fun call _ => h call
  rw [List.filterMap_append, List.filterMap_reverse, hnil, List.reverse_nil, List.nil_append]

theorem calls_append_filled (cs : List Call) (journal : List Event) :
    calls ((cs.map .filled).reverse ++ journal) = calls journal ++ cs := by
  have h : (cs.map Event.filled).filterMap Event.call? = cs := by
    rw [List.filterMap_map]
    exact List.filterMap_some
  rw [calls, List.filterMap_append, List.filterMap_reverse, h, List.reverse_append,
    List.reverse_reverse, calls]

end StreamPeg
