import StreamPeg.Cursor.Table
import StreamPeg.Source.Basic

/-!
# The journal of a stream

A manager writes down what happens to it, event by event. Most events have a line in the log, a
record with its level and its text (`Event.record?`); what a read asks for, what the source answers
and where the cursor then stands are kept without one.
-/

namespace StreamPeg

inductive Level where
  | trace
  | debug
  | warn
  deriving DecidableEq, Repr

structure Record where
  level : Level
  text : String
  deriving DecidableEq, Repr

inductive Event where
  | opened (id : CursorId) (offset : Nat)
  | branched (id parent : CursorId) (offset : Nat)
  | requested (id : CursorId) (count : Nat)
  | filled (call : Call)
  | exhausted (offset : Nat)
  | deferred (available : Nat)
  | advanced (id : CursorId) (offset : Nat)
  | committed (branch target : CursorId) (offset : Nat)
  | disposed (id : CursorId)
  | released (id : CursorId)
  | shrunk (old new : Nat)
  | stalled (rule part : String)
  deriving DecidableEq, Repr

namespace Event

def record? : Event → Option Record
  | .opened id offset =>
    some ⟨.trace, "opened cursor " ++ id.text ++ " at offset " ++ toString offset⟩
  | .branched id parent offset =>
    some ⟨.trace, "branched cursor " ++ id.text ++ " from " ++ parent.text ++
      " at offset " ++ toString offset⟩
  | .requested .. => none
  | .filled .. => none
  | .exhausted offset => some ⟨.debug, "byte source exhausted at offset " ++ toString offset⟩
  | .deferred available =>
    some ⟨.debug, "deferring source failure after " ++ toString available ++ " available bytes"⟩
  | .advanced .. => none
  | .committed branch target offset =>
    some ⟨.trace, "committed cursor " ++ branch.text ++ " into " ++ target.text ++
      " at offset " ++ toString offset⟩
  | .disposed id => some ⟨.trace, "disposed cursor " ++ id.text⟩
  | .released id => some ⟨.trace, "released cursor " ++ id.text⟩
  | .shrunk old new =>
    some ⟨.trace, "window shrunk from offset " ++ toString old ++ " to " ++ toString new⟩
  | .stalled rule part =>
    some ⟨.warn, "rule " ++ rule ++ " stopped repeating: " ++ part ++
      " matched without consuming input"⟩

end Event

end StreamPeg
