import StreamPeg.Cursor.Manager

/-!
# Several streams side by side

A cursor in a caller's hands is a number together with the stream that gave it out, so equal numbers
of two streams are not taken for each other. A commit across two streams is refused; the branch that
was handed over is released in its own stream all the same.
-/

namespace StreamPeg

structure Cursor where
  stream : Nat
  id : CursorId
  deriving DecidableEq, Repr

structure Streams (σ : Type) where
  managers : Array (Manager σ)
  deriving DecidableEq, Repr

namespace Streams

variable {σ : Type}

def empty : Streams σ := ⟨#[]⟩

def openSource (s : Streams σ) (options : StreamOptions) (source : σ) : Cursor × Streams σ :=
  (⟨s.managers.size, .root⟩, ⟨s.managers.push (.ofSource options source)⟩)

/-- Does something to one stream; where there is no such stream the answer is `absent`. -/
def onStream {α : Type} (s : Streams σ) (stream : Nat) (absent : α)
    (act : Manager σ → α × Manager σ) : α × Streams σ :=
  match s.managers[stream]? with
  | none => (absent, s)
  | some m =>
    let (result, m) := act m
    (result, ⟨s.managers.setIfInBounds stream m⟩)

/-- Does something with a cursor, which is not live in a stream that is not there. -/
def withCursor {α : Type} (s : Streams σ) (c : Cursor)
    (act : Manager σ → CursorId → Except StreamError α × Manager σ) :
    Except StreamError α × Streams σ :=
  s.onStream c.stream (.error (.unknownCursor c.id)) (act · c.id)

def offset (s : Streams σ) (c : Cursor) : Except StreamError Nat :=
  match s.managers[c.stream]? with
  | none => .error (.unknownCursor c.id)
  | some m => m.offset c.id

/-- One line that shows a cursor's number and where it stands, if it is live. -/
def debugText (s : Streams σ) (c : Cursor) : String :=
  let offset :=
    match s.offset c with
    | .ok offset => "Some(" ++ toString offset ++ ")"
    | .error _ => "None"
  "Cursor \x7b id: CursorId(" ++ toString c.id ++ "), offset: " ++ offset ++ " \x7d"

def branch (s : Streams σ) (c : Cursor) : Except StreamError Cursor × Streams σ :=
  let (result, s) := s.withCursor c Manager.branch
  (result.map (⟨c.stream, ·⟩), s)

def read [ByteSource σ] (s : Streams σ) (c : Cursor) (count : Nat) :
    Except StreamError Chunk × Streams σ :=
  s.withCursor c fun m id => m.read id count

def readByte [ByteSource σ] (s : Streams σ) (c : Cursor) :
    Except StreamError (Option UInt8) × Streams σ :=
  s.withCursor c Manager.readByte

def release (s : Streams σ) (c : Cursor) : Streams σ :=
  (s.onStream c.stream () fun m => ((), m.release c.id)).2

/-- Commits a branch into a cursor. The branch is gone afterwards, whatever the answer. -/
def commit (s : Streams σ) (target branch : Cursor) : Except StreamError Unit × Streams σ :=
  if target.stream = branch.stream then
    s.withCursor target fun m id => m.adopt id branch.id
  else (.error (.unknownCursor branch.id), s.release branch)

end Streams

end StreamPeg
