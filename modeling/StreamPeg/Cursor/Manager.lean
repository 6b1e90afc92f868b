import StreamPeg.Cursor.Event

/-!
# Many cursors over one source

A manager owns a byte source and the cursors that read it. The source is read once, front to back;
the manager keeps the bytes from the slowest live cursor (`base`) to the last byte received as its
window, so a cursor can be branched, read ahead, and then be committed into another or given up.

A read is served from the window, and `pull` asks the source for what is missing. Bytes that arrive
before a failure count: if a read has bytes to give it gives them, and the failure is held back for
the next read that reaches the source. An end of data is final, and the source is not asked again.

Each operation answers with its result and the manager afterwards. The journal is newest first.
-/

namespace StreamPeg

inductive StreamError where
  | source (failure : SourceFailure)
  | unknownCursor (id : CursorId)
  deriving DecidableEq, Repr

def StreamError.message : StreamError → String
  | .source failure => "byte source failed: " ++ failure.text
  | .unknownCursor id => "cursor " ++ id.text ++ " is not live"

/-- What a read brings: where it started, the bytes, and whether the data ended short of it. -/
structure Chunk where
  start : Nat
  bytes : List UInt8
  atEnd : Bool
  deriving DecidableEq, Repr

structure WindowStats where
  base : Nat
  buffered : Nat
  liveCursors : Nat
  deriving DecidableEq, Repr

/-- `readAhead` is how many bytes beyond the missing ones are asked for. -/
structure StreamOptions where
  initialCapacity : Nat := 64
  readAhead : Nat := 0
  deriving DecidableEq, Repr

structure Manager (σ : Type) where
  source : σ
  window : Array UInt8
  base : Nat
  cursors : CursorTable
  nextId : CursorId
  exhausted : Bool
  held : Option SourceFailure
  readAhead : Nat
  journal : List Event
  deriving DecidableEq, Repr

/-- How a pull ends. -/
inductive Pulled where
  | satisfied
  | ended
  | failed (failure : SourceFailure)
  deriving DecidableEq, Repr

namespace Manager

variable {σ : Type}

/-- A fresh manager, with the root cursor at the start. -/
def ofSource (options : StreamOptions) (source : σ) : Manager σ where
  source := source
  window := Array.emptyWithCapacity options.initialCapacity
  base := 0
  cursors := CursorTable.empty.put .root 0
  nextId := 1
  exhausted := false
  held := none
  readAhead := options.readAhead
  journal := [.opened .root 0]

def note (m : Manager σ) (event : Event) : Manager σ :=
  { m with journal := event :: m.journal }

def stats (m : Manager σ) : WindowStats :=
  ⟨m.base, m.window.size, m.cursors.size⟩

def offset (m : Manager σ) (id : CursorId) : Except StreamError Nat :=
  match m.cursors.offset? id with
  | some offset => .ok offset
  | none => .error (.unknownCursor id)

/-- The window's bytes from an offset on, at most `count` of them. -/
def buffered (m : Manager σ) (offset count : Nat) : List UInt8 :=
  (m.window.extract (offset - m.base) (offset - m.base + count)).toList

/-- Drops the bytes before the slowest live cursor; without any live cursor nothing moves. -/
def shrink (m : Manager σ) : Manager σ :=
  match m.cursors.floor? with
  | none => m
  | some floor =>
    if m.base < floor then
      { m with
        window := m.window.extract (floor - m.base) m.window.size
        base := floor
        journal := .shrunk m.base floor :: m.journal }
    else m

/-! ### Pulling from the source -/

/-- Asks the source until `needed` bytes have come, it ends or it fails. Each request is for all
that is left of `wanted`. Every answer that goes on brings a byte, so `tries` bounds the number of
requests. -/
def draw [ByteSource σ] : (tries needed wanted : Nat) → Manager σ → Pulled × Manager σ
  | 0, _, _, m => (.satisfied, m)
  | tries + 1, needed, wanted, m =>
    if needed = 0 then (.satisfied, m)
    else
      match ByteSource.fill m.source wanted with
      | (.failed e, source) =>
        (.failed e, { m with source, journal := .filled ⟨wanted, .failed e⟩ :: m.journal })
      | (.bytes [], source) =>
        (.ended,
          { m with
            source
            exhausted := true
            journal := .exhausted (m.base + m.window.size) :: .filled ⟨wanted, .bytes []⟩ ::
              m.journal })
      | (.bytes bs, source) =>
        draw tries (needed - bs.length) (wanted - bs.length)
          { m with
            source
            window := m.window ++ bs.toArray
            journal := .filled ⟨wanted, .bytes bs⟩ :: m.journal }

/-- Brings `needed` more bytes into the window, and up to `readAhead` beyond them. A failure that is
held back is raised instead, and then forgotten. -/
def pull [ByteSource σ] (m : Manager σ) (needed : Nat) : Pulled × Manager σ :=
  if needed = 0 then (.satisfied, m)
  else
    match m.held with
    | some e => (.failed e, { m with held := none })
    | none =>
      if m.exhausted then (.ended, m)
      else draw needed needed (needed + m.readAhead) m

/-! ### Operations on cursors -/

/-- A new cursor where `id` stands. -/
def branch (m : Manager σ) (id : CursorId) : Except StreamError CursorId × Manager σ :=
  match m.cursors.offset? id with
  | none => (.error (.unknownCursor id), m)
  | some offset =>
    (.ok m.nextId,
      { m with
        cursors := m.cursors.put m.nextId offset
        nextId := m.nextId + 1
        journal := .branched m.nextId id offset :: m.journal })

/-- Moves a cursor to an offset. -/
def advance (m : Manager σ) (id : CursorId) (offset : Nat) : Manager σ :=
  { m with
    cursors := m.cursors.put id offset
    journal := .advanced id offset :: m.journal }.shrink

/-- Reads up to `count` bytes and moves the cursor past them. A read that fails moves nothing. -/
def read [ByteSource σ] (m : Manager σ) (id : CursorId) (count : Nat) :
    Except StreamError Chunk × Manager σ :=
  match m.cursors.offset? id with
  | none => (.error (.unknownCursor id), m)
  | some offset =>
    match (m.note (.requested id count)).pull (count - (m.buffered offset count).length) with
    | (.satisfied, m) =>
      let bytes := m.buffered offset count
      (.ok ⟨offset, bytes, false⟩, m.advance id (offset + bytes.length))
    | (.ended, m) =>
      let bytes := m.buffered offset count
      (.ok ⟨offset, bytes, true⟩, m.advance id (offset + bytes.length))
    | (.failed e, m) =>
      match m.buffered offset count with
      | [] => (.error (.source e), m)
      | bytes =>
        (.ok ⟨offset, bytes, false⟩,
          { m with held := some e, journal := .deferred bytes.length :: m.journal }.advance id
            (offset + bytes.length))

def readByte [ByteSource σ] (m : Manager σ) (id : CursorId) :
    Except StreamError (Option UInt8) × Manager σ :=
  let (result, m) := m.read id 1
  (result.map (·.bytes.head?), m)

/-- Removes a cursor that has to be live. -/
def dispose (m : Manager σ) (id : CursorId) : Except StreamError Unit × Manager σ :=
  match m.cursors.offset? id with
  | none => (.error (.unknownCursor id), m)
  | some _ =>
    (.ok (),
      { m with cursors := m.cursors.erase id, journal := .disposed id :: m.journal }.shrink)

/-- Removes a cursor if it is live. -/
def release (m : Manager σ) (id : CursorId) : Manager σ :=
  match m.cursors.offset? id with
  | none => m
  | some _ => { m with cursors := m.cursors.erase id, journal := .released id :: m.journal }.shrink

/-- Moves `target` to where `branch` stands, and removes `branch`. A cursor committed into itself
stays where it is. -/
def commit (m : Manager σ) (target branch : CursorId) : Except StreamError Unit × Manager σ :=
  match m.cursors.offset? target with
  | none => (.error (.unknownCursor target), m)
  | some _ =>
    match m.cursors.offset? branch with
    | none => (.error (.unknownCursor branch), m)
    | some offset =>
      (.ok (),
        { m with
          cursors := (m.cursors.erase branch).put target offset
          journal := .committed branch target offset :: m.journal }.shrink)

/-- A commit that is handed the branch for good: it is gone afterwards, also if the commit fails. -/
def adopt (m : Manager σ) (target branch : CursorId) : Except StreamError Unit × Manager σ :=
  let (result, m) := m.commit target branch
  (result, m.release branch)

/-- The most bytes that can still be read by anyone. -/
def available [FiniteSource σ] (m : Manager σ) : Nat :=
  m.window.size + (FiniteSource.upcoming m.source).length

end Manager

end StreamPeg
