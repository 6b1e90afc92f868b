import StreamPeg.Cursor.Run

/-!
# Operations that check their bounds

`step?` does what a step does, and looks at the bounds first: a subtraction must not fall below
zero, a slice must start before it stops and stop within the window, and no more may be drained than
is there. It is `none` as soon as one of them is out of range. A read slices the window twice: it
serves what is buffered, and then takes what the pull has put behind that. Sizes are added without a
bound.
-/

namespace StreamPeg

def checkedSub (a b : Nat) : Option Nat := if b ≤ a then some (a - b) else none

def slice? (window : Array UInt8) (start stop : Nat) : Option (List UInt8) :=
  if start ≤ stop ∧ stop ≤ window.size then some (window.extract start stop).toList else none

/-- What is left when so many bytes are taken away at the front. -/
def drain? (window : Array UInt8) (count : Nat) : Option (Array UInt8) :=
  if count ≤ window.size then some (window.extract count window.size) else none

namespace Manager

variable {σ : Type}

def shrink? (m : Manager σ) : Option (Manager σ) :=
  match m.cursors.floor? with
  | none => some m
  | some floor =>
    if m.base < floor then do
      let passed ← checkedSub floor m.base
      let window ← drain? m.window passed
      some { m with window, base := floor, journal := .shrunk m.base floor :: m.journal }
    else some m

def advance? (m : Manager σ) (id : CursorId) (offset : Nat) : Option (Manager σ) :=
  { m with
    cursors := m.cursors.put id offset
    journal := .advanced id offset :: m.journal }.shrink?

def read? [ByteSource σ] (m : Manager σ) (id : CursorId) (count : Nat) :
    Option (Except StreamError Chunk × Manager σ) :=
  match m.cursors.offset? id with
  | none => some (.error (.unknownCursor id), m)
  | some offset => do
    let start ← checkedSub offset m.base
    let served ← slice? m.window start (min (start + count) m.window.size)
    let missing ← checkedSub count served.length
    let before := m.window.size
    let (out, m) := (m.note (.requested id count)).pull missing
    let added ← checkedSub m.window.size before
    let taken ← slice? m.window before (before + min added missing)
    let bytes := served ++ taken
    match out, bytes with
    | .failed e, [] => some (.error (.source e), m)
    | .failed e, bytes => do
      let m ← { m with held := some e, journal := .deferred bytes.length :: m.journal }.advance? id
        (offset + bytes.length)
      some (.ok ⟨offset, bytes, false⟩, m)
    | out, bytes => do
      let m ← m.advance? id (offset + bytes.length)
      some (.ok ⟨offset, bytes, out = .ended⟩, m)

def commit? (m : Manager σ) (target branch : CursorId) : Option (Manager σ) :=
  match m.cursors.offset? target, m.cursors.offset? branch with
  | some _, some offset =>
    { m with
      cursors := (m.cursors.erase branch).put target offset
      journal := .committed branch target offset :: m.journal }.shrink?
  | _, _ => some m

def dispose? (m : Manager σ) (id : CursorId) : Option (Manager σ) :=
  match m.cursors.offset? id with
  | none => some m
  | some _ => { m with cursors := m.cursors.erase id, journal := .disposed id :: m.journal }.shrink?

def release? (m : Manager σ) (id : CursorId) : Option (Manager σ) :=
  match m.cursors.offset? id with
  | none => some m
  | some _ => { m with cursors := m.cursors.erase id, journal := .released id :: m.journal }.shrink?

def step? [ByteSource σ] (m : Manager σ) : Step → Option (Manager σ)
  | .branch id => some (m.branch id).2
  | .read id count => (m.read? id count).map (·.2)
  | .offset _ => some m
  | .commit target branch => m.commit? target branch
  | .dispose id => m.dispose? id
  | .release id => m.release? id
  | .stall rule part => some (m.note (.stalled rule part))

end Manager

end StreamPeg
