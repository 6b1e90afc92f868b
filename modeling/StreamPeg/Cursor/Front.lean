import StreamPeg.Cursor.Run

/-!
# What comes first

The front of a source is what it delivers before it first ends or fails, and which of the two it
does. How the bytes are cut into answers is no part of it. The front of a manager takes in what has
come already, so it stays the same until a failure is raised, and it decides what every read finds
(`Front.read`): as many bytes as there are in the front, then its end or its failure.
-/

namespace StreamPeg

structure Front where
  bytes : List UInt8
  failure : Option SourceFailure
  deriving DecidableEq, Repr

namespace Front

/-- The front behind some more bytes. -/
def behind (f : Front) (bs : List UInt8) : Front := ⟨bs ++ f.bytes, f.failure⟩

theorem behind_append (f : Front) (bs cs : List UInt8) :
    f.behind (bs ++ cs) = (f.behind cs).behind bs := by
  rw [behind, behind, behind, List.append_assoc]

/-- What a read of so many bytes from an offset finds. A failure only comes up if there is nothing
before it. -/
def read (f : Front) (offset count : Nat) : Except StreamError Chunk :=
  let found := (f.bytes.drop offset).take count
  if found.length = count then .ok ⟨offset, found, false⟩
  else
    match f.failure, found with
    | none, found => .ok ⟨offset, found, true⟩
    | some e, [] => .error (.source e)
    | some _, found => .ok ⟨offset, found, false⟩

end Front

def frontOf : List Delivery → Front
  | [] => ⟨[], none⟩
  | .byte b :: ds => (frontOf ds).behind [b]
  | .failure e :: _ => ⟨[], some e⟩
  | .ended :: _ => ⟨[], none⟩

theorem frontOf_append_bytes (bs : List UInt8) (ds : List Delivery) :
    frontOf (bs.map .byte ++ ds) = (frontOf ds).behind bs := by
  induction bs with
  | nil => rfl
  | cons b bs ih =>
    rw [List.map_cons, List.cons_append, frontOf, ih, ← Front.behind_append, List.singleton_append]

/-- What the cursors of a manager can find, from the start of the data on. -/
def Manager.front {σ : Type} [FiniteSource σ] (m : Manager σ) : Front :=
  match m.held with
  | some e => ⟨received m.journal, some e⟩
  | none =>
    if m.exhausted then ⟨received m.journal, none⟩
    else (frontOf (FiniteSource.upcoming m.source)).behind (received m.journal)

end StreamPeg
