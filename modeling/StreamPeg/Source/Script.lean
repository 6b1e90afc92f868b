import StreamPeg.Source.Basic

/-!
# Scripted sources

A scripted source plays a list of pieces: chunks of bytes and failures. Each request meets the
first piece only. A chunk gives what the request asks for and keeps the rest for later requests, an
empty chunk is an end of data, and a failure fails one request. Behind the last piece every request
finds the end. The source keeps the calls it has answered, the newest first.
-/

namespace StreamPeg

inductive Piece where
  | chunk (bytes : List UInt8)
  | failure (e : SourceFailure)
  deriving DecidableEq, Repr

namespace Piece

/-- One request played against the pieces. -/
def play (n : Nat) : List Piece → Answer × List Piece
  | [] => (.bytes [], [])
  | .failure e :: rest => (.failed e, rest)
  | .chunk bs :: rest =>
    match bs.drop n with
    | [] => (.bytes (bs.take n), rest)
    | left => (.bytes (bs.take n), .chunk left :: rest)

def deliveries : Piece → List Delivery
  | .chunk [] => [.ended]
  | .chunk bs => bs.map .byte
  | .failure e => [.failure e]

theorem length_play_le (n : Nat) (ps : List Piece) : (play n ps).1.given.length ≤ n := by
  fun_cases play n ps with
  | case1 => exact Nat.zero_le n
  | case2 e rest => exact Nat.zero_le n
  | case3 bs rest h => exact List.length_take_le n bs
  | case4 bs rest h => exact List.length_take_le n bs

theorem deliveries_chunk {bs : List UInt8} (h : bs ≠ []) :
    deliveries (.chunk bs) = bs.map .byte := by
  cases bs with
  | nil => exact absurd rfl h
  | cons => rfl

theorem serves_play (n : Nat) (hn : 0 < n) (ps : List Piece) :
    Serves (ps.flatMap deliveries) (play n ps).1 ((play n ps).2.flatMap deliveries) := by
  fun_cases play n ps with
  | case1 => exact .drained
  | case2 e rest => exact .failed
  | case3 bs rest h =>
    cases bs with
    | nil => simpa [deliveries] using @Serves.ended (rest.flatMap deliveries)
    | cons b bs =>
      rw [List.drop_eq_nil_iff] at h
      rw [List.flatMap_cons, deliveries_chunk (List.cons_ne_nil b bs), List.take_of_length_le h]
      exact .bytes (List.cons_ne_nil b bs)
  | case4 bs rest h =>
    have hb : bs ≠ [] := by rintro rfl; simp at h
    have ht : bs.take n ≠ [] := fun h => (List.take_eq_nil_iff.mp h).elim (by omega) hb
    rw [List.flatMap_cons, List.flatMap_cons, deliveries_chunk hb, deliveries_chunk h]
    have hs := @Serves.bytes (bs.take n) ((bs.drop n).map .byte ++ rest.flatMap deliveries) ht
    rwa [← List.append_assoc, ← List.map_append, List.take_append_drop] at hs

theorem eq_cons_of_play_failed {n : Nat} {ps rest : List Piece} {e : SourceFailure}
    (h : play n ps = (.failed e, rest)) : ps = .failure e :: rest := by
  revert h
  fun_cases play n ps <;> simp_all

end Piece

structure Script where
  pieces : List Piece
  calls : List Call
  deriving DecidableEq, Repr

namespace Script

def ofPieces (pieces : List Piece) : Script := ⟨pieces, []⟩

def fill (s : Script) (n : Nat) : Answer × Script :=
  let (answer, rest) := Piece.play n s.pieces
  (answer, ⟨rest, ⟨n, answer⟩ :: s.calls⟩)

def upcoming (s : Script) : List Delivery := s.pieces.flatMap Piece.deliveries

theorem length_fill_le (s : Script) (n : Nat) : (s.fill n).1.given.length ≤ n :=
  Piece.length_play_le n s.pieces

theorem serves_fill (s : Script) (n : Nat) (hn : 0 < n) :
    Serves s.upcoming (s.fill n).1 (s.fill n).2.upcoming :=
  Piece.serves_play n hn s.pieces

/-- A failure uses up the piece that it is. -/
theorem length_pieces_of_failed {s s' : Script} {n : Nat} {e : SourceFailure}
    (h : s.fill n = (.failed e, s')) : s.pieces.length = s'.pieces.length + 1 := by
  simp only [fill, Prod.mk.injEq] at h
  obtain ⟨h, rfl⟩ := h
  rw [Piece.eq_cons_of_play_failed (Prod.ext h rfl)]
  rfl

instance : FiniteSource Script where
  fill := fill
  length_fill_le := length_fill_le
  upcoming := upcoming
  serves_fill := serves_fill

end Script

end StreamPeg
