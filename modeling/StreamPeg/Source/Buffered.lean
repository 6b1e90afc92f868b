import StreamPeg.Source.Script

/-!
# Buffered reading

A buffered source reads ahead from a scripted reader, `capacity` bytes at a time. Bytes in the
buffer are handed out first; only a request that finds the buffer empty reaches the reader, and one
for at least the capacity then passes the buffer by. An interrupted read is tried again, so the
reader's interruptions never come out. All else that the reader delivers comes out in its order.
-/

namespace StreamPeg

structure Buffered where
  reader : Script
  buffer : List UInt8
  capacity : Nat
  deriving DecidableEq, Repr

namespace Buffered

def defaultCapacity : Nat := 8192

def ofPieces (capacity : Nat) (pieces : List Piece) : Buffered :=
  ⟨.ofPieces pieces, [], capacity⟩

/-- One request, without a second try. -/
def attempt (s : Buffered) (n : Nat) : Answer × Buffered :=
  match s.buffer with
  | [] =>
    if s.capacity ≤ n then
      let (answer, reader) := s.reader.fill n
      (answer, { s with reader })
    else
      match s.reader.fill s.capacity with
      | (.bytes bs, reader) => (.bytes (bs.take n), { s with reader, buffer := bs.drop n })
      | (.failed e, reader) => (.failed e, { s with reader })
  | held => (.bytes (held.take n), { s with buffer := held.drop n })

/-- A request with so many second tries. -/
def retrying : Nat → Buffered → Nat → Answer × Buffered
  | 0, s, n => s.attempt n
  | tries + 1, s, n =>
    match s.attempt n with
    | (.failed e, s') => if e.kind = .interrupted then retrying tries s' n else (.failed e, s')
    | (.bytes bs, s') => (.bytes bs, s')

/-- Each interruption uses up a piece of the script, so there are tries enough. -/
def fill (s : Buffered) (n : Nat) : Answer × Buffered :=
  retrying s.reader.pieces.length s n

/-- What comes through of a delivery of the reader: all but an interruption. -/
def passes : Delivery → Bool
  | .failure e => e.kind ≠ .interrupted
  | _ => true

def upcoming (s : Buffered) : List Delivery :=
  s.buffer.map .byte ++ s.reader.upcoming.filter passes

/-! ### What comes out -/

theorem length_attempt_le (s : Buffered) (n : Nat) : (s.attempt n).1.given.length ≤ n := by
  unfold attempt
  split
  · split
    · exact s.reader.length_fill_le n
    · split
      · exact List.length_take_le n _
      · exact Nat.zero_le n
  · exact List.length_take_le n s.buffer

theorem length_retrying_le (tries : Nat) (s : Buffered) (n : Nat) :
    (retrying tries s n).1.given.length ≤ n := by
  induction tries generalizing s with
  | zero => exact s.length_attempt_le n
  | succ tries ih =>
    have h := s.length_attempt_le n
    unfold retrying
    split
    · split
      · exact ih _
      · exact Nat.zero_le n
    · next bs s' hs => simpa [hs] using h

theorem filter_passes_bytes (bs : List UInt8) :
    (bs.map Delivery.byte).filter passes = bs.map .byte :=
  List.filter_eq_self.mpr (by simp [passes])

/-- The answer does not tell of an interruption. -/
def Settled (answer : Answer) : Prop := ∀ e, answer = .failed e → e.kind ≠ .interrupted

theorem settled_bytes (bs : List UInt8) : Settled (.bytes bs) := nofun

/-- An answer of the reader is one step behind the filter too, or an interruption and none. -/
theorem filter_passes_of_serves {before after : List Delivery} {answer : Answer}
    (h : Serves before answer after) :
    Settled answer ∧ Serves (before.filter passes) answer (after.filter passes) ∨
      ¬ Settled answer ∧ before.filter passes = after.filter passes := by
  cases h with
  | bytes hb =>
    refine .inl ⟨settled_bytes _, ?_⟩
    rw [List.filter_append, filter_passes_bytes]
    exact .bytes hb
  | ended => exact .inl ⟨settled_bytes _, .ended⟩
  | drained => exact .inl ⟨settled_bytes _, .drained⟩
  | @failed e rest =>
    by_cases he : e.kind = .interrupted
    · exact .inr ⟨fun h => h e rfl he, by simp [passes, he]⟩
    · refine .inl ⟨?_, by simpa [passes, he] using Serves.failed⟩
      rintro e' ⟨⟩
      exact he

theorem serves_attempt (s : Buffered) (n : Nat) (hn : 0 < n) :
    Settled (s.attempt n).1 ∧ Serves s.upcoming (s.attempt n).1 (s.attempt n).2.upcoming ∨
      ¬ Settled (s.attempt n).1 ∧ s.upcoming = (s.attempt n).2.upcoming := by
  unfold attempt
  split
  · next hb =>
    split
    · simpa [upcoming, hb] using filter_passes_of_serves (s.reader.serves_fill n hn)
    · have h := filter_passes_of_serves (s.reader.serves_fill s.capacity (by omega))
      split
      · next bs reader hr =>
        rw [hr] at h
        rcases h with ⟨_, h⟩ | ⟨h, _⟩
        · exact .inl ⟨settled_bytes _, by simpa [upcoming, hb] using h.split hn⟩
        · exact absurd (settled_bytes bs) h
      · next e reader hr => simpa [upcoming, hb, hr] using h
  · next hb =>
    have hs : Serves s.upcoming (.bytes s.buffer) (s.reader.upcoming.filter passes) :=
      .bytes hb
    exact .inl ⟨settled_bytes _, hs.split hn⟩

/-- A failed try has used up a piece, unless the buffer still held bytes. -/
theorem length_pieces_of_failed {s s' : Buffered} {n : Nat} {e : SourceFailure}
    (h : s.attempt n = (.failed e, s')) :
    s.reader.pieces.length = s'.reader.pieces.length + 1 := by
  unfold attempt at h
  split at h
  · split at h
    · next hc =>
      simp only [Prod.mk.injEq] at h
      obtain ⟨h₁, rfl⟩ := h
      exact Script.length_pieces_of_failed (Prod.ext h₁ rfl)
    · split at h
      · simp at h
      · next hr =>
        simp only [Prod.mk.injEq, Answer.failed.injEq] at h
        obtain ⟨rfl, rfl⟩ := h
        exact Script.length_pieces_of_failed hr
  · simp at h

theorem serves_retrying (tries : Nat) (s : Buffered) (n : Nat) (hn : 0 < n)
    (ht : s.reader.pieces.length ≤ tries) :
    Serves s.upcoming (retrying tries s n).1 (retrying tries s n).2.upcoming := by
  induction tries generalizing s with
  | zero =>
    rcases s.serves_attempt n hn with ⟨_, h⟩ | ⟨h, _⟩
    · exact h
    · refine absurd (fun e he => ?_) h
      have := length_pieces_of_failed (Prod.ext he rfl : s.attempt n = (.failed e, _))
      omega
  | succ tries ih =>
    have h := s.serves_attempt n hn
    unfold retrying
    split
    · next e s' hs =>
      have := length_pieces_of_failed hs
      rw [hs] at h
      split
      · next he =>
        rcases h with ⟨h, _⟩ | ⟨_, hu⟩
        · exact absurd he (h e rfl)
        · rw [hu]; exact ih s' (by omega)
      · next he =>
        rcases h with ⟨_, h⟩ | ⟨h, _⟩
        · exact h
        · refine absurd ?_ h
          rintro e' ⟨⟩
          exact he
    · next bs s' hs =>
      rw [hs] at h
      rcases h with ⟨_, h⟩ | ⟨h, _⟩
      · exact h
      · exact absurd (settled_bytes bs) h

theorem serves_fill (s : Buffered) (n : Nat) (hn : 0 < n) :
    Serves s.upcoming (s.fill n).1 (s.fill n).2.upcoming :=
  serves_retrying _ s n hn (Nat.le_refl _)

instance : FiniteSource Buffered where
  fill := fill
  length_fill_le s n := length_retrying_le _ s n
  upcoming := upcoming
  serves_fill := serves_fill

end Buffered

end StreamPeg
