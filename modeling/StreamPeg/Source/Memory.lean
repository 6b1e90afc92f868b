import StreamPeg.Source.Basic

/-!
# Sources in memory

A memory source holds its bytes and hands out as many as are asked for. It never fails, and once it
is empty every request finds the end.
-/

namespace StreamPeg

structure Memory where
  rest : List UInt8
  deriving DecidableEq, Repr

namespace Memory

def ofString (s : String) : Memory := ⟨s.toUTF8.toList⟩

def remaining (s : Memory) : Nat := s.rest.length

def fill (s : Memory) (n : Nat) : Answer × Memory :=
  (.bytes (s.rest.take n), ⟨s.rest.drop n⟩)

def upcoming (s : Memory) : List Delivery := s.rest.map .byte

theorem serves_fill (s : Memory) (n : Nat) (hn : 0 < n) :
    Serves s.upcoming (s.fill n).1 (s.fill n).2.upcoming := by
  rcases s with ⟨_ | ⟨b, bs⟩⟩
  · simpa [upcoming, fill] using Serves.drained
  · obtain ⟨n, rfl⟩ : ∃ k, n = k + 1 := ⟨n - 1, by omega⟩
    have h := @Serves.bytes (b :: bs.take n) (((b :: bs).drop (n + 1)).map .byte)
      (List.cons_ne_nil b (bs.take n))
    rw [← List.take_succ_cons, ← List.map_append, List.take_append_drop] at h
    exact h

instance : FiniteSource Memory where
  fill := fill
  length_fill_le s n := List.length_take_le n s.rest
  upcoming := upcoming
  serves_fill := serves_fill

end Memory

end StreamPeg
