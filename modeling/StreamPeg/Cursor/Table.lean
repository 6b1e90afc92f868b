/-!
# The table of live cursors

A cursor is named by a number that its manager never gives out twice. The table holds the offset of
each live cursor, oldest first, and no cursor twice. `offset?_put` and `offset?_erase` say what its
two updates do; `floor?` is the least offset, which bounds what the window has to keep
(`floor?_eq_some_iff`).
-/

namespace StreamPeg

abbrev CursorId := Nat

namespace CursorId

/-- The cursor every stream starts with. -/
def root : CursorId := 0

def text (id : CursorId) : String := "#" ++ toString id

end CursorId

/-- The entries with the cursor's offset changed, or the cursor added at the end. -/
def placeOffset (id : CursorId) (offset : Nat) : List (CursorId × Nat) → List (CursorId × Nat)
  | [] => [(id, offset)]
  | e :: es => if e.1 = id then (id, offset) :: es else e :: placeOffset id offset es

theorem mem_keys_placeOffset {id i : CursorId} {offset : Nat} {es : List (CursorId × Nat)} :
    i ∈ (placeOffset id offset es).map (·.1) ↔ i = id ∨ i ∈ es.map (·.1) := by
  induction es with
  | nil => simp [placeOffset]
  | cons e es ih =>
    unfold placeOffset
    split
    · next h => simp [h]
    · next h =>
      rw [List.map_cons, List.mem_cons, ih, List.map_cons, List.mem_cons]
      exact or_left_comm

theorem nodup_keys_placeOffset {id : CursorId} {offset : Nat} {es : List (CursorId × Nat)}
    (h : (es.map (·.1)).Nodup) : ((placeOffset id offset es).map (·.1)).Nodup := by
  induction es with
  | nil => simp [placeOffset]
  | cons e es ih =>
    rw [List.map_cons, List.nodup_cons] at h
    unfold placeOffset
    split
    · next he => rw [List.map_cons, List.nodup_cons]; exact he ▸ h
    · next he =>
      rw [List.map_cons, List.nodup_cons, mem_keys_placeOffset]
      exact ⟨fun hm => hm.elim he h.1, ih h.2⟩

structure CursorTable where
  entries : List (CursorId × Nat)
  nodup : (entries.map (·.1)).Nodup
  deriving DecidableEq, Repr

namespace CursorTable

@[ext] theorem ext {s t : CursorTable} (h : s.entries = t.entries) : s = t := by
  cases s; cases t; cases h; rfl

def empty : CursorTable := ⟨[], List.nodup_nil⟩

def offset? (t : CursorTable) (id : CursorId) : Option Nat := t.entries.lookup id

def put (t : CursorTable) (id : CursorId) (offset : Nat) : CursorTable :=
  ⟨placeOffset id offset t.entries, nodup_keys_placeOffset t.nodup⟩

def erase (t : CursorTable) (id : CursorId) : CursorTable :=
  ⟨t.entries.filter (·.1 ≠ id), (List.filter_sublist.map _).nodup t.nodup⟩

def size (t : CursorTable) : Nat := t.entries.length

/-- The offset of the slowest live cursor. -/
def floor? (t : CursorTable) : Option Nat := (t.entries.map (·.2)).min?

/-! ### The offsets behind an update -/

@[simp] theorem offset?_empty (i : CursorId) : empty.offset? i = none := rfl

theorem lookup_entry_cons (i : CursorId) (e : CursorId × Nat) (es : List (CursorId × Nat)) :
    (e :: es).lookup i = if i = e.1 then some e.2 else es.lookup i := by
  obtain ⟨id, offset⟩ := e
  by_cases h : i = id
  · simp [h]
  · simp [List.lookup_cons, beq_false_of_ne h, h]

theorem offset?_put (t : CursorTable) (id i : CursorId) (offset : Nat) :
    (t.put id offset).offset? i = if i = id then some offset else t.offset? i := by
  obtain ⟨es, h⟩ := t
  change (placeOffset id offset es).lookup i = if i = id then some offset else es.lookup i
  clear h
  induction es with
  | nil => rw [placeOffset, lookup_entry_cons]
  | cons e es ih =>
    unfold placeOffset
    split
    · next he => rw [lookup_entry_cons, lookup_entry_cons]; grind
    · next he => rw [lookup_entry_cons, lookup_entry_cons, ih]; grind

theorem offset?_erase (t : CursorTable) (id i : CursorId) :
    (t.erase id).offset? i = if i = id then none else t.offset? i := by
  obtain ⟨es, h⟩ := t
  change (es.filter (·.1 ≠ id)).lookup i = if i = id then none else es.lookup i
  clear h
  induction es with
  | nil => simp
  | cons e es ih =>
    rw [List.filter_cons]
    split
    · next he => rw [lookup_entry_cons, lookup_entry_cons, ih]; grind
    · next he => rw [lookup_entry_cons, ih]; grind

/-! ### The slowest cursor -/

theorem mem_entries_iff (t : CursorTable) (i : CursorId) (offset : Nat) :
    (i, offset) ∈ t.entries ↔ t.offset? i = some offset := by
  obtain ⟨es, h⟩ := t
  change (i, offset) ∈ es ↔ es.lookup i = some offset
  induction es with
  | nil => simp
  | cons e es ih =>
    rw [List.map_cons, List.nodup_cons] at h
    rw [List.mem_cons, lookup_entry_cons]
    split
    · next he =>
      have hi : (i, offset) ∉ es := fun hm => h.1 (he ▸ List.mem_map_of_mem (f := (·.1)) hm)
      subst he
      obtain ⟨id, o⟩ := e
      simp [hi, eq_comm]
    · next he =>
      have hne : (i, offset) ≠ e := fun h => he (h ▸ rfl)
      simp [hne, ih h.2]

theorem floor?_eq_some_iff (t : CursorTable) (n : Nat) :
    t.floor? = some n ↔
      (∃ i, t.offset? i = some n) ∧ ∀ i offset, t.offset? i = some offset → n ≤ offset := by
  simp only [floor?, List.min?_eq_some_iff, List.mem_map, Prod.exists, exists_eq_right,
    ← mem_entries_iff]
  grind

theorem size_eq_zero_iff (t : CursorTable) : t.size = 0 ↔ ∀ i, t.offset? i = none := by
  obtain ⟨es, h⟩ := t
  cases es with
  | nil => simp [size, offset?]
  | cons e es =>
    refine iff_of_false (by simp [size]) fun hn => ?_
    have h0 := hn e.1
    rw [offset?, lookup_entry_cons, if_pos rfl] at h0
    cases h0

theorem size_ne_zero {t : CursorTable} {i : CursorId} {offset : Nat}
    (h : t.offset? i = some offset) : t.size ≠ 0 := by
  intro hn
  rw [(size_eq_zero_iff t).mp hn i] at h
  cases h

theorem floor?_eq_none_iff (t : CursorTable) : t.floor? = none ↔ ∀ i, t.offset? i = none := by
  rw [← size_eq_zero_iff, floor?, List.min?_eq_none_iff, List.map_eq_nil_iff, size,
    List.length_eq_zero_iff]

end CursorTable

end StreamPeg
