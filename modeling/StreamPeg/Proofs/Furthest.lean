import StreamPeg.Proofs.Demand

/-!
# How far the source is read

`furthest` is the greatest offset that any cursor has had in a run, whether or not it is still live
or still there. What has come from the source ends at this offset or behind it, by no more than is
read ahead (`furthest_run`): a read that asks the source takes all that has come, but for the bytes
read ahead, and nothing else asks it.
-/

namespace StreamPeg

namespace CursorTable

/-- The offset of the fastest live cursor, and 0 without any. -/
def ceiling (t : CursorTable) : Nat := (t.entries.map (·.2)).max?.getD 0

theorem le_ceiling {t : CursorTable} {i : CursorId} {o : Nat} (h : t.offset? i = some o) :
    o ≤ t.ceiling := by
  have hm : o ∈ t.entries.map (·.2) :=
    List.mem_map.mpr ⟨(i, o), (t.mem_entries_iff i o).mpr h, rfl⟩
  exact List.le_max?_getD_of_mem hm

theorem exists_offset_ceiling (t : CursorTable) :
    t.ceiling = 0 ∨ ∃ i, t.offset? i = some t.ceiling := by
  unfold ceiling
  cases hm : (t.entries.map (·.2)).max? with
  | none => exact .inl rfl
  | some n =>
    obtain ⟨⟨i, o⟩, hmem, rfl⟩ := List.mem_map.mp (List.max?_mem hm)
    exact .inr ⟨i, (t.mem_entries_iff i o).mp hmem⟩

end CursorTable

namespace Manager

variable {σ : Type} [ByteSource σ] {m : Manager σ}

/-- The greatest offset that any cursor has before these steps, between them or after them. -/
def furthest (m : Manager σ) : List Step → Nat
  | [] => m.cursors.ceiling
  | s :: steps => max m.cursors.ceiling ((m.step s).furthest steps)

theorem ceiling_le_furthest (m : Manager σ) (steps : List Step) :
    m.cursors.ceiling ≤ m.furthest steps := by
  cases steps with
  | nil => exact Nat.le_refl _
  | cons s steps => exact Nat.le_max_left _ _

theorem le_furthest (m : Manager σ) (before after : List Step) :
    (m.run before).cursors.ceiling ≤ m.furthest (before ++ after) := by
  induction before generalizing m with
  | nil => exact m.ceiling_le_furthest after
  | cons s before ih => exact Nat.le_trans (ih (m.step s)) (Nat.le_max_right _ _)

theorem exists_furthest (m : Manager σ) (steps : List Step) :
    ∃ before after, steps = before ++ after ∧
      m.furthest steps = (m.run before).cursors.ceiling := by
  induction steps generalizing m with
  | nil => exact ⟨[], [], rfl, rfl⟩
  | cons s steps ih =>
    obtain ⟨before, after, hs, hf⟩ := ih (m.step s)
    rcases Nat.le_total ((m.step s).furthest steps) m.cursors.ceiling with hle | hle
    · exact ⟨[], s :: steps, rfl, Nat.max_eq_left hle⟩
    · exact ⟨s :: before, after, congrArg _ hs, (Nat.max_eq_right hle).trans hf⟩

/-! ### One step -/

/-- A read that brings anything in has its cursor come to the end of it, but for the bytes read
ahead. -/
theorem received_of_read (h : m.Valid) {id : CursorId} {o : Nat}
    (ho : m.cursors.offset? id = some o) (count : Nat) :
    received (m.read id count).2.journal = received m.journal ∨
      ∃ o', (m.read id count).2.cursors.offset? id = some o' ∧
        (received (m.read id count).2.journal).length ≤ o' + m.readAhead := by
  obtain ⟨cs, hcs, hcause, hlen, _⟩ := exists_asked_of_read h ho count
  by_cases hnil : cs = []
  · left
    rw [hcs.received_eq, hnil, given_nil, List.append_nil]
  right
  have hlack := (hcause hnil).1
  have hrec := congrArg List.length hcs.received_eq
  rw [List.length_append] at hrec
  obtain ⟨_, out, m', _, hp, hr⟩ := exists_read h ho count
  have hn := h.note (.requested id count) rfl
  obtain ⟨hfull, hshort⟩ := hp.length_buffered hn (h.le_offset ho) (h.offset_le ho)
  rcases hr with ⟨e, rfl, hempty, hr⟩ | ⟨_, hr⟩
  · have hend := (hshort (by simp)).2
    rw [hempty, List.length_nil] at hend
    rw [hr]
    refine ⟨o, hp.cursors ▸ ho, ?_⟩
    show (received m'.journal).length ≤ o + m.readAhead
    omega
  · have hjournal : received (m.read id count).2.journal = received m'.journal := by
      rw [hr, advance, received_shrink, received_cons rfl, received,
        (defer_fields m' _ out).2.2.2.2.2.2, received]
    have hoffset : (m.read id count).2.cursors.offset? id =
        some (o + (m'.buffered o count).length) := by
      rw [hr, advance, shrink_cursors, CursorTable.offset?_put, if_pos rfl]
    refine ⟨_, hoffset, ?_⟩
    rw [h.base_add_size] at hlack hlen
    by_cases hout : out = .satisfied
    · have := hfull hout
      omega
    · have := (hshort hout).2
      rw [hjournal]
      omega

/-- What has come reaches to the greatest offset so far, and beyond it only as far as is read
ahead. -/
structure Within (m : Manager σ) (peak : Nat) : Prop where
  valid : m.Valid
  le : peak ≤ (received m.journal).length
  ge : (received m.journal).length ≤ peak + m.readAhead

omit [ByteSource σ] in
theorem Sound.ceiling_le (h : m.Sound) : m.cursors.ceiling ≤ (received m.journal).length := by
  rcases m.cursors.exists_offset_ceiling with hz | ⟨i, hi⟩
  · rw [hz]
    exact Nat.zero_le _
  · exact h.offset_le hi

theorem within_step {peak : Nat} (h : m.Within peak) (s : Step) :
    (m.step s).Within (max peak (m.step s).cursors.ceiling) := by
  have hv := valid_step h.valid s
  obtain ⟨cs, hcs, hcause, _⟩ := exists_asked_of_step h.valid s
  have hle := h.le
  have hge := h.ge
  have hrec := congrArg List.length hcs.received_eq
  rw [List.length_append] at hrec
  refine ⟨hv, Nat.max_le.mpr ⟨by omega, hv.ceiling_le⟩, ?_⟩
  rw [hcs.readAhead]
  by_cases hnil : cs = []
  · rw [hnil, given_nil, List.length_nil] at hrec
    omega
  · obtain ⟨id, count, o, rfl, ho, _⟩ := hcause hnil
    rcases received_of_read h.valid ho count with hr | ⟨o', ho', hr⟩
    · rw [step, hr]
      omega
    · have hc := CursorTable.le_ceiling ho'
      rw [step]
      omega

theorem within_run {peak : Nat} (h : m.Within peak) (hc : m.cursors.ceiling ≤ peak)
    (steps : List Step) : (m.run steps).Within (max peak (m.furthest steps)) := by
  induction steps generalizing m peak with
  | nil => rwa [furthest, Nat.max_eq_left hc]
  | cons s steps ih =>
    have hs := ih (within_step h s) (Nat.le_max_right _ _)
    have hf := (m.step s).ceiling_le_furthest steps
    rwa [Nat.max_assoc, Nat.max_eq_right hf, ← Nat.max_eq_left hc, Nat.max_assoc] at hs

/-- What has come in any run, and what of it is kept.

The furthest place is that of a cursor at some point of the run, and no cursor has ever been beyond
it. All that has come ends there, but for what is read ahead. Without reading ahead it is the bytes
up to there and no others, and the window has those from the slowest live cursor on. -/
theorem furthest_run (options : StreamOptions) (source : σ) (steps : List Step) :
    let start := ofSource options source
    let m := start.run steps
    let furthest := start.furthest steps
    (∀ before after i o, steps = before ++ after →
        (start.run before).cursors.offset? i = some o → o ≤ furthest) ∧
      (∃ before after i, steps = before ++ after ∧
        (start.run before).cursors.offset? i = some furthest) ∧
      m.base + m.window.size = (received m.journal).length ∧
      furthest ≤ m.base + m.window.size ∧
      m.base + m.window.size ≤ furthest + options.readAhead ∧
      (options.readAhead = 0 → (received m.journal).length = furthest ∧
        ∀ slowest, m.cursors.floor? = some slowest →
          m.window.toList = ((received m.journal).take furthest).drop slowest) := by
  intro start m furthest
  have hstart : start.Valid := valid_ofSource options source
  have h : m.Valid := valid_run hstart steps
  have hsize := h.base_add_size
  have hw : m.Within furthest := by
    have hrun := within_run (⟨hstart, Nat.le_refl _, Nat.zero_le _⟩ : start.Within 0)
      (Nat.le_refl _)
      steps
    rwa [Nat.zero_max] at hrun
  obtain ⟨cs, hcs⟩ := exists_asked_of_run hstart steps
  have hahead : m.readAhead = options.readAhead := hcs.readAhead
  have hle := hw.le
  have hge := hw.ge
  rw [hahead] at hge
  refine ⟨?_, ?_, hsize, by omega, by omega, fun hzero => ?_⟩
  · rintro before after i o rfl ho
    exact Nat.le_trans (CursorTable.le_ceiling ho) (start.le_furthest before after)
  · obtain ⟨before, after, hs, hf⟩ := start.exists_furthest steps
    rcases (start.run before).cursors.exists_offset_ceiling with hz | ⟨i, hi⟩
    · -- With nothing behind the start, that is where the first cursor has been.
      refine ⟨[], steps, .root, rfl, ?_⟩
      show some 0 = some (start.furthest steps)
      rw [hf, hz]
    · refine ⟨before, after, i, hs, ?_⟩
      show _ = some (start.furthest steps)
      rw [hf]
      exact hi
  · have hall : (received m.journal).length = furthest := by omega
    refine ⟨hall, fun slowest hs => ?_⟩
    rw [h.tight hs, ← hall, List.take_length]
    exact h.window

end Manager

end StreamPeg
