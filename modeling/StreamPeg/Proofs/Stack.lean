import StreamPeg.Proofs.Frame

/-!
# The stack of a parse

Each read of a parse is made on the top of a stack: below it are the branches of the attempts under
way, one for each, and the cursor that the parse was begun with. Nothing else has come to be live,
and no cursor of the stack is ahead of the next one (`Plan.stacked_readings`), so it is the lowest
of them that bounds the window (`readings_stacked`).
-/

namespace StreamPeg

variable {σ : Type}

/-! ### Stacks -/

/-- These cursors are live, the first of them not before `low`, and none before the one in front of
it. -/
def CursorTable.Climbs (t : CursorTable) : (low : Nat) → List CursorId → Prop
  | _, [] => True
  | low, i :: is => ∃ o, t.offset? i = some o ∧ low ≤ o ∧ t.Climbs o is

namespace CursorTable.Climbs

variable {t : CursorTable} {low : Nat} {is : List CursorId}

theorem exists_offset (h : t.Climbs low is) {i : CursorId} (hi : i ∈ is) :
    ∃ o, t.offset? i = some o ∧ low ≤ o := by
  induction is generalizing low with
  | nil => cases hi
  | cons j is ih =>
    obtain ⟨o, ho, hle, hrest⟩ := h
    rcases List.mem_cons.mp hi with rfl | hi
    · exact ⟨o, ho, hle⟩
    · obtain ⟨o', ho', hle'⟩ := ih hrest hi
      exact ⟨o', ho', Nat.le_trans hle hle'⟩

theorem of_le {low' : Nat} (h : t.Climbs low is) (hle : low' ≤ low) : t.Climbs low' is := by
  cases is with
  | nil => exact h
  | cons i is =>
    obtain ⟨o, ho, hlo, hrest⟩ := h
    exact ⟨o, ho, Nat.le_trans hle hlo, hrest⟩

end CursorTable.Climbs

/-- A read on the top of the stack whose lowest cursor is `id`, and what it finds changed since `m`,
when that cursor stood at `pos`. -/
structure Stacked (m : Manager σ) (id : CursorId) (pos : Nat) (x : Reading σ) : Prop where
  valid : x.before.Valid
  climbs : x.before.cursors.Climbs pos (id :: x.active)
  top : (id :: x.active).getLast? = some x.id
  fresh : ∀ i ∈ x.active, m.cursors.offset? i = none
  nodup : x.active.Nodup
  others : ∀ i, i ≠ id → i ∉ x.active → x.before.cursors.offset? i = m.cursors.offset? i

namespace Stacked

variable {m m' : Manager σ} {id : CursorId} {pos pos' : Nat} {x : Reading σ}

/-- A live cursor is none of the branches that are made from then on. -/
theorem not_mem (h : Stacked m id pos x) {i : CursorId} {o : Nat}
    (ho : m.cursors.offset? i = some o) : i ∉ x.active := by
  intro hi
  rw [h.fresh i hi] at ho
  cases ho

theorem refl (h : m.Valid) (ho : m.cursors.offset? id = some pos) (count : Nat) :
    Stacked m id pos ⟨[], id, count, m⟩ where
  valid := h
  climbs := ⟨pos, ho, Nat.le_refl pos, trivial⟩
  top := rfl
  fresh := nofun
  nodup := List.nodup_nil
  others _ _ _ := rfl

theorem after (hs : m.Shifted id pos' m') (hle : pos ≤ pos') (ho : m.cursors.offset? id = some pos)
    (h : Stacked m' id pos' x) : Stacked m id pos x where
  valid := h.valid
  climbs := h.climbs.of_le hle
  top := h.top
  fresh i hi := by
    have hne : i ≠ id := by
      rintro rfl
      exact h.not_mem hs.offset_self hi
    rw [← hs.offset_of_ne i hne]
    exact h.fresh i hi
  nodup := h.nodup
  others i hne hi := (h.others i hne hi).trans (hs.offset_of_ne i hne)

/-- On the stack of an attempt the cursor that it was made on comes below its branch. -/
theorem under (hm : m.Valid) (ho : m.cursors.offset? id = some pos)
    (hs : m.Shifted m.nextId pos m') (h : Stacked m' m.nextId pos x) :
    Stacked m id pos (x.under m.nextId) where
  valid := h.valid
  climbs := by
    have hne := hm.ne_nextId ho
    have ho' : m'.cursors.offset? id = some pos := (hs.offset_of_ne id hne).trans ho
    exact ⟨pos, (h.others id hne (h.not_mem ho')).trans ho', Nat.le_refl pos, h.climbs⟩
  top := h.top
  fresh i hi := by
    rcases List.mem_cons.mp hi with rfl | hi
    · exact hm.offset_nextId
    · have hne : i ≠ m.nextId := by
        rintro rfl
        exact h.not_mem hs.offset_self hi
      rw [← hs.offset_of_ne i hne]
      exact h.fresh i hi
  nodup := List.nodup_cons.mpr ⟨h.not_mem hs.offset_self, h.nodup⟩
  others i hne hi := by
    have hne' : i ≠ m.nextId := fun he => hi (he ▸ List.mem_cons_self)
    have hi' : i ∉ x.active := fun hmem => hi (List.mem_cons_of_mem _ hmem)
    exact (h.others i hne' hi').trans (hs.offset_of_ne i hne')

/-- If nothing but `id` was live, nothing but the stack is. -/
theorem isSome_iff (h : Stacked m id pos x)
    (honly : ∀ i, (m.cursors.offset? i).isSome ↔ i = id) (i : CursorId) :
    (x.before.cursors.offset? i).isSome ↔ i ∈ id :: x.active := by
  refine ⟨fun hi => ?_, fun hi => ?_⟩
  · by_cases hne : i = id
    · exact hne ▸ List.mem_cons_self
    · by_cases hmem : i ∈ x.active
      · exact List.mem_cons_of_mem id hmem
      · rw [h.others i hne hmem] at hi
        exact absurd ((honly i).mp hi) hne
  · obtain ⟨o, ho, _⟩ := h.climbs.exists_offset hi
    rw [ho]
    rfl

/-- The window starts at the lowest cursor of a stack beside which nothing is live. -/
theorem offset_eq_base (h : Stacked m id pos x)
    (honly : ∀ i, (m.cursors.offset? i).isSome ↔ i = id) :
    x.before.cursors.offset? id = some x.before.base := by
  obtain ⟨o, ho, _, hrest⟩ := h.climbs
  have hleast : ∀ i o', x.before.cursors.offset? i = some o' → o ≤ o' := by
    intro i o' hi
    have hmem := (h.isSome_iff honly i).mp (Option.isSome_of_eq_some hi)
    have hclimb : x.before.cursors.Climbs o (id :: x.active) := ⟨o, ho, Nat.le_refl o, hrest⟩
    obtain ⟨o'', ho'', hle⟩ := hclimb.exists_offset hmem
    rw [hi] at ho''
    cases ho''
    exact hle
  have hfloor := (CursorTable.floor?_eq_some_iff _ o).mpr ⟨⟨id, ho⟩, hleast⟩
  rw [ho, h.valid.tight hfloor]

end Stacked

/-! ### The stack of a plan -/

namespace Plan

variable [ByteSource σ]

/-- Every read of a plan is made on the top of its stack. -/
theorem stacked_readings (p : Plan) {m : Manager σ} {id : CursorId} {pos : Nat} (h : m.Valid)
    (ho : m.cursors.offset? id = some pos) : ∀ x ∈ p.readings id m, Stacked m id pos x := by
  induction p generalizing m id pos with
  | done result => simp [readings]
  | read count next ih =>
    intro x hx
    rcases List.mem_cons.mp hx with rfl | hx
    · exact .refl h ho count
    · obtain ⟨pos', hle, hs⟩ := (Manager.shifted_of_read h ho (rfl : m.read id count = _)).1
      exact (ih _ hs.valid hs.offset_self x hx).after hs hle ho
  | offset next ih => exact ih _ h ho
  | attempt tried next ih ih' =>
    intro x hx
    rcases List.mem_append.mp hx with hx | hx
    · obtain ⟨m₁, hb, hs⟩ := Manager.exists_branch h ho
      simp only [hb] at hx
      obtain ⟨y, hy, rfl⟩ := List.mem_map.mp hx
      exact (ih hs.valid hs.offset_self y hy).under h ho hs
    · obtain ⟨pos', hle, hs⟩ := Parser.shifts_attempt tried.shifts_run h ho
      exact (ih' _ hs.valid hs.offset_self x hx).after hs hle ho
  | stall rule part next ih =>
    intro x hx
    have hs : m.Shifted id pos (m.note (.stalled rule part)) := (Manager.Shifted.refl h ho).note rfl
    exact (ih hs.valid hs.offset_self x hx).after hs (Nat.le_refl pos) ho

end Plan

namespace RuleGraph

variable [ByteSource σ]

/-- The stack at every read of a parse, begun in any state that a run can lead to in which the
cursor of the parse is the only live one. The readings are all the reads that the parse makes, each
in the state that it is made in. The live cursors are then the cursor of the parse and one branch
for each attempt under way, be it an alternative of a choice or an optional match of a repetition.
In this order none of them is ahead of the next, the last one is read, and the window starts at the
first. -/
theorem readings_stacked (options : StreamOptions) (source : σ) (steps : List Step) (g : RuleGraph)
    (depth : Nat) (r : RuleId) (id : CursorId) :
    let m := (Manager.ofSource options source).run steps
    (∀ i, (m.cursors.offset? i).isSome ↔ i = id) →
    Course m (g.readings depth r id m) (g.parser depth r id m).2 ∧
      ∀ x ∈ g.readings depth r id m,
        (∀ i, (x.before.cursors.offset? i).isSome ↔ i ∈ id :: x.active) ∧
        (id :: x.active).Nodup ∧
        (id :: x.active).getLast? = some x.id ∧
        x.before.cursors.Climbs x.before.base (id :: x.active) ∧
        x.before.cursors.offset? id = some x.before.base := by
  intro m honly
  have hm : m.Valid := Manager.valid_run (Manager.valid_ofSource options source) steps
  obtain ⟨pos, ho⟩ := Option.isSome_iff_exists.mp ((honly id).mpr rfl)
  refine ⟨?_, fun x hx => ?_⟩
  · rw [← g.run_plan]
    exact (g.plan depth r).course_run id m
  have hs : Stacked m id pos x := (g.plan depth r).stacked_readings hm ho x hx
  have hbase := hs.offset_eq_base honly
  refine ⟨hs.isSome_iff honly, List.nodup_cons.mpr ⟨hs.not_mem ho, hs.nodup⟩, hs.top, ?_, hbase⟩
  obtain ⟨o, hx, _, hrest⟩ := hs.climbs
  rw [hbase] at hx
  cases hx
  exact ⟨_, hbase, Nat.le_refl _, hrest⟩

/-- A parse by a cursor that is not the first. The branch 3, on which a group was tried, is gone
when 4 is made, and so is 4 before the closing parenthesis is read. -/
theorem readings_stacked_nested :
    let source := Script.ofPieces [.chunk [40, 40, 120], .chunk [41]]
    let m := (Manager.ofSource {} source).run [.branch 0, .read 1 1, .release 0]
    (∀ i, (m.cursors.offset? i).isSome ↔ i = 1) ∧
      (nested.readings 20 0 1 m).map (·.active) = [[2], [2, 3], [2, 4], [2]] ∧
      ∀ x ∈ nested.readings 20 0 1 m,
        (∀ i, (x.before.cursors.offset? i).isSome ↔ i ∈ 1 :: x.active) ∧
        x.before.cursors.offset? 1 = some x.before.base := by
  intro source m
  have honly : ∀ i, (m.cursors.offset? i).isSome ↔ i = 1 := by
    have htable : m.cursors = CursorTable.empty.put 1 1 := by decide
    intro i
    rw [htable, CursorTable.offset?_put, CursorTable.offset?_empty]
    split <;> simp_all
  obtain ⟨_, hstack⟩ :=
    readings_stacked {} source [.branch 0, .read 1 1, .release 0] nested 20 0 1 honly
  refine ⟨honly, by decide +kernel, fun x hx => ?_⟩
  obtain ⟨hlive, _, _, _, hbase⟩ := hstack x hx
  exact ⟨hlive, hbase⟩

end RuleGraph

end StreamPeg
