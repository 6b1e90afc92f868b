import StreamPeg.Proofs.Linear

/-!
# Branches that come and go

`Shifted m id pos m'`: between `m` and `m'` the cursor `id` has come to `pos`, and every other one
is where it was, or not live as before. A read shifts its own cursor forward. What happens on a new
branch, and then to the branch, shifts no cursor when it is released (`Shifted.release`) and the one
that adopts it otherwise (`Shifted.exists_adopt`).
-/

namespace StreamPeg.Manager

variable {σ : Type}

structure Shifted (m : Manager σ) (id : CursorId) (pos : Nat) (m' : Manager σ) : Prop where
  valid : m'.Valid
  offset_self : m'.cursors.offset? id = some pos
  offset_of_ne : ∀ i, i ≠ id → m'.cursors.offset? i = m.cursors.offset? i

variable {m m' m'' : Manager σ} {id : CursorId} {pos pos' : Nat}

namespace Shifted

theorem refl (h : m.Valid) (ho : m.cursors.offset? id = some pos) : Shifted m id pos m where
  valid := h
  offset_self := ho
  offset_of_ne _ _ := rfl

theorem trans (h : Shifted m id pos m') (h' : Shifted m' id pos' m'') : Shifted m id pos' m'' where
  valid := h'.valid
  offset_self := h'.offset_self
  offset_of_ne i hi := (h'.offset_of_ne i hi).trans (h.offset_of_ne i hi)

theorem note (h : Shifted m id pos m') {event : Event} (he : event.call? = none) :
    Shifted m id pos (m'.note event) where
  valid := h.valid.note event he
  offset_self := h.offset_self
  offset_of_ne := h.offset_of_ne

end Shifted

/-! ### Cursors that are live, and others -/

theorem offset_eq_ok_iff : m.offset id = .ok pos ↔ m.cursors.offset? id = some pos := by
  unfold offset
  split
  · next o ho => simp [ho]
  · next ho => simp [ho]

theorem offset_of_dead (ho : m.cursors.offset? id = none) :
    m.offset id = .error (.unknownCursor id) := by
  simp [offset, ho]

theorem branch_of_dead (ho : m.cursors.offset? id = none) :
    m.branch id = (.error (.unknownCursor id), m) := by
  simp [branch, ho]

/-! ### The number of a new branch -/

theorem Sound.offset_nextId (h : m.Sound) : m.cursors.offset? m.nextId = none := by
  cases ho : m.cursors.offset? m.nextId with
  | none => rfl
  | some o => exact absurd (h.lt_nextId ho) (Nat.lt_irrefl _)

theorem Sound.ne_nextId (h : m.Sound) (ho : m.cursors.offset? id = some pos) : id ≠ m.nextId :=
  Nat.ne_of_lt (h.lt_nextId ho)

theorem exists_branch (h : m.Valid) (ho : m.cursors.offset? id = some pos) :
    ∃ m', m.branch id = (.ok m.nextId, m') ∧ m.Shifted m.nextId pos m' := by
  have hv := valid_branch h id
  simp only [branch, ho] at hv ⊢
  refine ⟨_, rfl, hv, ?_, fun i hi => ?_⟩
  · rw [CursorTable.offset?_put, if_pos rfl]
  · rw [CursorTable.offset?_put, if_neg hi]

/-! ### Giving a branch up, and taking it over -/

theorem offset?_release (m : Manager σ) (id i : CursorId) :
    (m.release id).cursors.offset? i = if i = id then none else m.cursors.offset? i := by
  unfold release
  split
  · next ho =>
    split
    · next hi => rw [hi, ho]
    · rfl
  · rw [shrink_cursors, CursorTable.offset?_erase]

theorem release_of_dead (ho : m.cursors.offset? id = none) : m.release id = m := by
  simp [release, ho]

theorem Shifted.release (h : m.Valid) (ho : m.cursors.offset? id = some pos)
    (hs : m.Shifted m.nextId pos' m') : m.Shifted id pos (m'.release m.nextId) := by
  have hc : ∀ i, (m'.release m.nextId).cursors.offset? i = m.cursors.offset? i := by
    intro i
    rw [offset?_release]
    split
    · next hi => rw [hi, h.offset_nextId]
    · next hi => exact hs.offset_of_ne i hi
  exact ⟨valid_release hs.valid _, (hc id).trans ho, fun i _ => hc i⟩

/-- The commit has removed the branch, so there is nothing left to release. -/
theorem Shifted.exists_adopt (h : m.Valid) (ho : m.cursors.offset? id = some pos)
    (hs : m.Shifted m.nextId pos' m') :
    ∃ m'', m'.adopt id m.nextId = (.ok (), m'') ∧ m.Shifted id pos' m'' := by
  have hne := h.ne_nextId ho
  have ho' : m'.cursors.offset? id = some pos := (hs.offset_of_ne id hne).trans ho
  have hok : (m'.commit id m.nextId).1 = .ok () := by
    simp [commit, ho', hs.offset_self]
  have hc : ∀ i, (m'.commit id m.nextId).2.cursors.offset? i =
      if i = id then some pos' else m.cursors.offset? i := by
    intro i
    simp only [commit, ho', hs.offset_self, shrink_cursors, CursorTable.offset?_put,
      CursorTable.offset?_erase]
    split
    · rfl
    · split
      · next hi => rw [hi, h.offset_nextId]
      · next hi => exact hs.offset_of_ne i hi
  have hr : (m'.commit id m.nextId).2.release m.nextId = (m'.commit id m.nextId).2 := by
    apply release_of_dead
    rw [hc, if_neg (Ne.symm hne), h.offset_nextId]
  refine ⟨(m'.commit id m.nextId).2, ?_, valid_commit hs.valid _ _, (hc id).trans (if_pos rfl),
    fun i hi => (hc i).trans (if_neg hi)⟩
  show ((m'.commit id m.nextId).1, (m'.commit id m.nextId).2.release m.nextId) = _
  rw [hok, hr]

/-! ### Reads -/

theorem Given.shifted {count : Nat} {chunk : Chunk} (h : Given m id pos count chunk m') :
    m.Shifted id (pos + chunk.bytes.length) m' where
  valid := h.valid
  offset_self := by rw [h.offsets, if_pos rfl]
  offset_of_ne i hi := by rw [h.offsets, if_neg hi]

section

variable [ByteSource σ] {count : Nat}

/-- A read that fails moves nothing. -/
theorem shifted_of_failed_read (h : m.Valid) (ho : m.cursors.offset? id = some pos)
    {e : StreamError} (hr : m.read id count = (.error e, m')) :
    m.Shifted id pos m' ∧ ∃ failure, e = .source failure := by
  obtain ⟨cs, out, m₁, _, hp, ⟨failure, _, _, hr'⟩ | ⟨_, hr'⟩⟩ := exists_read h ho count
  · rw [hr] at hr'
    cases hr'
    refine ⟨⟨hp.valid (h.note _ rfl), ?_, fun i _ => ?_⟩, failure, rfl⟩
    · rw [hp.cursors]
      exact ho
    · rw [hp.cursors]
      rfl
  · rw [hr] at hr'
    cases hr'

theorem shifted_of_read (h : m.Valid) (ho : m.cursors.offset? id = some pos)
    {result : Except StreamError Chunk} (hr : m.read id count = (result, m')) :
    (∃ pos', pos ≤ pos' ∧ m.Shifted id pos' m') ∧ ∀ i, result ≠ .error (.unknownCursor i) := by
  cases result with
  | error e =>
    obtain ⟨hs, failure, rfl⟩ := shifted_of_failed_read h ho hr
    exact ⟨⟨pos, Nat.le_refl pos, hs⟩, nofun⟩
  | ok chunk =>
    exact ⟨⟨_, Nat.le_add_right pos _, (given_of_read h ho hr).shifted⟩, nofun⟩

end

end StreamPeg.Manager
