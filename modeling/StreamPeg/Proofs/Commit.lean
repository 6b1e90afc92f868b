import StreamPeg.Proofs.Reached
import StreamPeg.Source.Memory

/-!
# What a commit does

A commit takes its branch out of the table of live cursors and then enters the target where the
branch stood. Of two cursors one is left (`size_commit`), and it may have gone back; the window then
starts at the slowest cursor that remains (`commit_exact`). The order of the two updates tells if
both are the same cursor: it is entered again, and nothing has changed (`commit_self_stays`).
-/

namespace StreamPeg

namespace CursorTable

/-! ### The number of cursors behind an update -/

theorem length_placeOffset {id : CursorId} {offset : Nat} {es : List (CursorId × Nat)} :
    (placeOffset id offset es).length =
      if id ∈ es.map (·.1) then es.length else es.length + 1 := by
  induction es with
  | nil => rfl
  | cons e es ih =>
    unfold placeOffset
    by_cases he : e.1 = id
    · simp [he]
    · have hne : ¬ id = e.1 := fun h => he h.symm
      simp only [if_neg he, List.length_cons, ih, List.map_cons, List.mem_cons, hne, false_or]
      split <;> rfl

variable {t : CursorTable} {id : CursorId} {offset : Nat}

theorem mem_keys_iff : id ∈ t.entries.map (·.1) ↔ t.offset? id ≠ none := by
  rw [List.mem_map, Option.ne_none_iff_exists']
  constructor
  · rintro ⟨⟨i, o⟩, hmem, rfl⟩
    exact ⟨o, (t.mem_entries_iff i o).mp hmem⟩
  · rintro ⟨o, ho⟩
    exact ⟨(id, o), (t.mem_entries_iff id o).mpr ho, rfl⟩

/-- A cursor that is live is moved, and any other is added. -/
theorem size_put : (t.put id offset).size = if t.offset? id = none then t.size + 1 else t.size := by
  rw [size, put, length_placeOffset]
  by_cases h : t.offset? id = none
  · rw [if_pos h, if_neg (by simpa [mem_keys_iff] using h), size]
  · rw [if_neg h, if_pos (mem_keys_iff.mpr h), size]

theorem size_erase (h : t.offset? id = some offset) : (t.erase id).size + 1 = t.size := by
  have hmem : id ∈ t.entries.map (·.1) := mem_keys_iff.mpr (by simp [h])
  have hkeys : (t.erase id).entries.map (·.1) = (t.entries.map (·.1)).erase id := by
    rw [t.nodup.erase_eq_filter, List.filter_map]
    exact congrArg (List.map _) (List.filter_congr fun e _ => Bool.eq_iff_iff.mpr (by simp))
  have hlen := congrArg List.length hkeys
  rw [List.length_map, List.length_erase_of_mem hmem, List.length_map] at hlen
  have hpos := List.length_pos_of_mem hmem
  rw [List.length_map] at hpos
  rw [size, size, hlen, Nat.sub_add_cancel hpos]

/-- The table behind a commit. -/
theorem size_commit {target branch : CursorId} {o : Nat} (ht : t.offset? target = some o)
    (hb : t.offset? branch = some offset) :
    ((t.erase branch).put target offset).size = if target = branch then t.size else t.size - 1 := by
  have herase := size_erase hb
  rw [size_put, offset?_erase]
  by_cases he : target = branch
  · rw [if_pos he, if_pos rfl, if_pos he, herase]
  · rw [if_neg he, ht, if_neg (by simp), if_neg he]
    omega

end CursorTable

namespace Manager

variable {σ : Type} {m : Manager σ} {target branch : CursorId} {o offset : Nat}

theorem offset?_commit (ht : m.cursors.offset? target = some o)
    (hb : m.cursors.offset? branch = some offset) (i : CursorId) :
    (m.commit target branch).2.cursors.offset? i =
      if i = target then some offset else if i = branch then none else m.cursors.offset? i := by
  simp only [commit, ht, hb, shrink_cursors, CursorTable.offset?_put, CursorTable.offset?_erase]

theorem liveCursors_commit (ht : m.cursors.offset? target = some o)
    (hb : m.cursors.offset? branch = some offset) :
    (m.commit target branch).2.stats.liveCursors =
      if target = branch then m.stats.liveCursors else m.stats.liveCursors - 1 := by
  simp only [stats, commit, ht, hb, shrink_cursors]
  exact CursorTable.size_commit ht hb

variable [ByteSource σ]

/-- A commit of one live cursor into another, in any state that a run can lead to. It succeeds; the
target is where the branch was, be it further on or further back; the branch is gone and there is
one live cursor less; the others stay; and the window starts at the slowest of those that remain.

A cursor that is committed into itself is not gone: it stays where it is, and so do all others. -/
theorem commit_exact (options : StreamOptions) (source : σ) (actions : List Action)
    (ht : ((ofSource options source).perform actions).cursors.offset? target = some o)
    (hb : ((ofSource options source).perform actions).cursors.offset? branch = some offset) :
    let m := (ofSource options source).perform actions
    let m' := (m.commit target branch).2
    (m.commit target branch).1 = .ok () ∧
    m'.cursors.offset? target = some offset ∧
    (target ≠ branch →
      m'.cursors.offset? branch = none ∧ m'.stats.liveCursors + 1 = m.stats.liveCursors) ∧
    (∀ i, i ≠ target → i ≠ branch → m'.cursors.offset? i = m.cursors.offset? i) ∧
    ((∃ i, m'.cursors.offset? i = some m'.base) ∧
      ∀ i o, m'.cursors.offset? i = some o → m'.base ≤ o) ∧
    (target = branch → (∀ i, m'.cursors.offset? i = m.cursors.offset? i) ∧
      m'.stats.liveCursors = m.stats.liveCursors) := by
  intro m m'
  have hm : m.Valid := valid_perform (valid_ofSource options source) actions
  have hoffsets : ∀ i, m'.cursors.offset? i =
      if i = target then some offset else if i = branch then none else m.cursors.offset? i :=
    offset?_commit ht hb
  have hlive : m'.stats.liveCursors =
      if target = branch then m.stats.liveCursors else m.stats.liveCursors - 1 :=
    liveCursors_commit ht hb
  have htarget : m'.cursors.offset? target = some offset := by rw [hoffsets, if_pos rfl]
  refine ⟨?_, htarget, fun hne => ⟨?_, ?_⟩, fun i hi hi' => ?_, ?_, fun he => ⟨fun i => ?_, ?_⟩⟩
  · simp only [m, commit, ht, hb]
  · rw [hoffsets, if_neg hne.symm, if_pos rfl]
  · have hpos : m.stats.liveCursors ≠ 0 := CursorTable.size_ne_zero ht
    rw [hlive, if_neg hne]
    omega
  · rw [hoffsets, if_neg hi, if_neg hi']
  · have hfloor := (valid_commit hm target branch).floor?_eq htarget
    exact (CursorTable.floor?_eq_some_iff _ _).mp hfloor
  · subst he
    rw [hoffsets]
    split
    · next hi => rw [hi, hb]
    · rfl
  · rw [hlive, if_pos he]

/-- The first cursor is taken back to where the second is, and the third stays. -/
theorem commit_exact_back :
    let m := (ofSource {} (⟨[97, 98, 99, 100]⟩ : Memory)).perform
      [.step (.branch 0), .step (.branch 0), .step (.read 0 3), .step (.read 1 1),
        .step (.read 2 2)]
    let m' := (m.commit 0 1).2
    m.cursors.offset? 0 = some 3 ∧ m.cursors.offset? 1 = some 1 ∧ (m.commit 0 1).1 = .ok () ∧
    m'.cursors.offset? 0 = some 1 ∧ m'.cursors.offset? 1 = none ∧ m'.cursors.offset? 2 = some 2 ∧
    m'.stats.liveCursors + 1 = m.stats.liveCursors ∧
    ∀ i o, m'.cursors.offset? i = some o → m'.base ≤ o := by
  intro m m'
  have ht : m.cursors.offset? 0 = some 3 := by decide
  have hb : m.cursors.offset? 1 = some 1 := by decide
  obtain ⟨hok, htarget, hgone, hothers, ⟨_, hbase⟩, _⟩ := commit_exact {}
    (⟨[97, 98, 99, 100]⟩ : Memory)
    [.step (.branch 0), .step (.branch 0), .step (.read 0 3), .step (.read 1 1), .step (.read 2 2)]
    ht hb
  obtain ⟨hbranch, hlive⟩ := hgone (by decide)
  exact ⟨ht, hb, hok, htarget, hbranch, hothers 2 (by decide) (by decide), hlive, hbase⟩

/-- The branch of this commit is live before it and after it. -/
theorem commit_self_stays :
    let m := (ofSource {} (⟨[97, 98]⟩ : Memory)).perform [.step (.branch 0), .step (.read 1 1)]
    let m' := (m.commit 1 1).2
    m.cursors.offset? 1 = some 1 ∧ (m.commit 1 1).1 = .ok () ∧
    ¬ (m'.cursors.offset? 1 = none ∧ m'.stats.liveCursors + 1 = m.stats.liveCursors) ∧
    m'.cursors.offset? 1 = some 1 ∧ m'.stats.liveCursors = m.stats.liveCursors := by
  intro m m'
  exact ⟨by decide, rfl, by decide, by decide, by decide⟩

end Manager

end StreamPeg
