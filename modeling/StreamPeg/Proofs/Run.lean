import StreamPeg.Proofs.Read

/-!
# What a run keeps

Every step leaves a valid manager valid, and leads to a `Later` one: the window starts no earlier
than before, the new calls of the journal are calls that the source has answered in that order, a
source that has ended stays as it is and has said so itself, and without a live cursor nothing of
the window moves. Both go from steps to runs (`valid_run`, `later_run`).
-/

namespace StreamPeg.Manager

variable {σ : Type} [ByteSource σ]

structure Later (m m' : Manager σ) : Prop where
  base_le : m.base ≤ m'.base
  exists_calls : ∃ cs, calls m'.journal = calls m.journal ++ cs ∧ Answers m.source cs m'.source ∧
    (m.exhausted = true → cs = [])
  ended : m.exhausted = true → m'.exhausted = true
  ends : m'.exhausted = true → m.exhausted = true ∨
    ∃ c ∈ calls m'.journal, 0 < c.requested ∧ c.ends = true
  frozen : m.cursors.size = 0 → m'.cursors = m.cursors ∧ m'.window = m.window ∧ m'.base = m.base

namespace Later

variable {m m' m'' : Manager σ}

theorem refl (m : Manager σ) : Later m m where
  base_le := Nat.le_refl _
  exists_calls := ⟨[], (List.append_nil _).symm, .nil _, fun _ => rfl⟩
  ended := id
  ends := .inl
  frozen _ := ⟨rfl, rfl, rfl⟩

theorem trans (h : Later m m') (h' : Later m' m'') : Later m m'' where
  base_le := Nat.le_trans h.base_le h'.base_le
  exists_calls := by
    obtain ⟨cs, hc, ha, hx⟩ := h.exists_calls
    obtain ⟨cs', hc', ha', hx'⟩ := h'.exists_calls
    refine ⟨cs ++ cs', by rw [hc', hc, List.append_assoc], ha.append ha', fun he => ?_⟩
    rw [hx he, hx' (h.ended he), List.append_nil]
  ended he := h'.ended (h.ended he)
  ends he := by
    rcases h'.ends he with he' | hc
    · rcases h.ends he' with he'' | ⟨c, hc, hends⟩
      · exact .inl he''
      · obtain ⟨cs, hcs, _⟩ := h'.exists_calls
        exact .inr ⟨c, hcs ▸ List.mem_append_left _ hc, hends⟩
    · exact .inr hc
  frozen hn := by
    obtain ⟨hc, hw, hb⟩ := h.frozen hn
    obtain ⟨hc', hw', hb'⟩ := h'.frozen (by rw [hc, hn])
    exact ⟨hc'.trans hc, hw'.trans hw, hb'.trans hb⟩

/-- What has come from the source stays, and after its end nothing is added. -/
theorem exists_received (h : Later m m') : ∃ bs, received m'.journal = received m.journal ++ bs ∧
    (m.exhausted = true → bs = []) := by
  obtain ⟨cs, hc, _, hx⟩ := h.exists_calls
  refine ⟨given cs, by rw [received, hc, given_append, received], fun he => ?_⟩
  rw [hx he, given_nil]

theorem shrink (m : Manager σ) : Later m m.shrink where
  base_le := base_le_shrink m
  exists_calls := ⟨[], by simp, by simpa using .nil m.source, fun _ => rfl⟩
  ended := by simp
  ends := by simpa using Or.inl
  frozen hn := by
    have hf : m.cursors.floor? = none := by
      rw [CursorTable.floor?_eq_none_iff, ← CursorTable.size_eq_zero_iff, hn]
    simp [Manager.shrink, hf]

/-- With a live cursor the table may change. -/
theorem update {i : CursorId} {o : Nat} (ho : m.cursors.offset? i = some o) (t : CursorTable)
    (next : CursorId) {event : Event} (he : event.call? = none) :
    Later m { m with cursors := t, nextId := next, journal := event :: m.journal } where
  base_le := Nat.le_refl _
  exists_calls := ⟨[], by rw [calls_cons he, List.append_nil], .nil _, fun _ => rfl⟩
  ended := id
  ends := .inl
  frozen hn := absurd hn (CursorTable.size_ne_zero ho)

theorem note (m : Manager σ) {event : Event} (he : event.call? = none) :
    Later m (m.note event) where
  base_le := Nat.le_refl _
  exists_calls := ⟨[], by simp [Manager.note, calls_cons he], .nil _, fun _ => rfl⟩
  ended := id
  ends := .inl
  frozen _ := ⟨rfl, rfl, rfl⟩

theorem pull {i : CursorId} {o needed : Nat} {cs : List Call} {out : Pulled}
    (ho : m.cursors.offset? i = some o) (hp : Pull m needed cs out m') : Later m m' where
  base_le := Nat.le_of_eq hp.base.symm
  exists_calls := ⟨cs, hp.calls_eq, hp.answers, hp.shut⟩
  ended hx := by
    cases hx' : m'.exhausted with
    | true => rfl
    | false =>
      rw [(hp.unended hx').1] at hx
      cases hx
  ends hx := by
    rw [hp.exhausted, Bool.or_eq_true, List.any_eq_true] at hx
    rw [hp.calls_eq]
    exact hx.imp_right fun ⟨c, hc, he⟩ => ⟨c, List.mem_append_right _ hc, hp.requested c hc, he⟩
  frozen hn := absurd hn (CursorTable.size_ne_zero ho)

theorem defer {i : CursorId} {o : Nat} (ho : m.cursors.offset? i = some o) (available : Nat)
    (out : Pulled) : Later m (m.defer available out) where
  base_le := Nat.le_of_eq (defer_fields m available out).2.1.symm
  exists_calls := by
    obtain ⟨_, _, _, hs, _, _, hc⟩ := defer_fields m available out
    exact ⟨[], by rw [hc, List.append_nil], hs ▸ .nil _, fun _ => rfl⟩
  ended hx := by rw [(defer_fields m available out).2.2.2.2.2.1, hx]
  ends hx := .inl ((defer_fields m available out).2.2.2.2.2.1 ▸ hx)
  frozen hn := absurd hn (CursorTable.size_ne_zero ho)

theorem advance {id : CursorId} {o : Nat} (ho : m.cursors.offset? id = some o) (offset : Nat) :
    Later m (m.advance id offset) :=
  (update ho (m.cursors.put id offset) m.nextId rfl).trans (shrink _)

end Later

/-! ### One step -/

theorem read_of_dead {m : Manager σ} {id : CursorId} (ho : m.cursors.offset? id = none)
    (count : Nat) : m.read id count = (.error (.unknownCursor id), m) := by
  simp [read, ho]

theorem valid_read {m : Manager σ} (h : m.Valid) (id : CursorId) (count : Nat) :
    (m.read id count).2.Valid := by
  cases ho : m.cursors.offset? id with
  | none =>
    rw [read_of_dead ho]
    exact h
  | some offset =>
    obtain ⟨cs, out, m', _, hp, ⟨e, _, _, hr⟩ | ⟨_, hr⟩⟩ := exists_read h ho count
    · rw [hr]
      exact hp.valid (h.note _ rfl)
    · have hv := hp.valid (h.note _ rfl)
      have ho' : m'.cursors.offset? id = some offset := by rw [hp.cursors]; exact ho
      obtain ⟨hc, hb, hn, _, _, _, hj⟩ :=
        defer_fields m' (m'.buffered offset count).length out
      have hs := hv.defer (m'.buffered offset count).length (hp.deferrable h rfl)
      have hlen := hv.length_buffered (hv.le_offset ho') count
      have hle := hv.offset_le ho'
      have hr' : received (m'.defer (m'.buffered offset count).length out).journal =
          received m'.journal := by rw [received, hj, received]
      rw [hr]
      refine valid_advance hs (Nat.le_trans (hb ▸ hv.le_offset ho') (Nat.le_add_right _ _)) ?_
        (hn ▸ hv.lt_nextId ho')
      rw [hr', hlen]
      omega

theorem later_read {m : Manager σ} (h : m.Valid) (id : CursorId) (count : Nat) :
    Later m (m.read id count).2 := by
  cases ho : m.cursors.offset? id with
  | none =>
    rw [read_of_dead ho]
    exact .refl m
  | some offset =>
    obtain ⟨cs, out, m', _, hp, hr⟩ := exists_read h ho count
    have ho' : m'.cursors.offset? id = some offset := by rw [hp.cursors]; exact ho
    have hl : Later m m' := (Later.note m rfl).trans (.pull ho hp)
    rcases hr with ⟨e, _, _, hr⟩ | ⟨_, hr⟩
    · rw [hr]
      exact hl
    · have hd := (defer_fields m' (m'.buffered offset count).length out).1
      rw [hr]
      exact hl.trans ((Later.defer ho' _ out).trans (.advance (hd ▸ ho') _))

theorem later_branch (m : Manager σ) (id : CursorId) : Later m (m.branch id).2 := by
  unfold branch
  split
  · exact .refl m
  · next ho => exact .update ho _ _ rfl

theorem later_dispose (m : Manager σ) (id : CursorId) : Later m (m.dispose id).2 := by
  unfold dispose
  split
  · exact .refl m
  · next ho => exact (Later.update ho _ m.nextId rfl).trans (.shrink _)

theorem later_release (m : Manager σ) (id : CursorId) : Later m (m.release id) := by
  unfold release
  split
  · exact .refl m
  · next ho => exact (Later.update ho _ m.nextId rfl).trans (.shrink _)

theorem later_commit (m : Manager σ) (target branch : CursorId) :
    Later m (m.commit target branch).2 := by
  unfold commit
  split
  · exact .refl m
  · split
    · exact .refl m
    · next ho => exact (Later.update ho _ m.nextId rfl).trans (.shrink _)

theorem valid_step {m : Manager σ} (h : m.Valid) (s : Step) : (m.step s).Valid := by
  cases s with
  | branch id => exact valid_branch h id
  | read id count => exact valid_read h id count
  | offset id => exact h
  | commit target branch => exact valid_commit h target branch
  | dispose id => exact valid_dispose h id
  | release id => exact valid_release h id
  | stall rule part => exact h.note _ rfl

theorem later_step {m : Manager σ} (h : m.Valid) (s : Step) : Later m (m.step s) := by
  cases s with
  | branch id => exact later_branch m id
  | read id count => exact later_read h id count
  | offset id => exact .refl m
  | commit target branch => exact later_commit m target branch
  | dispose id => exact later_dispose m id
  | release id => exact later_release m id
  | stall rule part => exact .note m rfl

/-! ### A whole run -/

theorem valid_run {m : Manager σ} (h : m.Valid) (steps : List Step) : (m.run steps).Valid :=
  run_induct h (fun _ s h => valid_step h s) steps

theorem later_run {m : Manager σ} (h : m.Valid) (steps : List Step) : Later m (m.run steps) := by
  induction steps generalizing m with
  | nil => exact .refl m
  | cons s steps ih => exact (later_step h s).trans (ih (valid_step h s))

/-- The journal of a run tells what the source has been through. -/
theorem answers_run (options : StreamOptions) (source : σ) (steps : List Step) :
    Answers source (calls ((ofSource options source).run steps).journal)
      ((ofSource options source).run steps).source := by
  obtain ⟨cs, hc, ha, _⟩ := (later_run (valid_ofSource options source) steps).exists_calls
  rw [hc]
  exact ha

end StreamPeg.Manager
