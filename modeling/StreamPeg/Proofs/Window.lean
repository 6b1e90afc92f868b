import StreamPeg.Proofs.Draw

/-!
# What the window holds

A manager is `Sound` when its window is what has come from the source from `base` on, no live cursor
stands before the window or behind it, every live id has been given out, and a failure that is held
back came from the source, which has not ended. It is `Valid` when moreover no byte is kept that the
slowest cursor has passed. `shrink` makes a sound manager valid (`valid_shrink`), every operation
keeps validity, and so it holds in every run (`valid_run`).
-/

namespace StreamPeg.Manager

variable {σ : Type}

structure Sound (m : Manager σ) : Prop where
  window : m.window.toList = (received m.journal).drop m.base
  base_le : m.base ≤ (received m.journal).length
  le_offset : ∀ {i o}, m.cursors.offset? i = some o → m.base ≤ o
  offset_le : ∀ {i o}, m.cursors.offset? i = some o → o ≤ (received m.journal).length
  lt_nextId : ∀ {i o}, m.cursors.offset? i = some o → i < m.nextId
  held : m.held ≠ none → m.exhausted = false
  cause : ∀ {e}, m.held = some e → ∃ c ∈ calls m.journal, c.answer = .failed e
  unended : m.exhausted = false → ∀ c ∈ calls m.journal, c.ends = false
  delivered_eq : delivered (calls m.journal) = received m.journal

structure Valid (m : Manager σ) : Prop extends Sound m where
  tight : ∀ {floor}, m.cursors.floor? = some floor → floor = m.base

theorem Sound.base_add_size {m : Manager σ} (h : m.Sound) :
    m.base + m.window.size = (received m.journal).length := by
  have hw := congrArg List.length h.window
  have hb := h.base_le
  rw [Array.length_toList, List.length_drop] at hw
  omega

theorem Sound.buffered_eq {m : Manager σ} (h : m.Sound) {offset : Nat} (ho : m.base ≤ offset)
    (count : Nat) : m.buffered offset count = ((received m.journal).drop offset).take count := by
  rw [buffered, Array.toList_extract, h.window, List.extract_eq_take_drop, List.drop_drop,
    Nat.add_sub_cancel' ho, Nat.add_sub_cancel_left]

theorem Sound.length_buffered {m : Manager σ} (h : m.Sound) {offset : Nat} (ho : m.base ≤ offset)
    (count : Nat) :
    (m.buffered offset count).length = min count ((received m.journal).length - offset) := by
  rw [h.buffered_eq ho, List.length_take, List.length_drop]

/-- A live cursor bounds the window from below, and the slowest of them is where it starts. -/
theorem Valid.floor?_eq {m : Manager σ} (h : m.Valid) {i : CursorId} {o : Nat}
    (ho : m.cursors.offset? i = some o) : m.cursors.floor? = some m.base := by
  cases hf : m.cursors.floor? with
  | none =>
    rw [(CursorTable.floor?_eq_none_iff _).mp hf i] at ho
    cases ho
  | some floor => rw [h.tight hf]

/-! ### Changes of the table -/

/-- The table may change in any way that keeps its cursors within the window. -/
theorem Sound.update {m : Manager σ} (h : m.Sound) (t : CursorTable) (next : CursorId)
    {event : Event} (he : event.call? = none)
    (ht : ∀ {i o}, t.offset? i = some o →
      m.base ≤ o ∧ o ≤ (received m.journal).length ∧ i < next) :
    Sound { m with cursors := t, nextId := next, journal := event :: m.journal } where
  window := by rw [received_cons he]; exact h.window
  base_le := by rw [received_cons he]; exact h.base_le
  le_offset ho := (ht ho).1
  offset_le ho := by rw [received_cons he]; exact (ht ho).2.1
  lt_nextId ho := (ht ho).2.2
  held := h.held
  cause := by rw [calls_cons he]; exact h.cause
  unended := by rw [calls_cons he]; exact h.unended
  delivered_eq := by rw [calls_cons he, received_cons he]; exact h.delivered_eq

theorem Sound.within {m : Manager σ} (h : m.Sound) {i : CursorId} {o : Nat}
    (ho : m.cursors.offset? i = some o) :
    m.base ≤ o ∧ o ≤ (received m.journal).length ∧ i < m.nextId :=
  ⟨h.le_offset ho, h.offset_le ho, h.lt_nextId ho⟩

theorem Sound.note {m : Manager σ} (h : m.Sound) (event : Event) (he : event.call? = none) :
    (m.note event).Sound :=
  h.update m.cursors m.nextId he h.within

theorem Valid.note {m : Manager σ} (h : m.Valid) (event : Event) (he : event.call? = none) :
    (m.note event).Valid :=
  { h.toSound.note event he with tight := h.tight }

/-! ### Shrinking -/

section Shrink

variable (m : Manager σ)

theorem shrink_fields : m.shrink.cursors = m.cursors ∧ m.shrink.source = m.source ∧
    m.shrink.held = m.held ∧ m.shrink.exhausted = m.exhausted := by
  unfold shrink
  split
  · simp
  · split <;> simp

@[simp] theorem shrink_cursors : m.shrink.cursors = m.cursors := (shrink_fields m).1

@[simp] theorem shrink_source : m.shrink.source = m.source := (shrink_fields m).2.1

@[simp] theorem shrink_held : m.shrink.held = m.held := (shrink_fields m).2.2.1

@[simp] theorem shrink_exhausted : m.shrink.exhausted = m.exhausted := (shrink_fields m).2.2.2

@[simp] theorem shrink_nextId : m.shrink.nextId = m.nextId := by
  unfold shrink
  split
  · rfl
  · split <;> rfl

@[simp] theorem calls_shrink : calls m.shrink.journal = calls m.journal := by
  unfold shrink
  split
  · rfl
  · split
    · exact calls_cons rfl _
    · rfl

@[simp] theorem received_shrink : received m.shrink.journal = received m.journal := by
  rw [received, calls_shrink, received]

theorem base_le_shrink : m.base ≤ m.shrink.base := by
  unfold shrink
  split
  · exact Nat.le_refl _
  · split
    · next h => exact Nat.le_of_lt h
    · exact Nat.le_refl _

end Shrink

/-- The slowest cursor of a sound manager has a place in the window, also if it is its end. -/
theorem Sound.floor_le {m : Manager σ} (h : m.Sound) {floor : Nat}
    (hf : m.cursors.floor? = some floor) :
    m.base ≤ floor ∧ floor ≤ (received m.journal).length := by
  obtain ⟨⟨i, hi⟩, _⟩ := (CursorTable.floor?_eq_some_iff _ _).mp hf
  exact ⟨h.le_offset hi, h.offset_le hi⟩

theorem valid_shrink {m : Manager σ} (h : m.Sound) : m.shrink.Valid := by
  cases hf : m.cursors.floor? with
  | none =>
    have he : m.shrink = m := by simp [shrink, hf]
    rw [he]
    exact { h with tight := by simp [hf] }
  | some floor =>
    obtain ⟨hb, hl⟩ := h.floor_le hf
    by_cases hlt : m.base < floor
    · have he : m.shrink =
          { m with
            window := m.window.extract (floor - m.base) m.window.size
            base := floor
            journal := .shrunk m.base floor :: m.journal } := by simp [shrink, hf, hlt]
      rw [he]
      constructor
      case tight =>
        intro f hf'
        exact Option.some.inj (hf'.symm.trans hf)
      constructor
      case window =>
        have hs := h.base_add_size
        rw [received_cons rfl, Array.toList_extract, h.window, List.extract_eq_take_drop,
          List.drop_drop, Nat.add_sub_cancel' hb]
        exact List.take_of_length_le (by rw [List.length_drop]; omega)
      case base_le => rw [received_cons rfl]; exact hl
      case le_offset => exact fun ho => ((CursorTable.floor?_eq_some_iff _ _).mp hf).2 _ _ ho
      case offset_le => rw [received_cons rfl]; exact h.offset_le
      case lt_nextId => exact h.lt_nextId
      case held => exact h.held
      case cause => rw [calls_cons rfl]; exact h.cause
      case unended => rw [calls_cons rfl]; exact h.unended
      case delivered_eq => rw [calls_cons rfl, received_cons rfl]; exact h.delivered_eq
    · have he : m.shrink = m := by simp [shrink, hf, hlt]
      rw [he]
      refine { h with tight := fun hf' => ?_ }
      rw [hf] at hf'
      cases hf'
      omega

/-! ### Operations on cursors -/

theorem valid_ofSource (options : StreamOptions) (source : σ) :
    (ofSource options source).Valid := by
  have ho : ∀ {i o}, (ofSource options source).cursors.offset? i = some o → i = 0 ∧ o = 0 := by
    intro i o h
    simp only [ofSource, CursorTable.offset?_put, CursorId.root, CursorTable.offset?_empty] at h
    split at h
    · next hi => exact ⟨hi, (Option.some.inj h).symm⟩
    · cases h
  constructor
  case tight =>
    intro floor hf
    obtain ⟨⟨i, hi⟩, _⟩ := (CursorTable.floor?_eq_some_iff _ _).mp hf
    exact (ho hi).2
  constructor
  case window => rfl
  case base_le => exact Nat.zero_le _
  case le_offset => exact fun _ => Nat.zero_le _
  case offset_le => exact fun h => (ho h).2 ▸ Nat.zero_le _
  case lt_nextId => exact fun h => (ho h).1 ▸ Nat.zero_lt_one
  case held => simp [ofSource]
  case cause => simp [ofSource]
  case unended => simp [ofSource, calls, Event.call?]
  case delivered_eq => rfl

/-- A new cursor stands where another one does, so the slowest is as slow as before. -/
theorem valid_branch {m : Manager σ} (h : m.Valid) (id : CursorId) : (m.branch id).2.Valid := by
  cases ho : m.cursors.offset? id with
  | none => simpa [branch, ho] using h
  | some offset =>
    have hs : (m.branch id).2.Sound := by
      simp only [branch, ho]
      refine h.update _ _ rfl fun {i o} hi => ?_
      rw [CursorTable.offset?_put] at hi
      split at hi
      · next he =>
        cases hi
        exact ⟨h.le_offset ho, h.offset_le ho, he ▸ Nat.lt_succ_self _⟩
      · have hw := h.within hi
        exact ⟨hw.1, hw.2.1, Nat.lt_succ_of_lt hw.2.2⟩
    refine { hs with tight := fun {floor} hf => ?_ }
    have hb : (m.branch id).2.base = m.base := by simp [branch, ho]
    obtain ⟨⟨j, hj⟩, _⟩ := (CursorTable.floor?_eq_some_iff _ _).mp (h.floor?_eq ho)
    have hle := (CursorTable.floor?_eq_some_iff _ _).mp hf
    have hj' : (m.branch id).2.cursors.offset? j = some m.base := by
      have hne : j ≠ m.nextId := Nat.ne_of_lt (h.lt_nextId hj)
      simp [branch, ho, CursorTable.offset?_put, hne, hj]
    have h1 := hle.2 j _ hj'
    have h2 := (hs.floor_le hf).1
    omega

/-- Cursors may be removed, as long as what is dropped afterwards is what no other cursor needs. -/
theorem Sound.erase {m : Manager σ} (h : m.Sound) (id : CursorId) {event : Event}
    (he : event.call? = none) :
    Sound { m with cursors := m.cursors.erase id, journal := event :: m.journal } := by
  refine h.update _ m.nextId he fun {i o} hi => ?_
  rw [CursorTable.offset?_erase] at hi
  split at hi
  · cases hi
  · exact h.within hi

theorem valid_dispose {m : Manager σ} (h : m.Valid) (id : CursorId) : (m.dispose id).2.Valid := by
  unfold dispose
  split
  · exact h
  · exact valid_shrink (h.erase id rfl)

theorem valid_release {m : Manager σ} (h : m.Valid) (id : CursorId) : (m.release id).Valid := by
  unfold release
  split
  · exact h
  · exact valid_shrink (h.erase id rfl)

/-- A live cursor may be moved to any place in the window. -/
theorem Sound.put {m : Manager σ} (h : m.Sound) {id : CursorId} {offset : Nat} {event : Event}
    (he : event.call? = none) (hb : m.base ≤ offset) (hl : offset ≤ (received m.journal).length)
    (hid : id < m.nextId) :
    Sound { m with cursors := m.cursors.put id offset, journal := event :: m.journal } := by
  refine h.update _ m.nextId he fun {i o} hi => ?_
  rw [CursorTable.offset?_put] at hi
  split at hi
  · next hi' =>
    cases hi
    exact ⟨hb, hl, hi' ▸ hid⟩
  · exact h.within hi

theorem valid_advance {m : Manager σ} (h : m.Sound) {id : CursorId} {offset : Nat}
    (hb : m.base ≤ offset) (hl : offset ≤ (received m.journal).length) (hid : id < m.nextId) :
    (m.advance id offset).Valid :=
  valid_shrink (h.put rfl hb hl hid)

theorem Sound.commit {m : Manager σ} (h : m.Sound) {target branch : CursorId} {o offset : Nat}
    (ht : m.cursors.offset? target = some o) (hb : m.cursors.offset? branch = some offset) :
    Sound { m with
      cursors := (m.cursors.erase branch).put target offset
      journal := .committed branch target offset :: m.journal } := by
  have hw := h.within hb
  refine h.update _ m.nextId rfl fun {i o'} hi => ?_
  rw [CursorTable.offset?_put, CursorTable.offset?_erase] at hi
  split at hi
  · next hi' =>
    cases hi
    exact ⟨hw.1, hw.2.1, hi' ▸ h.lt_nextId ht⟩
  · split at hi
    · cases hi
    · exact h.within hi

theorem valid_commit {m : Manager σ} (h : m.Valid) (target branch : CursorId) :
    (m.commit target branch).2.Valid := by
  unfold Manager.commit
  split
  · exact h
  · next ht =>
    split
    · exact h
    · next hb => exact valid_shrink (h.commit ht hb)

end StreamPeg.Manager
