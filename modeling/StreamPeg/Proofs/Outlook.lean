import StreamPeg.Cursor.Outlook
import StreamPeg.Proofs.Branch

/-!
# What an operation leaves to come

A `Quiet` operation asks nothing of the source, so the stream and the failures left are the same
before and after it; all are, but for reads. `Moved m id pos m'`: between `m` and `m'` the cursor
`id` has come to `pos`, while every other cursor has stayed where it was, and the stream that they
all read from is the same. A read moves its cursor over a section of the stream
(`exists_read_chunk`) or takes the first of the failures left.
-/

namespace StreamPeg

variable {σ : Type}

namespace Manager

/-! ### Operations that ask nothing of the source -/

/-- The source and all that has come from it are left alone. -/
structure Quiet (m m' : Manager σ) : Prop where
  calls_eq : calls m'.journal = calls m.journal
  exhausted : m'.exhausted = m.exhausted
  source : m'.source = m.source
  held : m'.held = m.held

namespace Quiet

variable {m m' m'' : Manager σ}

theorem refl (m : Manager σ) : Quiet m m := ⟨rfl, rfl, rfl, rfl⟩

theorem trans (h : Quiet m m') (h' : Quiet m' m'') : Quiet m m'' where
  calls_eq := h'.calls_eq.trans h.calls_eq
  exhausted := h'.exhausted.trans h.exhausted
  source := h'.source.trans h.source
  held := h'.held.trans h.held

theorem update (m : Manager σ) (t : CursorTable) (next : CursorId) {event : Event}
    (he : event.call? = none) :
    Quiet m { m with cursors := t, nextId := next, journal := event :: m.journal } :=
  ⟨calls_cons he _, rfl, rfl, rfl⟩

theorem shrink (m : Manager σ) : Quiet m m.shrink :=
  ⟨calls_shrink m, shrink_exhausted m, shrink_source m, shrink_held m⟩

end Quiet

section

variable (m : Manager σ) (id : CursorId)

theorem quiet_note {event : Event} (he : event.call? = none) : Quiet m (m.note event) :=
  .update m m.cursors m.nextId he

theorem quiet_advance (offset : Nat) : Quiet m (m.advance id offset) :=
  (Quiet.update m _ m.nextId rfl).trans (.shrink _)

theorem quiet_branch : Quiet m (m.branch id).2 := by
  unfold branch
  split
  · exact .refl m
  · exact .update m _ _ rfl

theorem quiet_dispose : Quiet m (m.dispose id).2 := by
  unfold dispose
  split
  · exact .refl m
  · exact (Quiet.update m _ m.nextId rfl).trans (.shrink _)

theorem quiet_release : Quiet m (m.release id) := by
  unfold release
  split
  · exact .refl m
  · exact (Quiet.update m _ m.nextId rfl).trans (.shrink _)

theorem quiet_commit (branch : CursorId) : Quiet m (m.commit id branch).2 := by
  unfold commit
  split
  · exact .refl m
  · split
    · exact .refl m
    · exact (Quiet.update m _ m.nextId rfl).trans (.shrink _)

theorem quiet_adopt (branch : CursorId) : Quiet m (m.adopt id branch).2 :=
  (m.quiet_commit id branch).trans (quiet_release _ branch)

end

end Manager

variable [FiniteSource σ]

namespace Manager

theorem stream_congr {m m' : Manager σ} (hc : calls m'.journal = calls m.journal)
    (hx : m'.exhausted = m.exhausted) (hs : m'.source = m.source) : m'.stream = m.stream := by
  rw [stream, stream, received, hc, hx, hs, received]

namespace Quiet

variable {m m' : Manager σ}

theorem stream_eq (h : Quiet m m') : m'.stream = m.stream :=
  stream_congr h.calls_eq h.exhausted h.source

theorem failuresLeft_eq (h : Quiet m m') : m'.failuresLeft = m.failuresLeft := by
  rw [failuresLeft, failuresLeft, h.held, h.source]

end Quiet

/-! ### The stream behind the window -/

/-- Nothing of the stream that a live cursor can reach is beyond what the window and the source
still have. -/
theorem length_stream_le {m : Manager σ} (h : m.Sound) :
    m.stream.length ≤ m.base + m.available := by
  have hs := h.base_add_size
  have hb := length_bytesOf_le (FiniteSource.upcoming m.source)
  rw [stream, List.length_append, available]
  split
  · rw [List.length_nil]
    omega
  · omega

/-- What has come is the start of the stream, and all of it once the source has ended. -/
theorem stream_eq_received (m : Manager σ) :
    ∃ bs, m.stream = received m.journal ++ bs ∧ (m.exhausted = true → bs = []) :=
  ⟨_, rfl, fun hx => if_pos hx⟩

end Manager

/-! ### Pulls -/

namespace Pull

variable {m m' : Manager σ} {needed : Nat} {cs : List Call} {out : Pulled}

theorem stream_eq (hp : Pull m needed cs out m') : m'.stream = m.stream := by
  rw [Manager.stream, Manager.stream, hp.received_eq, List.append_assoc]
  congr 1
  by_cases hx : m.exhausted = true
  · have hx' : m'.exhausted = true := by rw [hp.exhausted, hx, Bool.true_or]
    rw [if_pos hx, if_pos hx', hp.shut hx]
    rfl
  · rw [Bool.not_eq_true] at hx
    rw [hp.exhausted, hx, Bool.false_or, hp.answers.bytesOf_eq hp.requested, hp.delivered_eq,
      if_neg Bool.false_ne_true]

theorem failuresLeft_eq (hp : Pull m needed cs out m') :
    m.failuresLeft = out.failure?.toList ++ m'.failuresLeft := by
  rw [Manager.failuresLeft, Manager.failuresLeft, hp.answers.failuresOf_eq hp.requested,
    ← List.append_assoc, hp.failures, List.append_assoc]

end Pull

namespace Manager

/-! ### Moves of one cursor -/

structure Moved (m : Manager σ) (id : CursorId) (pos : Nat) (m' : Manager σ) : Prop where
  valid : m'.Valid
  stream_eq : m'.stream = m.stream
  offset_self : m'.cursors.offset? id = some pos
  offset_of_ne : ∀ i, i ≠ id → m'.cursors.offset? i = m.cursors.offset? i

namespace Moved

variable {m m' m'' : Manager σ} {id : CursorId} {pos pos' : Nat}

theorem refl (h : m.Valid) (ho : m.cursors.offset? id = some pos) : Moved m id pos m where
  valid := h
  stream_eq := rfl
  offset_self := ho
  offset_of_ne _ _ := rfl

theorem trans (h : Moved m id pos m') (h' : Moved m' id pos' m'') : Moved m id pos' m'' where
  valid := h'.valid
  stream_eq := h'.stream_eq.trans h.stream_eq
  offset_self := h'.offset_self
  offset_of_ne i hi := (h'.offset_of_ne i hi).trans (h.offset_of_ne i hi)

theorem note (h : Moved m id pos m') {event : Event} (he : event.call? = none) :
    Moved m id pos (m'.note event) where
  valid := h.valid.note event he
  stream_eq := (quiet_note m' he).stream_eq.trans h.stream_eq
  offset_self := h.offset_self
  offset_of_ne := h.offset_of_ne

theorem shifted (h : Moved m id pos m') : Shifted m id pos m' :=
  ⟨h.valid, h.offset_self, h.offset_of_ne⟩

end Moved

theorem Shifted.moved {m m' : Manager σ} {id : CursorId} {pos : Nat} (h : Shifted m id pos m')
    (hs : m'.stream = m.stream) : Moved m id pos m' :=
  ⟨h.valid, hs, h.offset_self, h.offset_of_ne⟩

/-! ### Reads -/

/-- What a read can tell of the stream. -/
structure Seen (stream : List UInt8) (offset count : Nat) (chunk : Chunk) : Prop where
  start : chunk.start = offset
  bytes : chunk.bytes = (stream.drop offset).take chunk.bytes.length
  length_le : chunk.bytes.length ≤ count
  within : offset + chunk.bytes.length ≤ stream.length
  atEnd : chunk.atEnd = true →
    chunk.bytes.length < count ∧ offset + chunk.bytes.length = stream.length

theorem Given.seen {m m' : Manager σ} {id : CursorId} {offset count : Nat} {chunk : Chunk}
    (h : Given m id offset count chunk m') : Seen m'.stream offset count chunk := by
  obtain ⟨bs, hbs, hend⟩ := m'.stream_eq_received
  have hlen : m'.stream.length = (received m'.journal).length + bs.length := by
    rw [hbs, List.length_append]
  have hw := h.within
  refine ⟨h.start, ?_, h.length_le, by omega, fun he => ?_⟩
  · rw [hbs, List.drop_append_of_le_length (by omega), List.take_append_of_le_length]
    · exact h.bytes
    · rw [List.length_drop]
      omega
  · obtain ⟨hlt, hx, heq⟩ := h.atEnd he
    rw [hend hx, List.length_nil] at hlen
    omega

theorem exists_read_chunk {m : Manager σ} (h : m.Valid) {id : CursorId} {offset : Nat}
    (ho : m.cursors.offset? id = some offset) (count : Nat) :
    (∃ chunk m', m.read id count = (.ok chunk, m') ∧ Seen m.stream offset count chunk ∧
        Moved m id (offset + chunk.bytes.length) m' ∧ m'.failuresLeft = m.failuresLeft ∧
        (chunk.bytes.length < count → chunk.atEnd = false →
          chunk.bytes ≠ [] ∧ m.failuresLeft ≠ [])) ∨
      ∃ e m', m.read id count = (.error (.source e), m') ∧ Moved m id offset m' ∧
        m.failuresLeft = e :: m'.failuresLeft := by
  obtain ⟨cs, out, m₁, _, hp, hr⟩ := exists_read h ho count
  have hv := hp.valid (h.note _ rfl)
  have hstream : m₁.stream = m.stream := hp.stream_eq.trans (quiet_note m rfl).stream_eq
  have hleft : m.failuresLeft = out.failure?.toList ++ m₁.failuresLeft := hp.failuresLeft_eq
  rcases hr with ⟨e, rfl, _, hr⟩ | ⟨hne, hr⟩
  · exact .inr ⟨e, m₁, hr, (shifted_of_failed_read h ho hr).1.moved hstream, hleft⟩
  · have hg := given_of_read h ho hr
    obtain ⟨_, _, _, hds, _, hdx, hdj⟩ := defer_fields m₁ (m₁.buffered offset count).length out
    -- A failure that came behind bytes is the first of those left, now that it is held back.
    have hdefer : (m₁.defer (m₁.buffered offset count).length out).failuresLeft =
        m.failuresLeft := by
      rw [hleft]
      cases out with
      | satisfied => rfl
      | ended => rfl
      | failed e =>
        rw [failuresLeft, failuresLeft, (hp.failed e rfl).1]
        rfl
    have hs : ((m₁.defer (m₁.buffered offset count).length out).advance id
        (offset + (m₁.buffered offset count).length)).stream = m.stream := by
      rw [(quiet_advance _ id _).stream_eq, stream_congr hdj hdx hds, hstream]
    have hf : ((m₁.defer (m₁.buffered offset count).length out).advance id
        (offset + (m₁.buffered offset count).length)).failuresLeft = m.failuresLeft := by
      rw [(quiet_advance _ id _).failuresLeft_eq, hdefer]
    refine .inl ⟨_, _, hr, hs ▸ hg.seen, ⟨hg.valid, hs, ?_, fun i hi => ?_⟩, hf, fun hlt he => ?_⟩
    · rw [hg.offsets, if_pos rfl]
    · rw [hg.offsets, if_neg hi]
    · obtain ⟨hnil, e, hh⟩ := hg.short hlt he
      refine ⟨hnil, ?_⟩
      rw [← hf, failuresLeft, hh]
      exact List.cons_ne_nil e _

/-! ### Runs -/

/-- Whatever is done, the stream stays, and failures are only ever used up. -/
theorem outlook_step {m : Manager σ} (h : m.Valid) (s : Step) :
    (m.step s).stream = m.stream ∧ (m.step s).failuresLeft <:+ m.failuresLeft := by
  have hquiet {m' : Manager σ} (hq : Quiet m m') :
      m'.stream = m.stream ∧ m'.failuresLeft <:+ m.failuresLeft :=
    ⟨hq.stream_eq, hq.failuresLeft_eq ▸ List.suffix_rfl⟩
  cases s with
  | branch id => exact hquiet (m.quiet_branch id)
  | read id count =>
    cases ho : m.cursors.offset? id with
    | none =>
      rw [step, read_of_dead ho]
      exact hquiet (.refl m)
    | some offset =>
      rw [step]
      rcases exists_read_chunk h ho count with ⟨_, m', hr, _, hm, hl, _⟩ | ⟨e, m', hr, hm, hl⟩
      · rw [hr]
        exact ⟨hm.stream_eq, hl ▸ List.suffix_rfl⟩
      · rw [hr, hl]
        exact ⟨hm.stream_eq, List.suffix_cons e _⟩
  | offset id => exact hquiet (.refl m)
  | commit target branch => exact hquiet (m.quiet_commit target branch)
  | dispose id => exact hquiet (m.quiet_dispose id)
  | release id => exact hquiet (m.quiet_release id)
  | stall rule part => exact hquiet (m.quiet_note rfl)

theorem outlook_run {m : Manager σ} (h : m.Valid) (steps : List Step) :
    (m.run steps).stream = m.stream ∧ (m.run steps).failuresLeft <:+ m.failuresLeft := by
  induction steps generalizing m with
  | nil => exact ⟨rfl, List.suffix_rfl⟩
  | cons s steps ih =>
    obtain ⟨hs, hl⟩ := ih (valid_step h s)
    obtain ⟨hs', hl'⟩ := outlook_step h s
    exact ⟨hs.trans hs', hl.trans hl'⟩

end Manager

end StreamPeg
