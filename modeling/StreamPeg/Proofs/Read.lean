import StreamPeg.Proofs.Window

/-!
# What a read does

A read that is asked of a live cursor makes one pull (`exists_read`). It then either gives what the
window holds from the cursor's offset on, and moves the cursor behind it, or it has nothing to give
and raises the failure that the pull ended with. `Pull.length_buffered` says how much there is to
give: all that was asked for, or else everything up to the last byte received.
-/

namespace StreamPeg

variable {σ : Type}

namespace Pull

variable [ByteSource σ]

variable {m m' : Manager σ} {needed : Nat} {cs : List Call} {out : Pulled}

theorem received_eq (hp : Pull m needed cs out m') :
    received m'.journal = received m.journal ++ given cs := by
  rw [received, hp.calls_eq, given_append, received]

/-- The source has not ended after a pull only if no call of it has found the end. -/
theorem unended (hp : Pull m needed cs out m') (hx : m'.exhausted = false) :
    m.exhausted = false ∧ ∀ c ∈ cs, c.ends = false := by
  simpa [hp.exhausted] using hx

theorem cause (hp : Pull m needed cs out m') {e : SourceFailure} (ho : out = .failed e) :
    m.held = some e ∨ ∃ c ∈ cs, c.answer = .failed e := by
  have hf := hp.failures
  rw [(hp.failed e ho).1, ho] at hf
  cases hh : m.held with
  | none =>
    rw [hh] at hf
    exact .inr (exists_failed_of_mem (by rw [show failuresIn cs = [e] from hf]; simp))
  | some e' =>
    rw [hh] at hf
    exact .inl (congrArg some (List.cons.inj hf).1)

theorem valid (hp : Pull m needed cs out m') (h : m.Valid) : m'.Valid := by
  constructor
  case tight =>
    rw [hp.cursors, hp.base]
    exact h.tight
  have hle : (received m.journal).length ≤ (received m'.journal).length := by
    rw [hp.received_eq, List.length_append]
    omega
  constructor
  case window =>
    rw [hp.window, hp.received_eq, hp.base, h.window, List.drop_append_of_le_length h.base_le]
  case base_le =>
    rw [hp.base]
    exact Nat.le_trans h.base_le hle
  case le_offset =>
    rw [hp.base, hp.cursors]
    exact h.le_offset
  case offset_le =>
    intro i o hi
    rw [hp.cursors] at hi
    exact Nat.le_trans (h.offset_le hi) hle
  case lt_nextId =>
    rw [hp.cursors, hp.nextId]
    exact h.lt_nextId
  case held =>
    intro hh
    cases out with
    | satisfied =>
      rw [(hp.satisfied rfl).1] at hh
      rw [(hp.satisfied rfl).2]
      exact h.held hh
    | ended => exact absurd (hp.ended rfl).1 hh
    | failed e => exact (hp.failed e rfl).2
  case cause =>
    intro e hh
    rw [hp.calls_eq]
    have hmem {c : Call} (hc : c ∈ calls m.journal) : c ∈ calls m.journal ++ cs :=
      List.mem_append_left _ hc
    cases out with
    | satisfied =>
      rw [(hp.satisfied rfl).1] at hh
      obtain ⟨c, hc, he⟩ := h.cause hh
      exact ⟨c, hmem hc, he⟩
    | ended =>
      rw [(hp.ended rfl).1] at hh
      cases hh
    | failed e' =>
      rw [(hp.failed e' rfl).1] at hh
      cases hh
  case unended =>
    intro hx c hc
    rw [hp.calls_eq, List.mem_append] at hc
    rcases hc with hc | hc
    · exact h.unended (hp.unended hx).1 c hc
    · exact (hp.unended hx).2 c hc
  case delivered_eq =>
    rw [hp.calls_eq, hp.received_eq]
    by_cases hx : m.exhausted = true
    · rw [hp.shut hx, List.append_nil, given_nil, List.append_nil]
      exact h.delivered_eq
    · rw [delivered_append (h.unended (by simpa using hx)), hp.delivered_eq, ← received]

/-- A failure that a pull ends with may be held back. -/
theorem deferrable {event : Event} (h : m.Valid) (hp : Pull (m.note event) needed cs out m')
    (he : event.call? = none) (e : SourceFailure) (ho : out = .failed e) :
    m'.exhausted = false ∧ ∃ c ∈ calls m'.journal, c.answer = .failed e := by
  refine ⟨(hp.failed e ho).2, ?_⟩
  rw [hp.calls_eq]
  rcases hp.cause ho with hh | ⟨c, hc, hce⟩
  · obtain ⟨c, hc, hce⟩ := (h.note event he).cause hh
    exact ⟨c, List.mem_append_left _ hc, hce⟩
  · exact ⟨c, List.mem_append_right _ hc, hce⟩

/-- After a pull for what a read lacks, either all of it is there or all that has come. -/
theorem length_buffered {offset count : Nat} (h : m.Valid) (hb : m.base ≤ offset)
    (hl : offset ≤ (received m.journal).length)
    (hp : Pull m (count - (m.buffered offset count).length) cs out m') :
    (out = .satisfied → (m'.buffered offset count).length = count) ∧
      (out ≠ .satisfied → (m'.buffered offset count).length < count ∧
        offset + (m'.buffered offset count).length = (received m'.journal).length) := by
  have hlen : (received m'.journal).length = (received m.journal).length + (given cs).length := by
    rw [hp.received_eq, List.length_append]
  have hm := h.length_buffered hb count
  have hm' := (hp.valid h).length_buffered (hp.base ▸ hb) count
  refine ⟨fun ho => ?_, fun ho => ?_⟩
  · have := hp.enough ho
    omega
  · have := hp.short ho
    omega

end Pull

namespace Manager

/-- A failure is held back behind the bytes that were there before it. -/
def defer (m : Manager σ) (available : Nat) : Pulled → Manager σ
  | .failed e => { m with held := some e, journal := .deferred available :: m.journal }
  | _ => m

theorem defer_fields (m : Manager σ) (available : Nat) (out : Pulled) :
    (m.defer available out).cursors = m.cursors ∧ (m.defer available out).base = m.base ∧
      (m.defer available out).nextId = m.nextId ∧ (m.defer available out).source = m.source ∧
      (m.defer available out).window = m.window ∧ (m.defer available out).exhausted = m.exhausted ∧
      calls (m.defer available out).journal = calls m.journal := by
  cases out with
  | satisfied => exact ⟨rfl, rfl, rfl, rfl, rfl, rfl, rfl⟩
  | ended => exact ⟨rfl, rfl, rfl, rfl, rfl, rfl, rfl⟩
  | failed e => exact ⟨rfl, rfl, rfl, rfl, rfl, rfl, calls_cons rfl _⟩

theorem Sound.defer {m : Manager σ} (h : m.Sound) (available : Nat) {out : Pulled}
    (hx : ∀ e, out = .failed e →
      m.exhausted = false ∧ ∃ c ∈ calls m.journal, c.answer = .failed e) :
    (m.defer available out).Sound := by
  cases out with
  | satisfied => exact h
  | ended => exact h
  | failed e =>
    refine { h.note (.deferred available) rfl with held := fun _ => (hx e rfl).1, cause := ?_ }
    rintro e' ⟨⟩
    rw [show calls (m.defer available (.failed e)).journal = calls m.journal from calls_cons rfl _]
    exact (hx e rfl).2

theorem exists_read [ByteSource σ] {m : Manager σ} (h : m.Valid) {id : CursorId} {offset : Nat}
    (ho : m.cursors.offset? id = some offset) (count : Nat) :
    ∃ cs out m',
      (m.note (.requested id count)).pull (count - (m.buffered offset count).length) = (out, m') ∧
      Pull (m.note (.requested id count)) (count - (m.buffered offset count).length) cs out m' ∧
      ((∃ e, out = .failed e ∧ m'.buffered offset count = [] ∧
          m.read id count = (.error (.source e), m')) ∨
        ((∀ e, out = .failed e → m'.buffered offset count ≠ []) ∧
          m.read id count =
            (.ok ⟨offset, m'.buffered offset count, out = .ended⟩,
              (m'.defer (m'.buffered offset count).length out).advance id
                (offset + (m'.buffered offset count).length)))) := by
  obtain ⟨cs, hp⟩ := (m.note (.requested id count)).exists_pull
    (count - (m.buffered offset count).length) h.held
  unfold read
  simp only [ho]
  generalize (m.note (.requested id count)).pull (count - (m.buffered offset count).length) = r
    at hp
  obtain ⟨out, m'⟩ := r
  refine ⟨cs, out, m', rfl, hp, ?_⟩
  cases out with
  | satisfied => exact .inr ⟨nofun, rfl⟩
  | ended => exact .inr ⟨nofun, rfl⟩
  | failed e =>
    cases hb : m'.buffered offset count with
    | nil => exact .inl ⟨e, rfl, rfl, by simp [hb]⟩
    | cons b bs => exact .inr ⟨fun _ _ => List.cons_ne_nil b bs, by simp [hb, defer]⟩

end Manager

end StreamPeg
