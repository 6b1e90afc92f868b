import StreamPeg.Proofs.Run
import StreamPeg.Source.Script

/-!
# One stream for all cursors

Whatever a run does between its reads, the reads of all cursors see the same bytes: a successful
read at an offset gives the section of the stream that starts there (`read_run`), and it is shorter
than was asked for only at the end of the data, which the source has given itself, or in front of a
failure that is held back. The stream is what the source hands out, in the run and after it.
-/

namespace StreamPeg.Manager

variable {σ : Type}

/-- What a read that succeeds gives, and what it leaves behind. -/
structure Given (m : Manager σ) (id : CursorId) (offset count : Nat) (chunk : Chunk)
    (m' : Manager σ) : Prop where
  valid : m'.Valid
  start : chunk.start = offset
  bytes : chunk.bytes = ((received m'.journal).drop offset).take chunk.bytes.length
  length_le : chunk.bytes.length ≤ count
  within : offset + chunk.bytes.length ≤ (received m'.journal).length
  offsets : ∀ i, m'.cursors.offset? i =
    if i = id then some (offset + chunk.bytes.length) else m.cursors.offset? i
  atEnd : chunk.atEnd = true → chunk.bytes.length < count ∧ m'.exhausted = true ∧
    offset + chunk.bytes.length = (received m'.journal).length
  short : chunk.bytes.length < count → chunk.atEnd = false →
    chunk.bytes ≠ [] ∧ ∃ e, m'.held = some e

/-- All that is ever delivered starts with what has come so far, and is that much once the source
has said that it ends. -/
theorem Valid.exists_delivered {m : Manager σ} (h : m.Valid)
    (hends : m.exhausted = true → ∃ c ∈ calls m.journal, c.ends = true) (cs : List Call) :
    ∃ bs, delivered (calls m.journal ++ cs) = received m.journal ++ bs ∧
      (m.exhausted = true → bs = []) := by
  cases hx : m.exhausted with
  | true =>
    refine ⟨[], ?_, fun _ => rfl⟩
    rw [delivered_append_of_ends (hends hx), h.delivered_eq, List.append_nil]
  | false => exact ⟨delivered cs, delivered_append (h.unended hx) cs, nofun⟩

/-- A read against a stream that starts with what has come by then. -/
theorem Given.of_append {m m' : Manager σ} {id : CursorId} {offset count : Nat} {chunk : Chunk}
    (h : Given m id offset count chunk m') {stream bs : List UInt8}
    (hs : stream = received m'.journal ++ bs) (hend : m'.exhausted = true → bs = []) :
    offset + chunk.bytes.length ≤ stream.length ∧
      chunk.bytes = (stream.drop offset).take chunk.bytes.length ∧
      (chunk.atEnd = true → offset + chunk.bytes.length = stream.length) ∧
      (m'.held = none → chunk.bytes.length = min count (stream.length - offset) ∧
        (chunk.atEnd = true ↔ stream.length < offset + count)) := by
  have hlen : stream.length = (received m'.journal).length + bs.length := by
    rw [hs, List.length_append]
  have hwithin := h.within
  have hle := h.length_le
  have hatEnd : chunk.atEnd = true → offset + chunk.bytes.length = stream.length := by
    intro he
    obtain ⟨_, hx, heq⟩ := h.atEnd he
    rw [hend hx, List.length_nil] at hlen
    omega
  refine ⟨by omega, ?_, hatEnd, fun hh => ?_⟩
  · rw [hs, List.drop_append_of_le_length (by omega), List.take_append_of_le_length]
    · exact h.bytes
    · rw [List.length_drop]
      omega
  · cases he : chunk.atEnd with
    | true =>
      have hlt := (h.atEnd he).1
      have heq := hatEnd he
      simp only [true_iff]
      omega
    | false =>
      have hfull : ¬ chunk.bytes.length < count := by
        intro hlt
        obtain ⟨_, e, he'⟩ := h.short hlt he
        rw [hh] at he'
        cases he'
      simp only [Bool.false_eq_true, false_iff]
      omega

section

variable [ByteSource σ]

theorem given_of_read {m m' : Manager σ} (h : m.Valid) {id : CursorId} {offset : Nat}
    (ho : m.cursors.offset? id = some offset) {count : Nat} {chunk : Chunk}
    (hr : m.read id count = (.ok chunk, m')) : Given m id offset count chunk m' := by
  have hv' : m'.Valid := by
    have := valid_read h id count
    rwa [hr] at this
  obtain ⟨cs, out, m₁, _, hp, ⟨e, _, _, hr'⟩ | ⟨hne, hr'⟩⟩ := exists_read h ho count
  · rw [hr'] at hr
    cases hr
  have hn := h.note (.requested id count) rfl
  have hv := hp.valid hn
  have ho₁ : m₁.cursors.offset? id = some offset := by rw [hp.cursors]; exact ho
  have hb := hv.le_offset ho₁
  have hlen := hv.length_buffered hb count
  have hle := hv.offset_le ho₁
  have hpull := hp.length_buffered hn (h.le_offset ho) (h.offset_le ho)
  obtain ⟨hdc, _, _, _, _, hdx, hdj⟩ := defer_fields m₁ (m₁.buffered offset count).length out
  rw [hr'] at hr
  simp only [Prod.mk.injEq, Except.ok.injEq] at hr
  obtain ⟨rfl, rfl⟩ := hr
  have hrec : received ((m₁.defer (m₁.buffered offset count).length out).advance id
      (offset + (m₁.buffered offset count).length)).journal = received m₁.journal := by
    rw [advance, received_shrink, received_cons rfl, received, hdj, received]
  constructor
  case valid => exact hv'
  case start => rfl
  case bytes =>
    show m₁.buffered offset count = List.take (m₁.buffered offset count).length _
    rw [hrec, hlen, hv.buffered_eq hb, List.take_eq_take_iff, List.length_drop]
    omega
  case length_le =>
    show (m₁.buffered offset count).length ≤ count
    omega
  case within =>
    show offset + (m₁.buffered offset count).length ≤ _
    rw [hrec]
    omega
  case offsets =>
    intro i
    rw [advance, shrink_cursors, CursorTable.offset?_put, hdc, hp.cursors]
    rfl
  case atEnd =>
    intro he
    have ho' : out = .ended := by simpa using he
    obtain ⟨hlt, heq⟩ := hpull.2 (by simp [ho'])
    refine ⟨hlt, ?_, by rw [hrec]; exact heq⟩
    rw [advance, shrink_exhausted]
    exact hdx.trans (hp.ended ho').2
  case short =>
    intro hlt he
    cases out with
    | satisfied => exact absurd (hpull.1 rfl) (Nat.ne_of_lt hlt)
    | ended => simp at he
    | failed e => exact ⟨hne e rfl, e, by rw [advance, shrink_held]; rfl⟩

/-- A read in the middle of a run, against all that the source hands out up to its first end: what
the run has asked of it, and any `further` calls that it answers. -/
theorem read_run (options : StreamOptions) (source : σ) (before after : List Step) {id : CursorId}
    {offset count : Nat} {chunk : Chunk}
    (ho : ((ofSource options source).run before).cursors.offset? id = some offset)
    (hr : (((ofSource options source).run before).read id count).1 = .ok chunk) :
    let m := (ofSource options source).run before
    let m' := (m.read id count).2
    let final := (ofSource options source).run (before ++ .read id count :: after)
    Answers source (calls final.journal) final.source ∧
      chunk.start = offset ∧
      chunk.bytes.length ≤ count ∧
      (∀ i, m'.cursors.offset? i =
        if i = id then some (offset + chunk.bytes.length) else m.cursors.offset? i) ∧
      (chunk.atEnd = true → chunk.bytes.length < count ∧
        ∃ c ∈ calls m'.journal, 0 < c.requested ∧ c.answer = .bytes []) ∧
      (chunk.bytes.length < count → chunk.atEnd = false → 1 ≤ chunk.bytes.length ∧
        ∃ e, m'.held = some e ∧ ∃ c ∈ calls final.journal, c.answer = .failed e) ∧
      ∀ further s', Answers final.source further s' →
        let stream := delivered (calls final.journal ++ further)
        offset + chunk.bytes.length ≤ stream.length ∧
          chunk.bytes = (stream.drop offset).take chunk.bytes.length ∧
          (chunk.atEnd = true → offset + chunk.bytes.length = stream.length) ∧
          ((∀ c ∈ calls final.journal, ∀ e, c.answer ≠ .failed e) →
            chunk.bytes.length = min count (stream.length - offset) ∧
              (chunk.atEnd = true ↔ stream.length < offset + count)) := by
  intro m m' final
  have hstart := valid_ofSource options source
  have h : m.Valid := valid_run hstart before
  have hg : Given m id offset count chunk m' := given_of_read h ho (Prod.ext hr rfl)
  have hfin : final = m'.run after := run_append _ before _
  obtain ⟨cs, hcs, _⟩ := (hfin ▸ later_run hg.valid after : Later m' final).exists_calls
  have hends : m'.exhausted = true →
      ∃ c ∈ calls m'.journal, 0 < c.requested ∧ c.ends = true := by
    have hlater : Later (ofSource options source) m' :=
      (later_run hstart before).trans (later_read h id count)
    exact fun hx => (hlater.ends hx).resolve_left Bool.false_ne_true
  have hcause : ∀ e, m'.held = some e → ∃ c ∈ calls final.journal, c.answer = .failed e := by
    intro e he
    obtain ⟨c, hc, hce⟩ := hg.valid.cause he
    exact ⟨c, hcs ▸ List.mem_append_left _ hc, hce⟩
  refine ⟨answers_run options source _, hg.start, hg.length_le, hg.offsets, fun he => ?_,
    fun hlt he => ?_, fun further s' _ => ?_⟩
  · obtain ⟨hlt, hx, _⟩ := hg.atEnd he
    obtain ⟨c, hc, hpos, hce⟩ := hends hx
    exact ⟨hlt, c, hc, hpos, by simpa [Call.ends] using hce⟩
  · obtain ⟨hne, e, hh⟩ := hg.short hlt he
    exact ⟨List.length_pos_iff.mpr hne, e, hh, hcause e hh⟩
  · obtain ⟨bs, hbs, hend⟩ := hg.valid.exists_delivered
      (fun hx => (hends hx).imp fun _ hc => ⟨hc.1, hc.2.2⟩) (cs ++ further)
    rw [← List.append_assoc, ← hcs] at hbs
    obtain ⟨hle, hbytes, hatEnd, hunheld⟩ := hg.of_append hbs hend
    refine ⟨hle, hbytes, hatEnd, fun hnever => hunheld ?_⟩
    refine Option.eq_none_iff_forall_ne_some.mpr fun e hh => ?_
    obtain ⟨c, hc, hce⟩ := hcause e hh
    exact hnever c hc e hce

end

/-- Five bytes with a failure before the fourth. -/
def broken : Script :=
  .ofPieces [.chunk [97, 98, 99], .failure ⟨.other, "broken"⟩, .chunk [100, 101]]

/-- A read that stops in front of the failure, between reads of another cursor, when the source has
been asked for nothing behind it. -/
theorem read_run_broken :
    let before : List Step := [.branch 0, .read 1 2]
    let after : List Step := [.read 1 1, .release 0]
    let m := (ofSource { readAhead := 1 } broken).run before
    let final := (ofSource { readAhead := 1 } broken).run (before ++ .read 0 5 :: after)
    m.cursors.offset? 0 = some 0 ∧ (m.read 0 5).1 = .ok ⟨0, [97, 98, 99], false⟩ ∧
      (∃ e, (m.read 0 5).2.held = some e ∧ ∃ c ∈ calls final.journal, c.answer = .failed e) ∧
      delivered (calls final.journal) = [97, 98, 99] ∧
      Answers final.source [⟨9, .bytes [100, 101]⟩] (ByteSource.fill final.source 9).2 ∧
      let stream := delivered (calls final.journal ++ [⟨9, .bytes [100, 101]⟩])
      stream = [97, 98, 99, 100, 101] ∧ ([97, 98, 99] : List UInt8) = (stream.drop 0).take 3 := by
  have ho : ((ofSource { readAhead := 1 } broken).run [.branch 0, .read 1 2]).cursors.offset? 0 =
      some 0 := rfl
  have hr : (((ofSource { readAhead := 1 } broken).run [.branch 0, .read 1 2]).read 0 5).1 =
      .ok ⟨0, [97, 98, 99], false⟩ := rfl
  obtain ⟨_, _, _, _, _, hshort, hstream⟩ :=
    read_run { readAhead := 1 } broken _ [.read 1 1, .release 0] ho hr
  have hfurther : Answers ((ofSource { readAhead := 1 } broken).run
      [.branch 0, .read 1 2, .read 0 5, .read 1 1, .release 0]).source [⟨9, .bytes [100, 101]⟩] _ :=
    .cons rfl (.nil _)
  exact ⟨ho, hr, (hshort (by decide) rfl).2, rfl, hfurther, rfl, (hstream _ _ hfurther).2.1⟩

end StreamPeg.Manager
