import StreamPeg.Proofs.Abreast
import StreamPeg.Proofs.Failures

/-!
# The same once more

What a read has brought is there for every later read of the same place: the bytes that have come
stay, and neither the end of the data nor a failure that is held back goes away while reads succeed
(`Ahead`). So whatever a plan has done, unless the source has failed, it does again on any cursor at
the place where it began, and asks nothing more of the source (`Plan.brings_again`).
-/

namespace StreamPeg

variable {σ : Type}

namespace Manager

/-! ### Managers ahead of others -/

/-- What had come is still there, and if no more could come for now, no more has. -/
structure Ahead (m m' : Manager σ) : Prop where
  kept : received m.journal <+: received m'.journal
  shut : m.held ≠ none ∨ m.exhausted = true →
    received m'.journal = received m.journal ∧ m'.held = m.held ∧ m'.exhausted = m.exhausted

variable {m m' m'' n : Manager σ} {id id' : CursorId} {pos count : Nat} {chunk : Chunk}

namespace Ahead

theorem trans (h : Ahead m m') (h' : Ahead m' m'') : Ahead m m'' where
  kept := h.kept.trans h'.kept
  shut hs := by
    obtain ⟨hr, hh, hx⟩ := h.shut hs
    obtain ⟨hr', hh', hx'⟩ := h'.shut (by rwa [hh, hx])
    exact ⟨hr'.trans hr, hh'.trans hh, hx'.trans hx⟩

theorem of_quiet (h : Quiet m m') : Ahead m m' := by
  have hr : received m'.journal = received m.journal := by
    rw [received, h.calls_eq, received]
  exact ⟨hr ▸ List.prefix_refl _, fun _ => ⟨hr, h.held, h.exhausted⟩⟩

theorem of_course [ByteSource σ] (h : Course m [] m') : Ahead m m' :=
  .of_quiet (Abreast.of_course h).toQuiet

end Ahead

variable [ByteSource σ]

/-- A read that succeeds takes nothing away. -/
theorem ahead_read (h : m.Valid) (ho : m.cursors.offset? id = some pos)
    (hr : m.read id count = (.ok chunk, m')) : Ahead m m' := by
  cases hh : m.held with
  | some e =>
    have hs : ¬ m.Starved id count := by
      intro hs
      rw [read_of_starved h.toSound hh hs] at hr
      cases hr
    have hquiet := (read_of_fed h.toSound hh ho hs).2
    rw [hr] at hquiet
    exact .of_quiet hquiet
  | none =>
    obtain ⟨cs, hasked, -⟩ := exists_asked_of_read h ho count
    rw [hr] at hasked
    refine ⟨⟨given cs, hasked.received_eq.symm⟩, fun hs => ?_⟩
    have hx : m.exhausted = true := hs.resolve_left (not_not_intro hh)
    have hnil := hasked.shut hx
    have hx' : m'.exhausted = true := by rw [hasked.exhausted, hx, Bool.true_or]
    refine ⟨by rw [hasked.received_eq, hnil, given_nil, List.append_nil], ?_, by rw [hx, hx']⟩
    rw [hh]
    by_contra hne
    rw [(given_of_read h ho hr).valid.held hne] at hx'
    cases hx'

/-! ### Reading again -/

/-- All that has come of what was asked for. -/
theorem bytes_of_read (h : m.Valid) (ho : m.cursors.offset? id = some pos)
    (hr : m.read id count = (.ok chunk, m')) :
    chunk.bytes = ((received m'.journal).drop pos).take count := by
  obtain ⟨cs, out, n, _, hp, ⟨e, _, _, hr'⟩ | ⟨_, hr'⟩⟩ := exists_read h ho count
  · rw [hr] at hr'
    cases hr'
  · rw [hr] at hr'
    obtain ⟨hchunk, rfl⟩ := Prod.mk.inj hr'
    cases hchunk
    have hv := hp.valid (h.note _ rfl)
    have hb : n.base ≤ pos := hp.base ▸ h.le_offset ho
    obtain ⟨_, _, _, _, _, _, hj⟩ := defer_fields n (n.buffered pos count).length out
    have hrec : received (n.defer (n.buffered pos count).length out).journal =
        received n.journal := by rw [received, hj, received]
    rw [advance, received_shrink, received_cons rfl, hrec]
    exact hv.buffered_eq hb count

/-- What has been brought is in the window of every manager ahead. -/
theorem Ahead.buffered_eq (h : m.Valid) (ho : m.cursors.offset? id = some pos)
    (hr : m.read id count = (.ok chunk, m')) (ha : Ahead m' n) (hn : n.Sound)
    (hb : n.base ≤ pos) : n.buffered pos count = chunk.bytes := by
  have hg := given_of_read h ho hr
  have hbytes := bytes_of_read h ho hr
  rw [hn.buffered_eq hb]
  by_cases hlt : chunk.bytes.length < count
  · have hshut : m'.held ≠ none ∨ m'.exhausted = true := by
      cases hend : chunk.atEnd with
      | true => exact .inr (hg.atEnd hend).2.1
      | false =>
        obtain ⟨_, e, he⟩ := hg.short hlt hend
        exact .inl (by simp [he])
    rw [(ha.shut hshut).1, hbytes]
  · obtain ⟨bs, hbs⟩ := ha.kept
    have hw := hg.within
    have hlen : count ≤ ((received m'.journal).drop pos).length := by
      rw [List.length_drop]
      omega
    rw [← hbs, List.drop_append_of_le_length (by omega), List.take_append_of_le_length hlen, hbytes]

theorem read_of_full (ho : m.cursors.offset? id = some pos)
    (hfull : (m.buffered pos count).length = count) :
    (m.read id count).1 = .ok ⟨pos, m.buffered pos count, false⟩ ∧
      Abreast m (m.read id count).2 := by
  unfold read
  rw [ho]
  simp only [hfull, Nat.sub_self, pull, if_true]
  exact ⟨rfl, (Abreast.note m rfl).trans (.advance _ _ _)⟩

theorem read_of_exhausted (hh : m.held = none) (hx : m.exhausted = true)
    (ho : m.cursors.offset? id = some pos) (hshort : (m.buffered pos count).length < count) :
    (m.read id count).1 = .ok ⟨pos, m.buffered pos count, true⟩ ∧
      Abreast m (m.read id count).2 := by
  have hp : (m.note (.requested id count)).pull (count - (m.buffered pos count).length) =
      (.ended, m.note (.requested id count)) := by
    unfold pull
    rw [if_neg (by omega), show (m.note (.requested id count)).held = none from hh]
    exact if_pos hx
  unfold read
  rw [ho]
  simp only [hp]
  exact ⟨rfl, (Abreast.note m rfl).trans (.advance _ _ _)⟩

/-- A read that has succeeded succeeds again, with the same chunk. -/
theorem Ahead.read_again (h : m.Valid) (ho : m.cursors.offset? id = some pos)
    (hr : m.read id count = (.ok chunk, m')) (ha : Ahead m' n) (hn : n.Valid)
    (ho' : n.cursors.offset? id' = some pos) :
    (n.read id' count).1 = .ok chunk ∧ Abreast n (n.read id' count).2 := by
  have hg := given_of_read h ho hr
  have hbytes := ha.buffered_eq h ho hr hn.toSound (hn.le_offset ho')
  obtain ⟨start, bytes, atEnd⟩ := chunk
  obtain rfl : start = pos := hg.start
  dsimp only at hbytes
  by_cases hlt : bytes.length < count
  · cases atEnd with
    | true =>
      have hx := (hg.atEnd rfl).2.1
      have hh : m'.held = none := by
        by_contra hne
        rw [hg.valid.held hne] at hx
        cases hx
      obtain ⟨_, hh', hx'⟩ := ha.shut (.inr hx)
      have hread := read_of_exhausted (hh'.trans hh) (hx'.trans hx) ho' (by rwa [hbytes])
      rwa [hbytes] at hread
    | false =>
      obtain ⟨hne, e, he⟩ := hg.short hlt rfl
      have he' : n.held = some e := by rw [(ha.shut (.inl (by simp [he]))).2.1, he]
      have hfed : ¬ n.Starved id' count := by
        rw [← hn.buffered_eq_nil_iff ho' (by omega), hbytes]
        exact hne
      obtain ⟨hread, hquiet⟩ := read_of_fed hn.toSound he' ho' hfed
      obtain ⟨_, hasked, -⟩ := exists_asked_of_read hn ho' count
      rw [hbytes] at hread
      exact ⟨hread, hquiet, hasked.readAhead⟩
  · have hfull : bytes.length = count := Nat.le_antisymm hg.length_le (Nat.le_of_not_lt hlt)
    have hread := read_of_full ho' (by rwa [hbytes])
    have hend : atEnd = false := by
      by_contra hend
      exact hlt (hg.atEnd (by simpa using hend)).1
    rwa [hbytes, ← hend] at hread

end Manager

/-! ### Plans carried out again -/

namespace Plan

variable [ByteSource σ] {m n : Manager σ} {id id' : CursorId} {pos after : Nat} {p : Plan}

theorem ahead_run (hp : p.GivesUp) (h : m.Valid) (ho : m.cursors.offset? id = some pos)
    (hne : ∀ e, (p.run id m).1 ≠ .error (.source e)) : m.Ahead (p.run id m).2 := by
  induction p generalizing m id pos with
  | done result => exact .of_quiet (.refl m)
  | read count next ih =>
    rcases hr : m.read id count with ⟨e | chunk, m'⟩
    · simp only [run, hr, hp.1 e] at hne
      exact absurd rfl (hne e)
    · have hs := (Manager.given_of_read h ho hr).shifted
      simp only [run, hr] at hne ⊢
      exact (Manager.ahead_read h ho hr).trans (ih _ (hp.2 _) hs.valid hs.offset_self hne)
  | offset next ih =>
    simp only [run, Manager.offset, ho] at hne ⊢
    exact ih _ (hp.2 pos) h ho hne
  | stall rule part next ih =>
    exact (Manager.Ahead.of_quiet (Manager.quiet_note m rfl)).trans
      (ih hp.2 (h.note _ rfl) ho hne)
  | attempt tried next ih ih' =>
    obtain ⟨n, k, _, hb, hs, ha, hc, _, hk⟩ := Parser.exists_attempt tried.shifts_run h ho
    simp only [run, ha] at hne ⊢
    have hne' : ∀ e, (tried.run m.nextId n).1 ≠ .error (.source e) := by
      intro e he
      rw [he, hp.2.1 e] at hne
      exact hne e rfl
    exact (((Manager.Ahead.of_course hb).trans (ih hp.1 hs.valid hs.offset_self hne')).trans
      (.of_course hc)).trans (ih' _ (hp.2.2 _ fun _ _ => trivial) hk.valid hk.offset_self hne)

/-- A plan that has not met a failure of the source, and the same plan on a cursor that is where the
first one began. -/
theorem run_again (hp : p.GivesUp) (h : m.Valid) (ho : m.cursors.offset? id = some pos)
    (hne : ∀ e, (p.run id m).1 ≠ .error (.source e)) (ha : (p.run id m).2.Ahead n)
    (hn : n.Valid) (ho' : n.cursors.offset? id' = some pos) :
    (p.run id' n).1 = (p.run id m).1 ∧ n.Abreast (p.run id' n).2 ∧
      (p.run id' n).2.cursors.offset? id' = (p.run id m).2.cursors.offset? id := by
  induction p generalizing m n id id' pos with
  | done result => exact ⟨rfl, .refl n, ho'.trans ho.symm⟩
  | read count next ih =>
    rcases hr : m.read id count with ⟨e | chunk, m'⟩
    · simp only [run, hr, hp.1 e] at hne
      exact absurd rfl (hne e)
    · have hs := (Manager.given_of_read h ho hr).shifted
      simp only [run, hr] at hne ha ⊢
      have hahead := (ahead_run (hp.2 _) hs.valid hs.offset_self hne).trans ha
      obtain ⟨hsame, hab⟩ := hahead.read_again h ho hr hn ho'
      rcases hr' : n.read id' count with ⟨result, n'⟩
      rw [hr'] at hsame hab
      dsimp only at hsame hab
      subst hsame
      have hs' := (Manager.given_of_read hn ho' hr').shifted
      obtain ⟨hres, hab', hoff⟩ := ih _ (hp.2 _) hs.valid hs.offset_self hne
        (ha.trans (.of_quiet hab.toQuiet)) hs'.valid hs'.offset_self
      exact ⟨hres, hab.trans hab', hoff⟩
  | offset next ih =>
    simp only [run, Manager.offset, ho, ho'] at hne ha ⊢
    exact ih _ (hp.2 _) h ho hne ha hn ho'
  | stall rule part next ih =>
    have hnote : n.Abreast (n.note (.stalled rule part)) := .note n rfl
    obtain ⟨hres, hab, hoff⟩ := ih hp.2 (h.note (.stalled rule part) rfl) ho hne
      (ha.trans (.of_quiet hnote.toQuiet)) (hn.note (.stalled rule part) rfl) ho'
    exact ⟨hres, hnote.trans hab, hoff⟩
  | attempt tried next ih ih' =>
    obtain ⟨k, l, after, _, hk, hat, hc, hin, hl⟩ := Parser.exists_attempt tried.shifts_run h ho
    obtain ⟨k', l', after', hb', hk', hat', hc', hin', hl'⟩ :=
      Parser.exists_attempt tried.shifts_run hn ho'
    simp only [run, hat] at hne ha ⊢
    have hne' : ∀ e, (tried.run m.nextId k).1 ≠ .error (.source e) := by
      intro e he
      rw [he, hp.2.1 e] at hne
      exact hne e rfl
    have hahead := ((Manager.Ahead.of_course hc).trans
      (ahead_run (hp.2.2 _ fun _ _ => trivial) hl.valid hl.offset_self hne)).trans ha
    have hbranch := Manager.Abreast.of_course hb'
    obtain ⟨hres, hab, hoff⟩ := ih hp.1 hk.valid hk.offset_self hne'
      (hahead.trans (.of_quiet hbranch.toQuiet)) hk'.valid hk'.offset_self
    obtain rfl := Option.some.inj (hin'.symm.trans (hoff.trans hin))
    rw [hres] at hat' hl'
    have hto := (hbranch.trans hab).trans (.of_course hc')
    obtain ⟨hres', hab', hoff'⟩ := ih' _ (hp.2.2 _ fun _ _ => trivial) hl.valid hl.offset_self hne
      (ha.trans (.of_quiet hto.toQuiet)) hl'.valid hl'.offset_self
    simp only [hat']
    exact ⟨hres', hto.trans hab', hoff'⟩

/-- Wherever the plan is carried out from this place, in any manager abreast of the one, it has this
result, comes to that place and leaves a manager abreast of the other. -/
def Takes (p : Plan) (m : Manager σ) (pos : Nat) (result : Except ParseFailure Unit) (after : Nat)
    (n : Manager σ) : Prop :=
  ∀ (m' : Manager σ) (id' : CursorId), m.Abreast m' → m'.Valid →
    m'.cursors.offset? id' = some pos → ∃ n', p.run id' m' = (result, n') ∧ n.Abreast n' ∧
      n'.Valid ∧ n'.cursors.offset? id' = some after

theorem takes_run (h : m.Valid) (ho : m.cursors.offset? id = some pos)
    (hafter : (p.run id m).2.cursors.offset? id = some after) :
    p.Takes m pos (p.run id m).1 after (p.run id m).2 := by
  intro m' id' hab hm' ho'
  obtain ⟨hsame, pos', hb⟩ := Parser.steady_run p ⟨h, hm', ho, ho', hab⟩
  obtain rfl := Option.some.inj (hb.offset_eq.symm.trans hafter)
  exact ⟨(p.run id' m').2, Prod.ext hsame.symm rfl, hb.related, hb.valid', hb.offset_eq'⟩

theorem takes_again (hp : p.GivesUp) (h : m.Valid) (ho : m.cursors.offset? id = some pos)
    (hafter : (p.run id m).2.cursors.offset? id = some after)
    (hne : ∀ e, (p.run id m).1 ≠ .error (.source e)) (ha : (p.run id m).2.Ahead n) :
    p.Takes n pos (p.run id m).1 after n := by
  intro n' id' hab hn' ho'
  obtain ⟨hres, hab', hoff⟩ := run_again hp h ho hne (ha.trans (.of_quiet hab.toQuiet)) hn' ho'
  obtain ⟨_, _, hs⟩ := p.shifts_run hn' ho'
  exact ⟨(p.run id' n').2, Prod.ext hres rfl, hab.trans hab', hs.valid, hoff.trans hafter⟩

end Plan

end StreamPeg
