import StreamPeg.Proofs.Lockstep
import StreamPeg.Proofs.Demand
import StreamPeg.Proofs.Exact

/-!
# Managers abreast

Two relations keep managers in `Lockstep`. Managers are `Abreast` if their source is in the same
state and has brought the same so far, as before and after anything that asks nothing of it;
whatever the source is like, it then answers both in the same way (`lockstep_abreast`), also if that
is by failing (`Parser.Steady`), so what is tried on a branch ends as it would have ended in place.
Or two managers, be it of different sources,
have the same feed on offer (`lockstep_offers`), so what is found at a place does not depend on what
has been looked at before (`Meets.ending_run_eq`).
-/

namespace StreamPeg

variable {σ σ' : Type}

namespace Manager

/-! ### The same source in the same state -/

structure Abreast (m m' : Manager σ) : Prop extends Quiet m m' where
  readAhead : m'.readAhead = m.readAhead

namespace Abreast

variable {m m' m'' : Manager σ}

theorem refl (m : Manager σ) : Abreast m m := ⟨.refl m, rfl⟩

theorem symm (h : Abreast m m') : Abreast m' m where
  calls_eq := h.calls_eq.symm
  exhausted := h.exhausted.symm
  source := h.source.symm
  held := h.held.symm
  readAhead := h.readAhead.symm

theorem trans (h : Abreast m m') (h' : Abreast m' m'') : Abreast m m'' :=
  ⟨h.toQuiet.trans h'.toQuiet, h'.readAhead.trans h.readAhead⟩

theorem received_eq (h : Abreast m m') : received m'.journal = received m.journal := by
  rw [received, h.calls_eq, received]

theorem note (m : Manager σ) {event : Event} (he : event.call? = none) : Abreast m (m.note event) :=
  ⟨quiet_note m he, rfl⟩

theorem advance (m : Manager σ) (id : CursorId) (offset : Nat) :
    Abreast m (m.advance id offset) :=
  ⟨quiet_advance m id offset, (Unmarked.updateShrink m _ rfl).readAhead⟩

/-- What has come is there in both windows, wherever they start. -/
theorem buffered_eq (h : Abreast m m') (hm : m.Sound) (hm' : m'.Sound) {offset : Nat}
    (ho : m.base ≤ offset) (ho' : m'.base ≤ offset) (count : Nat) :
    m'.buffered offset count = m.buffered offset count := by
  rw [hm.buffered_eq ho, hm'.buffered_eq ho', h.received_eq]

theorem defer (h : Abreast m m') (available : Nat) (out : Pulled) :
    Abreast (m.defer available out) (m'.defer available out) := by
  cases out with
  | satisfied | ended => exact h
  | failed e =>
    refine ⟨⟨?_, h.exhausted, h.source, rfl⟩, h.readAhead⟩
    simp only [Manager.defer]
    rw [calls_cons rfl, calls_cons rfl, h.calls_eq]

variable [ByteSource σ]

theorem of_course (h : Course m [] m') : Abreast m m' := by
  generalize hx : ([] : List (Reading σ)) = xs at h
  induction h with
  | nil m => exact .refl m
  | step s hs _ ih => exact .trans ⟨quiet_step _ hs, (unmarked_step _ hs).readAhead⟩ (ih hx)
  | read x _ _ => cases hx

/-- One request after the other is the same. -/
theorem draw (h : Abreast m m') (tries needed wanted : Nat) :
    (draw tries needed wanted m).1 = (Manager.draw tries needed wanted m').1 ∧
      Abreast (Manager.draw tries needed wanted m).2 (Manager.draw tries needed wanted m').2 := by
  induction tries generalizing needed wanted m m' with
  | zero => exact ⟨rfl, h⟩
  | succ tries ih =>
    unfold Manager.draw
    by_cases hn : needed = 0
    · rw [if_pos hn, if_pos hn]
      exact ⟨rfl, h⟩
    rw [if_neg hn, if_neg hn, h.source]
    rcases ByteSource.fill m.source wanted with ⟨(_ | ⟨b, bs⟩) | e, s⟩
    · refine ⟨rfl, ⟨?_, rfl, rfl, h.held⟩, h.readAhead⟩
      have he (k : Nat) : (Event.exhausted k).call? = none := rfl
      simp only [calls_cons (he _), calls_filled, h.calls_eq]
    · refine ih ?_ _ _
      refine ⟨⟨?_, h.exhausted, rfl, h.held⟩, h.readAhead⟩
      rw [calls_filled, calls_filled, h.calls_eq]
    · refine ⟨rfl, ⟨?_, h.exhausted, rfl, h.held⟩, h.readAhead⟩
      simp only [calls_filled, h.calls_eq]

theorem pull (h : Abreast m m') (needed : Nat) :
    (m.pull needed).1 = (m'.pull needed).1 ∧ Abreast (m.pull needed).2 (m'.pull needed).2 := by
  unfold Manager.pull
  by_cases hn : needed = 0
  · rw [if_pos hn, if_pos hn]
    exact ⟨rfl, h⟩
  rw [if_neg hn, if_neg hn, h.held, h.exhausted, h.readAhead]
  cases m.held with
  | some e => exact ⟨rfl, ⟨h.calls_eq, rfl, h.source, rfl⟩, rfl⟩
  | none =>
    by_cases hx : m.exhausted
    · simp only [hx, if_true]
      exact ⟨trivial, h⟩
    · simp only [hx]
      exact h.draw needed needed _

end Abreast

variable [ByteSource σ]

/-- Cursors at the same place of a source in the same state read the same, and leave it in the same
state again. -/
theorem Abreast.read {m m' : Manager σ} {id id' : CursorId} {pos : Nat}
    (h : Beside Abreast m id m' id' pos) (count : Nat) :
    (m.read id count).1 = (m'.read id' count).1 ∧
      Abreast (m.read id count).2 (m'.read id' count).2 := by
  obtain ⟨_, out, n, hq, hp, hr⟩ := exists_read h.valid h.offset_eq count
  obtain ⟨_, out', n', hq', hp', hr'⟩ := exists_read h.valid' h.offset_eq' count
  have hb : m.base ≤ pos := h.valid.le_offset h.offset_eq
  have hb' : m'.base ≤ pos := h.valid'.le_offset h.offset_eq'
  have hnote : Abreast (m.note (.requested id count)) (m'.note (.requested id' count)) :=
    ((Abreast.note m rfl).symm.trans h.related).trans (.note m' rfl)
  -- The windows may begin at different places, but not behind the cursors.
  rw [h.related.buffered_eq h.valid.toSound h.valid'.toSound hb hb'] at hq'
  obtain ⟨hout, hn⟩ := hnote.pull (count - (m.buffered pos count).length)
  rw [hq, hq'] at hout hn
  dsimp only at hout hn
  subst hout
  have hbytes : n'.buffered pos count = n.buffered pos count :=
    hn.buffered_eq (hp.valid (h.valid.note _ rfl)).toSound
      (hp'.valid (h.valid'.note _ rfl)).toSound (hp.base ▸ hb) (hp'.base ▸ hb') count
  rw [hbytes] at hr'
  have hafter := hn.defer (n.buffered pos count).length out
  rcases hr with ⟨e, rfl, hnil, hr⟩ | ⟨hne, hr⟩ <;>
    rcases hr' with ⟨e', he', hnil', hr'⟩ | ⟨hne', hr'⟩
  · cases he'
    rw [hr, hr']
    exact ⟨rfl, hn⟩
  · exact absurd hnil (hne' e rfl)
  · exact absurd hnil' (hne e' he')
  · rw [hr, hr']
    exact ⟨rfl, ((Abreast.advance _ _ _).symm.trans hafter).trans (.advance _ _ _)⟩

theorem lockstep_abreast : Lockstep (Abreast (σ := σ)) where
  left hc h := (Abreast.of_course hc).symm.trans h
  right hc h := h.trans (.of_course hc)
  read h count := ⟨(Abreast.read h count).1, fun _ _ => (Abreast.read h count).2⟩

end Manager

/-! ### Parsers abreast -/

namespace Parser

variable {m m' : Manager σ} {id id' : CursorId} {pos : Nat} {p : Parser σ}

/-- Whether or not the source fails, what it does and where it stops is the same in managers that
are abreast, and they are so afterwards. -/
def Steady (p : Parser σ) : Prop :=
  ∀ {m m' : Manager σ} {id id' : CursorId} {pos : Nat}, Beside Manager.Abreast m id m' id' pos →
    (p id m).1 = (p id' m').1 ∧
      ∃ pos', Beside Manager.Abreast (p id m).2 id (p id' m').2 id' pos'

variable [ByteSource σ]

theorem Steady.attempt (hp : p.Steady) (hs : p.Shifts)
    (h : Beside Manager.Abreast m id m' id' pos) :
    (attempt p id m).1 = (attempt p id' m').1 ∧
      ∃ pos', ((attempt p id m).1 ≠ .ok () → pos' = pos) ∧
        Beside Manager.Abreast (attempt p id m).2 id (attempt p id' m').2 id' pos' := by
  obtain ⟨n, k, after, hb, hn, ha, hc, ho, hk⟩ := exists_attempt hs h.valid h.offset_eq
  obtain ⟨n', k', after', hb', hn', ha', hc', ho', hk'⟩ := exists_attempt hs h.valid' h.offset_eq'
  obtain ⟨hsame, _, hin⟩ := hp ⟨hn.valid, hn'.valid, hn.offset_self, hn'.offset_self,
    Manager.lockstep_abreast.left hb (Manager.lockstep_abreast.right hb' h.related)⟩
  obtain rfl := Option.some.inj (hin.offset_eq.symm.trans ho)
  obtain rfl := Option.some.inj (hin.offset_eq'.symm.trans ho')
  rw [← hsame] at ha' hk'
  rw [ha, ha']
  exact ⟨rfl, _, fun hne => if_neg hne, hk.valid, hk'.valid, hk.offset_self, hk'.offset_self,
    Manager.lockstep_abreast.left hc (Manager.lockstep_abreast.right hc' hin.related)⟩

theorem steady_run (p : Plan) : (p.run : Parser σ).Steady := by
  intro m m' id id' pos h
  induction p generalizing m m' id id' pos with
  | done result => exact ⟨rfl, pos, h⟩
  | read count next ih =>
    obtain ⟨hsame, hrel⟩ := Manager.Abreast.read h count
    rcases h.exists_read Manager.lockstep_abreast count with
      ⟨chunk, n, n', hr, hr', hn⟩ | ⟨e, n, n', hr, hr', hs, hs'⟩
    · simp only [Plan.run, hr, hr']
      exact ih _ hn
    · rw [hr, hr'] at hrel
      simp only [Plan.run, hr, hr']
      exact ih _ ⟨hs.valid, hs'.valid, hs.offset_self, hs'.offset_self, hrel⟩
  | offset next ih =>
    simp only [Plan.run, Manager.offset, h.offset_eq, h.offset_eq']
    exact ih _ h
  | stall rule part next ih =>
    exact ih ⟨h.valid.note _ rfl, h.valid'.note _ rfl, h.offset_eq, h.offset_eq',
      ((Manager.Abreast.note m rfl).symm.trans h.related).trans (.note m' rfl)⟩
  | attempt tried next ih ih' =>
    obtain ⟨hsame, _, _, hn⟩ := Steady.attempt (fun h => ih h) tried.shifts_run h
    simp only [Plan.run, hsame]
    exact ih' _ hn

end Parser

namespace Manager

/-! ### The same feed -/

variable [ByteSource σ] [ByteSource σ'] {f : Feed}

theorem Offers.of_course {m m' : Manager σ} (hc : Course m [] m') (h : m.Offers f) : m'.Offers f :=
  (Abreast.of_course hc).toQuiet.offers h

/-- Two managers may have come by the feed in different ways, and be those of different sources. -/
theorem lockstep_offers (f : Feed) :
    Lockstep fun (m : Manager σ) (m' : Manager σ') => m.Offers f ∧ m'.Offers f where
  left hc h := ⟨h.1.of_course hc, h.2⟩
  right hc h := ⟨h.1, h.2.of_course hc⟩
  read := by
    intro m m' id id' pos h count
    obtain ⟨ha, hf⟩ := h.related.1.read h.valid h.offset_eq count
    obtain ⟨ha', hf'⟩ := h.related.2.read h.valid' h.offset_eq' count
    exact ⟨ha.trans ha'.symm, fun chunk hc => ⟨hf chunk hc, hf' chunk (by rw [ha', ← ha, hc])⟩⟩

end Manager

namespace Meets

variable [ByteSource σ] [ByteSource σ'] {f : Feed} {m : Manager σ} {m' : Manager σ'}
  {id id' : CursorId} {pos : Nat} {p : Plan}

theorem beside (h : Meets f m id pos) (h' : Meets f m' id' pos) :
    Beside (fun (m : Manager σ) (m' : Manager σ') => m.Offers f ∧ m'.Offers f) m id m' id' pos :=
  ⟨h.valid, h'.valid, h.offset_eq, h'.offset_eq, h.offers, h'.offers⟩

/-- Only what is on offer decides how a plan ends. -/
theorem ending_run_eq (h : Meets f m id pos) (h' : Meets f m' id' pos) (hp : p.GivesUp) :
    Parser.ending p.run id m = Parser.ending p.run id' m' :=
  Plan.ending_run_eq (Manager.lockstep_offers f) hp (h.beside h')

/-- The offer stands for as long as the source has not failed. -/
theorem run (h : Meets f m id pos) (hp : p.GivesUp)
    (hne : ∀ e, (p.run id m).1 ≠ .error (.source e)) : ∃ pos', Meets f (p.run id m).2 id pos' := by
  have hends := Plan.endAlike_run (Manager.lockstep_offers f) hp (h.beside h)
  obtain ⟨pos', ho, _⟩ := hends.exists_offset
  exact ⟨pos', hends.valid, ho, (hends.related hne).1⟩

end Meets

end StreamPeg
