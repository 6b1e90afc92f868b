import StreamPeg.Proofs.Frame

/-!
# Plans that find the same

All that a plan does follows from what its reads bring, and a rule's plan ends with the first of
them that fails (`givesUp_plan`). So let a relation between managers keep them in `Lockstep`:
cursors at the same place read the same in related managers, and only a read can part them. A plan
that is carried out in two related managers, each time on a cursor at the same place, then gives the
same answer and stops at the same place, and the managers stay related for as long as no read has
failed (`endAlike_run`). This does not depend on the cursors, so one of the two runs may be on a
branch (`attempt_cases`).
-/

namespace StreamPeg

/-! ### Endings -/

/-- How a parse ends, and where its cursor stands then. -/
abbrev Ending := Except ParseFailure Unit × Option Nat

def Parser.ending {σ : Type} (p : Parser σ) (id : CursorId) (m : Manager σ) : Ending :=
  ((p id m).1, (p id m).2.cursors.offset? id)

theorem Parser.ending_eq {σ : Type} {p : Parser σ} {id : CursorId} {m m' : Manager σ}
    {result : Except ParseFailure Unit} (h : p id m = (result, m')) :
    ending p id m = (result, m'.cursors.offset? id) := by
  rw [ending, h]

theorem Parser.ending_congr {σ : Type} {p q : Parser σ} {id : CursorId} {m m' : Manager σ}
    (h : p id m = q id m') : ending p id m = ending q id m' :=
  ending_eq h

/-! ### Managers that read alike -/

/-- Valid managers that are related, and a cursor of each at the same place. -/
structure Beside {σ σ' : Type} (R : Manager σ → Manager σ' → Prop) (m : Manager σ) (id : CursorId)
    (m' : Manager σ') (id' : CursorId) (pos : Nat) : Prop where
  valid : m.Valid
  valid' : m'.Valid
  offset_eq : m.cursors.offset? id = some pos
  offset_eq' : m'.cursors.offset? id' = some pos
  related : R m m'

/-- The same answer and the same place, and managers that are still related if no failure of the
source has been met. -/
structure EndAlike {σ σ' : Type} (R : Manager σ → Manager σ' → Prop) (id id' : CursorId)
    (a : Except ParseFailure Unit × Manager σ) (b : Except ParseFailure Unit × Manager σ') :
    Prop where
  valid : a.2.Valid
  valid' : b.2.Valid
  answer : a.1 = b.1
  exists_offset : ∃ pos, a.2.cursors.offset? id = some pos ∧ b.2.cursors.offset? id' = some pos
  related : (∀ e, a.1 ≠ .error (.source e)) → R a.2 b.2

theorem Beside.endAlike {σ σ' : Type} {R : Manager σ → Manager σ' → Prop} {m : Manager σ}
    {m' : Manager σ'} {id id' : CursorId} {pos : Nat} (h : Beside R m id m' id' pos)
    (result : Except ParseFailure Unit) : EndAlike R id id' (result, m) (result, m') :=
  ⟨h.valid, h.valid', rfl, ⟨pos, h.offset_eq, h.offset_eq'⟩, fun _ => h.related⟩

variable {σ σ' : Type} [ByteSource σ] [ByteSource σ']

structure Lockstep (R : Manager σ → Manager σ' → Prop) : Prop where
  left : ∀ {m n : Manager σ} {m' : Manager σ'}, Course m [] n → R m m' → R n m'
  right : ∀ {m : Manager σ} {m' n' : Manager σ'}, Course m' [] n' → R m m' → R m n'
  read : ∀ {m : Manager σ} {m' : Manager σ'} {id id' : CursorId} {pos : Nat},
    Beside R m id m' id' pos → ∀ count, (m.read id count).1 = (m'.read id' count).1 ∧
      ∀ chunk, (m.read id count).1 = .ok chunk → R (m.read id count).2 (m'.read id' count).2

variable {R : Manager σ → Manager σ' → Prop} {m : Manager σ} {m' : Manager σ'} {id id' : CursorId}
  {pos : Nat}

theorem Beside.exists_read (hR : Lockstep R) (h : Beside R m id m' id' pos) (count : Nat) :
    (∃ chunk n n', m.read id count = (.ok chunk, n) ∧ m'.read id' count = (.ok chunk, n') ∧
        Beside R n id n' id' (pos + chunk.bytes.length)) ∨
      ∃ e n n', m.read id count = (.error e, n) ∧ m'.read id' count = (.error e, n') ∧
        m.Shifted id pos n ∧ m'.Shifted id' pos n' := by
  obtain ⟨hsame, hrel⟩ := hR.read h count
  rcases hr : m.read id count with ⟨e | chunk, n⟩ <;>
    rcases hr' : m'.read id' count with ⟨e' | chunk', n'⟩ <;>
    rw [hr, hr'] at hsame
  · cases hsame
    exact .inr ⟨e, n, n', rfl, rfl, (Manager.shifted_of_failed_read h.valid h.offset_eq hr).1,
      (Manager.shifted_of_failed_read h.valid' h.offset_eq' hr').1⟩
  · cases hsame
  · cases hsame
  · cases hsame
    rw [hr, hr'] at hrel
    have hs := (Manager.given_of_read h.valid h.offset_eq hr).shifted
    have hs' := (Manager.given_of_read h.valid' h.offset_eq' hr').shifted
    exact .inl ⟨chunk, n, n', rfl, rfl, hs.valid, hs'.valid, hs.offset_self, hs'.offset_self,
      hrel chunk rfl⟩

/-! ### Runs -/

namespace Plan

/-- Related managers, cursors at the same place, and the same plan. -/
theorem endAlike_run (hR : Lockstep R) {p : Plan} (hp : p.GivesUp)
    (h : Beside R m id m' id' pos) :
    EndAlike R id id' (p.run id m) (p.run id' m') := by
  induction p generalizing m m' id id' pos with
  | done result => exact h.endAlike result
  | read count next ih =>
    rcases h.exists_read hR count with ⟨chunk, n, n', hr, hr', hn⟩ | ⟨e, n, n', hr, hr', hs, hs'⟩
    · simp only [run, hr, hr']
      exact ih _ (hp.2 _) hn
    · simp only [run, hr, hr', hp.1 e]
      exact ⟨hs.valid, hs'.valid, rfl, ⟨pos, hs.offset_self, hs'.offset_self⟩,
        fun hne => absurd rfl (hne e)⟩
  | offset next ih =>
    simp only [run, Manager.offset, h.offset_eq, h.offset_eq']
    exact ih _ (hp.2 pos) h
  | stall rule part next ih =>
    have hc : Course m [] (m.note (.stalled rule part)) :=
      .step (.stall rule part) (by simp) (.nil _)
    have hc' : Course m' [] (m'.note (.stalled rule part)) :=
      .step (.stall rule part) (by simp) (.nil _)
    exact ih hp.2 ⟨h.valid.note _ rfl, h.valid'.note _ rfl, h.offset_eq, h.offset_eq',
      hR.left hc (hR.right hc' h.related)⟩
  | attempt tried next ih ih' =>
    obtain ⟨n, k, after, hb, hs, ha, hc, ho, hk⟩ :=
      Parser.exists_attempt tried.shifts_run h.valid h.offset_eq
    obtain ⟨n', k', after', hb', hs', ha', hc', ho', hk'⟩ :=
      Parser.exists_attempt tried.shifts_run h.valid' h.offset_eq'
    have hin := ih hp.1 ⟨hs.valid, hs'.valid, hs.offset_self, hs'.offset_self,
      hR.left hb (hR.right hb' h.related)⟩
    obtain ⟨_, hpos, hpos'⟩ := hin.exists_offset
    obtain rfl := Option.some.inj (hpos.symm.trans ho)
    obtain rfl := Option.some.inj (hpos'.symm.trans ho')
    rw [← hin.answer] at ha' hk'
    simp only [run, ha, ha']
    -- What `next` does with a failure of the source is to end, so the relation is not needed again.
    by_cases he : ∃ e, (tried.run m.nextId n).1 = .error (.source e)
    · obtain ⟨e, he⟩ := he
      rw [he, hp.2.1 e]
      exact ⟨hk.valid, hk'.valid, rfl, ⟨_, hk.offset_self, hk'.offset_self⟩,
        fun hne => absurd rfl (hne e)⟩
    · rw [not_exists] at he
      exact ih' _ (hp.2.2 _ fun _ _ => trivial) ⟨hk.valid, hk'.valid, hk.offset_self,
        hk'.offset_self, hR.left hc (hR.right hc' (hin.related he))⟩

/-- Wherever it is carried out, it ends in the same way. -/
theorem ending_run_eq (hR : Lockstep R) {p : Plan} (hp : p.GivesUp)
    (h : Beside R m id m' id' pos) :
    Parser.ending p.run id m = Parser.ending p.run id' m' := by
  have hends := endAlike_run hR hp h
  obtain ⟨after, ho, ho'⟩ := hends.exists_offset
  rw [Parser.ending, Parser.ending, hends.answer, ho, ho']

/-- A plan in place, and an attempt at the same place. The attempt keeps what matches, and where it
fails its cursor has not moved. -/
theorem attempt_cases (hR : Lockstep R) {p : Plan} (hp : p.GivesUp)
    (h : Beside R m id m' id' pos) :
    (∃ after n', Parser.ending p.run id m = (.ok (), some after) ∧
        Parser.attempt p.run id' m' = (.ok (), n') ∧ pos ≤ after ∧
        Beside R (p.run id m).2 id n' id' after) ∨
      ∃ failure after n', Parser.ending p.run id m = (.error failure, some after) ∧
        Parser.attempt p.run id' m' = (.error failure, n') ∧ n'.Valid ∧
        n'.cursors.offset? id' = some pos ∧
        ((∀ e, failure ≠ .source e) → R (p.run id m).2 n') := by
  obtain ⟨n, k, after, hb, hs, ha, hc, ho, hk⟩ :=
    Parser.exists_attempt p.shifts_run h.valid' h.offset_eq'
  have hbranch : Beside R m id n m'.nextId pos :=
    ⟨h.valid, hs.valid, h.offset_eq, hs.offset_self, hR.right hb h.related⟩
  have hin := endAlike_run hR hp hbranch
  have hending := ending_run_eq hR hp hbranch
  rw [Parser.ending, Parser.ending, ho] at hending
  obtain ⟨hanswer, hoffset⟩ := Prod.mk.inj hending
  rw [← hanswer] at ha hk
  have hle : pos ≤ after := by
    obtain ⟨after', hle, hs'⟩ := p.shifts_run h.valid h.offset_eq
    have ho' := hs'.offset_self
    rw [hoffset] at ho'
    cases ho'
    exact hle
  rw [Parser.ending, hoffset]
  rcases hr : (p.run id m).1 with failure | _
  · rw [hr] at ha hk
    rw [if_neg (by simp)] at hk
    refine .inr ⟨failure, after, k, rfl, ha, hk.valid, hk.offset_self, fun hne => ?_⟩
    refine hR.right hc (hin.related fun e he => hne e ?_)
    rw [hr] at he
    exact Except.error.inj he
  · rw [hr] at ha hk
    rw [if_pos rfl] at hk
    refine .inl ⟨after, k, rfl, ha, hle, hin.valid, hk.valid, hoffset, hk.offset_self, ?_⟩
    exact hR.right hc (hin.related (by simp [hr]))

end Plan

end StreamPeg
