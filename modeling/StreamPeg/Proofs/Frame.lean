import StreamPeg.Parse.Action
import StreamPeg.Proofs.GivesUp

/-!
# What a parse leaves alone

Whatever its outcome, a parse with a live cursor has at most moved this cursor on, and ends with the
same cursors that it began with: every branch that it makes is adopted or released before it
returns (`Plan.shifts_run`). Its cursor is known to the manager all the while (`FailsWith.known`).
With a cursor that is not live it does nothing at all. All this holds of any plan that gives up with
the source, and so of any parse (`parser_frame`).
-/

namespace StreamPeg

variable {σ : Type}

/-! ### Cursors that move on -/

/-- A parser leaves its own cursor live, where it was or further on, and all others alone. -/
def Parser.Shifts (p : Parser σ) : Prop :=
  ∀ {m : Manager σ} {id : CursorId} {pos : Nat}, m.Valid → m.cursors.offset? id = some pos →
    ∃ pos', pos ≤ pos' ∧ m.Shifted id pos' (p id m).2

variable [ByteSource σ]

/-- What an attempt does is done on a branch, in the manager that it leaves to `p`; the rest asks
nothing of the source. -/
theorem Parser.exists_attempt {p : Parser σ} (hp : p.Shifts) {m : Manager σ} {id : CursorId}
    {pos : Nat} (h : m.Valid) (ho : m.cursors.offset? id = some pos) :
    ∃ n k pos', Course m [] n ∧ m.Shifted m.nextId pos n ∧
      attempt p id m = ((p m.nextId n).1, k) ∧ Course (p m.nextId n).2 [] k ∧
      (p m.nextId n).2.cursors.offset? m.nextId = some pos' ∧
      m.Shifted id (if (p m.nextId n).1 = .ok () then pos' else pos) k := by
  obtain ⟨n, hb, hs⟩ := Manager.exists_branch h ho
  obtain ⟨pos', _, hs'⟩ := hp hs.valid hs.offset_self
  rcases hr : p m.nextId n with ⟨e | _, k⟩
  · rw [hr] at hs'
    refine ⟨n, k.release m.nextId, pos', .branch hb, hs, ?_, ?_, ?_, ?_⟩
    · simp only [attempt, hb, hr]
    · rw [hr]
      exact .release k m.nextId
    · rw [hr]
      exact hs'.offset_self
    · rw [hr, if_neg (by simp)]
      exact (hs.trans hs').release h ho
  · rw [hr] at hs'
    obtain ⟨k', hadopt, hs''⟩ := (hs.trans hs').exists_adopt h ho
    refine ⟨n, k', pos', .branch hb, hs, ?_, ?_, ?_, ?_⟩
    · simp only [attempt, hb, hr, hadopt]
    · rw [hr]
      exact .adopt hadopt
    · rw [hr]
      exact hs'.offset_self
    · rw [hr, if_pos rfl]
      exact hs''

theorem Parser.shifts_attempt {p : Parser σ} (hp : p.Shifts) : (attempt p).Shifts := by
  intro m id pos h ho
  obtain ⟨n, k, after, _, hs, ha, _, hin, hk⟩ := exists_attempt hp h ho
  obtain ⟨after', hle, hs'⟩ := hp hs.valid hs.offset_self
  obtain rfl := Option.some.inj (hin.symm.trans hs'.offset_self)
  rw [ha]
  refine ⟨_, ?_, hk⟩
  split
  · exact hle
  · exact Nat.le_refl pos

namespace Plan

theorem shifts_run (p : Plan) : (p.run : Parser σ).Shifts := by
  intro m id pos h ho
  induction p generalizing m id pos with
  | done result => exact ⟨pos, Nat.le_refl pos, .refl h ho⟩
  | read count next ih =>
    obtain ⟨pos₁, hle, hs⟩ := (Manager.shifted_of_read h ho (rfl : m.read id count = _)).1
    obtain ⟨pos₂, hle', hs'⟩ := ih (m.read id count).1 hs.valid hs.offset_self
    exact ⟨pos₂, Nat.le_trans hle hle', hs.trans hs'⟩
  | offset next ih => exact ih _ h ho
  | attempt tried next ih ih' =>
    obtain ⟨pos₁, hle, hs⟩ := Parser.shifts_attempt (fun h ho => ih h ho) h ho
    obtain ⟨pos₂, hle', hs'⟩ := ih' (Parser.attempt tried.run id m).1 hs.valid hs.offset_self
    exact ⟨pos₂, Nat.le_trans hle hle', hs.trans hs'⟩
  | stall rule part next ih =>
    have hs : m.Shifted id pos (m.note (.stalled rule part)) := (Manager.Shifted.refl h ho).note rfl
    obtain ⟨pos', hle, hs'⟩ := ih hs.valid hs.offset_self
    exact ⟨pos', hle, hs.trans hs'⟩

/-- A live cursor is never answered that there is no such cursor. -/
theorem FailsWith.known {F : ParseFailure → Prop} {p : Plan} {seen : Bool}
    (hp : p.FailsWith F seen) (hF : ∀ i, ¬ F (.source (.unknownCursor i))) {m : Manager σ}
    {id : CursorId} {pos : Nat} (h : m.Valid) (ho : m.cursors.offset? id = some pos)
    (i : CursorId) : (p.run id m).1 ≠ .error (.source (.unknownCursor i)) := by
  induction p generalizing m id pos seen with
  | done result => exact fun he => hF i (hp _ he)
  | read count next ih =>
    obtain ⟨⟨pos', _, hs⟩, hknown⟩ := Manager.shifted_of_read h ho (rfl : m.read id count = _)
    rw [run]
    rcases hr : (m.read id count).1 with f | chunk
    · rw [hp.1 f]
      rintro ⟨⟩
      exact hknown i hr
    · exact ih _ (hp.2 chunk) hs.valid hs.offset_self
  | offset next ih =>
    rw [run, Manager.offset_eq_ok_iff.mpr ho]
    exact ih _ (hp.2 pos) h ho
  | attempt tried next ih ih' =>
    obtain ⟨n, k, _, _, hs, ha, _, _, hk⟩ := Parser.exists_attempt tried.shifts_run h ho
    have hin := ih hp.1 hs.valid hs.offset_self
    rw [run, ha]
    dsimp only
    rcases hr : (tried.run m.nextId n).1 with e | _
    · rw [hr] at hin hk
      rcases hp.1.run_error hr with hFe | ⟨f, rfl⟩
      · exact ih' _ (hp.2.2 _ fun _ he => Except.error.inj he ▸ hFe) hk.valid hk.offset_self
      · rw [hp.2.1 f]
        exact hin
    · rw [hr] at hk
      exact ih' _ (hp.2.2 _ (by simp)) hk.valid hk.offset_self
  | stall rule part next ih => exact ih hp.2 (h.note (.stalled rule part) rfl) ho

end Plan

/-! ### Rules -/

namespace RuleGraph

theorem parser_shifts (g : RuleGraph) (depth : Nat) (r : RuleId) :
    (g.parser (σ := σ) depth r).Shifts := by
  rw [← g.run_plan]
  exact Plan.shifts_run _

/-- No failure of a rule's own is one of the source. -/
theorem failsWith_own (g : RuleGraph) (depth : Nat) (r : RuleId) :
    (g.plan depth r).FailsWith (fun e => ∀ f, e ≠ .source f) false :=
  failsWith_plan ⟨fun _ _ => nofun, fun _ => nofun⟩ (P := fun _ => True) (fun _ _ => trivial)
    (fun _ _ _ => nofun) depth trivial

/-- A parse in any state that a run can lead to, at whatever depth, by a rule of any kind, and
however it ends: the live cursors are those from before, all others stay in their places, and the
cursor itself never goes back. A live cursor is always known to its manager, and one that is not
live has nothing done to it. -/
theorem parser_frame (options : StreamOptions) (source : σ) (steps : List Step) (g : RuleGraph)
    (depth : Nat) (r : RuleId) (id : CursorId) :
    let m := (Manager.ofSource options source).run steps
    let out := g.parser depth r id m
    (∀ i, (out.2.cursors.offset? i).isSome = (m.cursors.offset? i).isSome) ∧
      (∀ i, i ≠ id → out.2.cursors.offset? i = m.cursors.offset? i) ∧
      (∀ pos, m.cursors.offset? id = some pos →
        (∃ pos', out.2.cursors.offset? id = some pos' ∧ pos ≤ pos') ∧
          ∀ i, out.1 ≠ .error (.source (.unknownCursor i))) ∧
      (m.cursors.offset? id = none → out.2 = m) := by
  intro m out
  have hm : m.Valid := Manager.valid_run (Manager.valid_ofSource options source) steps
  have hout : out = (g.plan depth r).run id m := (congrFun₂ (g.run_plan depth r) id m).symm
  have hfails := g.failsWith_own depth r
  cases ho : m.cursors.offset? id with
  | none =>
    have hsame : out.2 = m := by
      rcases hfails.run_of_dead ho with hdead | ⟨result, hdone⟩
      · rw [hout, hdead]
      · rw [hout, hdone]
        rfl
    rw [hsame]
    exact ⟨fun _ => rfl, fun _ _ => rfl, by simp, fun _ => rfl⟩
  | some pos =>
    obtain ⟨pos', hle, hs⟩ := (g.plan depth r).shifts_run hm ho
    have hknown := hfails.known (fun i h => h _ rfl) hm ho
    rw [← hout] at hs hknown
    refine ⟨fun i => ?_, hs.offset_of_ne, ?_, by simp⟩
    · by_cases hi : i = id
      · rw [hi, hs.offset_self, ho]
        rfl
      · rw [hs.offset_of_ne i hi]
    · rintro _ ⟨⟩
      exact ⟨⟨pos', hs.offset_self, hle⟩, hknown⟩

/-- A source that fails inside nested choices, with a second cursor that is live and a third that is
not. The number 3 is that of the first branch that the parse makes. -/
theorem parser_frame_broken :
    let source := Script.ofPieces [.chunk [40, 40], .failure ⟨.other, "lost"⟩]
    let m := (Manager.ofSource {} source).run [.branch 0, .read 1 1, .branch 0, .dispose 2]
    let out := nested.parser 20 0 0 m
    out.1 = .error (.source (.source ⟨.other, "lost"⟩)) ∧ m.nextId = 3 ∧
      (out.2.cursors.offset? 3).isSome = false ∧ out.2.cursors.offset? 1 = some 1 ∧
      (∃ pos', out.2.cursors.offset? 0 = some pos' ∧ 0 ≤ pos') ∧
      (nested.parser 20 0 2 m).2 = m := by
  obtain ⟨hlive, hother, hself, _⟩ := parser_frame {}
    (Script.ofPieces [.chunk [40, 40], .failure ⟨.other, "lost"⟩])
    [.branch 0, .read 1 1, .branch 0, .dispose 2] nested 20 0 0
  obtain ⟨_, _, _, hdead⟩ := parser_frame {}
    (Script.ofPieces [.chunk [40, 40], .failure ⟨.other, "lost"⟩])
    [.branch 0, .read 1 1, .branch 0, .dispose 2] nested 20 0 2
  exact ⟨by decide +kernel, rfl, hlive 3, hother 1 (by decide), (hself 0 rfl).1, hdead rfl⟩

end RuleGraph

end StreamPeg
