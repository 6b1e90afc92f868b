import StreamPeg.Parse.Action
import StreamPeg.Proofs.Run

/-!
# Parses as runs

A parse does nothing to a manager that single steps do not do (`Plan.run_steps`), so whatever every
step keeps a parse keeps too, and so does any run with parses in it (`Manager.valid_perform`).
`Reached` managers are those that steps and parses lead to, in any order, from a fresh one; each of
them is also the end of a plain run (`Reached.exists_run`).
-/

namespace StreamPeg

variable {σ : Type}

theorem Plan.valid_run [ByteSource σ] (p : Plan) {m : Manager σ} (h : m.Valid) (id : CursorId) :
    (p.run id m).2.Valid := by
  rw [← p.run_steps]
  exact Manager.valid_run h _

theorem Manager.valid_perform [ByteSource σ] {m : Manager σ} (h : m.Valid)
    (actions : List Action) : (m.perform actions).Valid := by
  rw [← m.run_steps]
  exact valid_run h _

theorem RuleGraph.exists_steps [ByteSource σ] (g : RuleGraph) (depth : Nat) (r : RuleId)
    (id : CursorId) (m : Manager σ) : ∃ steps, (g.parser depth r id m).2 = m.run steps :=
  ⟨_, (m.run_stepsOf (.parse g depth r id)).symm⟩

/-! ### Everything that can be done -/

variable [FiniteSource σ]

inductive Reached (options : StreamOptions) (source : σ) : Manager σ → Prop where
  | opened : Reached options source (.ofSource options source)
  | step {m : Manager σ} (s : Step) : Reached options source m → Reached options source (m.step s)
  | parse {m : Manager σ} (g : RuleGraph) (r : RuleId) (id : CursorId) :
      Reached options source m → Reached options source (g.parse r id m).2

theorem Reached.exists_run {options : StreamOptions} {source : σ} {m : Manager σ}
    (h : Reached options source m) : ∃ steps, m = (Manager.ofSource options source).run steps := by
  induction h with
  | opened => exact ⟨[], rfl⟩
  | @step m s _ ih =>
    obtain ⟨steps, rfl⟩ := ih
    exact ⟨steps ++ [s], (Manager.run_append _ steps [s]).symm⟩
  | @parse m g r id _ ih =>
    obtain ⟨steps, rfl⟩ := ih
    obtain ⟨steps', hsteps⟩ := g.exists_steps (g.depthLimit _) r id
      ((Manager.ofSource options source).run steps)
    exact ⟨steps ++ steps', hsteps.trans (Manager.run_append _ steps steps').symm⟩

end StreamPeg
