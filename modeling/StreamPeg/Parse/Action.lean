import StreamPeg.Cursor.Run
import StreamPeg.Parse.Plan

/-!
# Runs with parses in between

An `Action` is a step or a whole parse, and `perform` does one action after the other. A parse may
be by any rule of any graph, on a cursor that is live or not, and to any depth; the one that a parse
chooses for itself is among them.

`steps` takes such a run apart into single steps. Those of a plan are what a parse does to its
manager, one after the other, with the making of each branch and its end. To do these steps is to
perform the run (`Manager.run_steps`), so every moment of a parse is the end of a run of steps.

`Course m xs m'`: steps lead from `m` to `m'`, and the reads among them are these, each made in the
state that it tells of. The readings of a plan are its course (`Plan.course_run`).
-/

namespace StreamPeg

inductive Action where
  | step (s : Step)
  | parse (g : RuleGraph) (depth : Nat) (r : RuleId) (id : CursorId)
  deriving DecidableEq, Repr

variable {σ : Type} [ByteSource σ]

namespace Manager

/-- The manager after an action, whether the action succeeds or not. -/
def act (m : Manager σ) : Action → Manager σ
  | .step s => m.step s
  | .parse g depth r id => (g.parser depth r id m).2

def perform (m : Manager σ) (actions : List Action) : Manager σ := actions.foldl act m

@[simp] theorem perform_nil (m : Manager σ) : m.perform [] = m := rfl

@[simp] theorem perform_cons (m : Manager σ) (a : Action) (actions : List Action) :
    m.perform (a :: actions) = (m.act a).perform actions := rfl

end Manager

/-! ### Single steps -/

/-- The steps of an attempt, given those that its parser makes on the branch. -/
def Parser.attemptSteps (p : Parser σ) (inner : CursorId → Manager σ → List Step) (id : CursorId)
    (m : Manager σ) : List Step :=
  .branch id ::
    match m.branch id with
    | (.error _, _) => []
    | (.ok branch, m) =>
      inner branch m ++
        match (p branch m).1 with
        | .ok () => [.commit id branch, .release branch]
        | .error _ => [.release branch]

theorem Parser.run_attemptSteps {p : Parser σ} {inner : CursorId → Manager σ → List Step}
    (h : ∀ id m, m.run (inner id m) = (p id m).2) (id : CursorId) (m : Manager σ) :
    m.run (attemptSteps p inner id m) = (attempt p id m).2 := by
  rw [attemptSteps, Manager.run_cons, Manager.step, attempt]
  rcases m.branch id with ⟨e | branch, m₁⟩
  · rfl
  · dsimp only
    rw [Manager.run_append, h]
    rcases p branch m₁ with ⟨e | _, m₂⟩
    · rfl
    · dsimp only
      rcases hadopt : m₂.adopt id branch with ⟨e | _, m₃⟩
      · exact congrArg Prod.snd hadopt
      · exact congrArg Prod.snd hadopt

namespace Plan

def steps : Plan → CursorId → Manager σ → List Step
  | .done _, _, _ => []
  | .read count next, id, m =>
    .read id count :: (next (m.read id count).1).steps id (m.read id count).2
  | .offset next, id, m => .offset id :: (next (m.offset id)).steps id m
  | .attempt tried next, id, m =>
    Parser.attemptSteps tried.run tried.steps id m ++
      (next (Parser.attempt tried.run id m).1).steps id (Parser.attempt tried.run id m).2
  | .stall rule part next, id, m =>
    .stall rule part :: next.steps id (m.note (.stalled rule part))

theorem run_steps (p : Plan) (id : CursorId) (m : Manager σ) :
    m.run (p.steps id m) = (p.run id m).2 := by
  induction p generalizing id m with
  | done result => rfl
  | read count next ih => exact ih _ id _
  | offset next ih => exact ih _ id m
  | attempt tried next ih ih' =>
    rw [steps, Manager.run_append, Parser.run_attemptSteps ih]
    exact ih' _ id _
  | stall rule part next ih => exact ih id _

end Plan

namespace Manager

def stepsOf (m : Manager σ) : Action → List Step
  | .step s => [s]
  | .parse g depth r id => (g.plan depth r).steps id m

theorem run_stepsOf (m : Manager σ) (a : Action) : m.run (m.stepsOf a) = m.act a := by
  cases a with
  | step s => rfl
  | parse g depth r id =>
    rw [stepsOf, Plan.run_steps, RuleGraph.run_plan]
    rfl

/-- The steps of a run, those of its parses among them. -/
def steps (m : Manager σ) : List Action → List Step
  | [] => []
  | a :: actions => m.stepsOf a ++ (m.act a).steps actions

theorem run_steps (m : Manager σ) (actions : List Action) :
    m.run (m.steps actions) = m.perform actions := by
  induction actions generalizing m with
  | nil => rfl
  | cons a actions ih => rw [steps, run_append, run_stepsOf, ih, perform_cons]

end Manager

/-! ### Courses -/

inductive Course : Manager σ → List (Reading σ) → Manager σ → Prop where
  | nil (m : Manager σ) : Course m [] m
  | step {m m' : Manager σ} {xs : List (Reading σ)} (s : Step) :
      (∀ id count, s ≠ .read id count) → Course (m.step s) xs m' → Course m xs m'
  | read {m' : Manager σ} {xs : List (Reading σ)} (x : Reading σ) :
      Course (x.before.step (.read x.id x.count)) xs m' → Course x.before (x :: xs) m'

namespace Course

variable {m m' m'' : Manager σ} {xs ys : List (Reading σ)}

theorem append (h : Course m xs m') (h' : Course m' ys m'') : Course m (xs ++ ys) m'' := by
  induction h with
  | nil => exact h'
  | step s hs _ ih => exact .step s hs (ih h')
  | read x _ ih => exact .read x (ih h')

theorem before (h : Course m [] m') (h' : Course m' xs m'') : Course m xs m'' := h.append h'

theorem after (h : Course m xs m') (h' : Course m' [] m'') : Course m xs m'' :=
  List.append_nil xs ▸ h.append h'

theorem under (h : Course m xs m') (branch : CursorId) :
    Course m (xs.map (·.under branch)) m' := by
  induction h with
  | nil m => exact .nil m
  | step s hs _ ih => exact .step s hs ih
  | read x _ ih => exact .read (x.under branch) ih

theorem branch {id : CursorId} {result : Except StreamError CursorId}
    (hb : m.branch id = (result, m')) : Course m [] m' := by
  have h := Course.step (.branch id) (by simp) (.nil (m.step (.branch id)))
  rwa [Manager.step, hb] at h

theorem release (m : Manager σ) (id : CursorId) : Course m [] (m.release id) :=
  .step (.release id) (by simp) (.nil _)

theorem adopt {target branch : CursorId} {result : Except StreamError Unit}
    (ha : m.adopt target branch = (result, m')) : Course m [] m' := by
  have h := Course.step (.commit target branch) (by simp)
    (.release (m.step (.commit target branch)) branch)
  rwa [show ((m.step (.commit target branch)).release branch) = m' from congrArg Prod.snd ha] at h

end Course

namespace Plan

/-- The reads of a plan are those that it makes when it is run, and there are no others. -/
theorem course_run (p : Plan) (id : CursorId) (m : Manager σ) :
    Course m (p.readings id m) (p.run id m).2 := by
  induction p generalizing id m with
  | done result => exact .nil m
  | read count next ih => exact .read ⟨[], id, count, m⟩ (ih _ id _)
  | offset next ih => exact ih _ id m
  | stall rule part next ih => exact .step (.stall rule part) (by simp) (ih id _)
  | attempt tried next ih ih' =>
    refine .append ?_ (ih' _ id _)
    simp only [Parser.attempt]
    rcases hb : m.branch id with ⟨e | branch, m₁⟩
    · exact .branch hb
    · have ht := (Course.branch hb).before ((ih branch m₁).under branch)
      simp only
      revert ht
      rcases tried.run branch m₁ with ⟨e | _, m₂⟩ <;> intro ht
      · exact ht.after (.release m₂ branch)
      · rcases ha : m₂.adopt id branch with ⟨e | _, m₃⟩
        · simpa only [ha] using ht.after (.adopt ha)
        · simpa only [ha] using ht.after (.adopt ha)

end Plan

end StreamPeg
