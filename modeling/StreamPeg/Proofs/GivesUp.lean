import StreamPeg.Parse.Plan
import StreamPeg.Proofs.Branch
import StreamPeg.Proofs.LeftRecursion

/-!
# Plans that give up

The first failure of the source that a plan of a rule meets is its result. Every other failure is of
the parse itself, and which of them there can be is decided by the rules that the plan is made of:
`FailsWith F` says that they are among `F`, and the combinators pass this on
(`RuleGraph.failsWith_plan`). So a plan `GivesUp` with the source, whatever else may go wrong
(`RuleGraph.givesUp_plan`), and a parse ends with no failure that its rules do not give a reason for
(`FailsWith.run_error`). With a cursor that is not live it does nothing at all
(`FailsWith.run_of_dead`).
-/

namespace StreamPeg

variable {σ : Type}

theorem Parser.attempt_of_dead (p : Parser σ) {m : Manager σ} {id : CursorId}
    (ho : m.cursors.offset? id = none) :
    attempt p id m = (.error (.source (.unknownCursor id)), m) := by
  simp only [attempt, Manager.branch_of_dead ho]

/-- An attempt fails as what is tried, or because a cursor of it is lost. -/
theorem Parser.error_of_attempt {p : Parser σ} {id : CursorId} {m : Manager σ} {e : ParseFailure}
    (h : (attempt p id m).1 = .error e) :
    (∃ branch n, (p branch n).1 = .error e) ∨ ∃ f, e = .source f := by
  rw [attempt] at h
  rcases hb : m.branch id with ⟨f | branch, n⟩
  · simp only [hb] at h
    cases h
    exact .inr ⟨f, rfl⟩
  rcases hp : p branch n with ⟨e' | _, n'⟩
  · simp only [hb, hp] at h
    exact .inl ⟨branch, n, by rw [hp, h]⟩
  · rcases ha : n'.adopt id branch with ⟨f | _, n''⟩
    · simp only [hb, hp, ha] at h
      cases h
      exact .inr ⟨f, rfl⟩
    · simp only [hb, hp, ha] at h
      cases h

namespace Plan

/-- A failure of the source is the result at once, and any other failure that it ends with is one of
`F`. As long as its cursor has not been `seen` to be live, it notes nothing. -/
def FailsWith (F : ParseFailure → Prop) : Plan → (seen : Bool) → Prop
  | .done result, _ => ∀ e, result = .error e → F e
  | .read _ next, _ =>
    (∀ e, next (.error e) = .done (.error (.source e))) ∧
      ∀ chunk, (next (.ok chunk)).FailsWith F true
  | .offset next, _ =>
    (∀ e, next (.error e) = .done (.error (.source e))) ∧
      ∀ pos, (next (.ok pos)).FailsWith F true
  | .attempt tried next, _ =>
    tried.FailsWith F true ∧ (∀ e, next (.error (.source e)) = .done (.error (.source e))) ∧
      ∀ result, (∀ e, result = .error e → F e) → (next result).FailsWith F true
  | .stall _ _ next, seen => seen = true ∧ next.FailsWith F true

/-- The first failure of the source that such a plan meets is its result. -/
abbrev GivesUp (p : Plan) : Prop := p.FailsWith (fun _ => True) true

/-- No failure is left out of `F` that any rule may end with, whatever it is bound to. -/
structure Unavoidable (F : ParseFailure → Prop) : Prop where
  mismatch : ∀ e, F (.mismatch e)
  tooDeep : F .tooDeep

variable {F : ParseFailure → Prop} {name rule part : String} {p : Plan} {seen : Bool}

theorem Unavoidable.within (hF : Unavoidable F) {e : ParseFailure} (he : F e) :
    F (e.within name) := by
  cases e with
  | mismatch d => exact hF.mismatch _
  | source | unresolvedPlaceholder | tooDeep => exact he

/-! ### Combinators -/

theorem FailsWith.later (hp : p.FailsWith F seen) : p.FailsWith F true := by
  cases p with
  | done | read | offset | attempt => exact hp
  | stall => exact ⟨rfl, hp.2⟩

theorem FailsWith.andThen {next : Except ParseFailure Unit → Plan} (hp : p.FailsWith F seen)
    (he : ∀ e, next (.error (.source e)) = .done (.error (.source e)))
    (hn : ∀ result, (∀ e, result = .error e → F e) → (next result).FailsWith F seen) :
    (p.andThen next).FailsWith F seen := by
  have hn' : ∀ result, (∀ e, result = .error e → F e) → (next result).FailsWith F true :=
    fun result hr => (hn result hr).later
  induction p generalizing seen with
  | done result => exact hn result hp
  | read count goOn ih =>
    refine ⟨fun e => ?_, fun chunk => ih _ (hp.2 chunk) hn'⟩
    show (goOn (.error e)).andThen next = _
    rw [hp.1 e, Plan.andThen, he]
  | offset goOn ih =>
    refine ⟨fun e => ?_, fun pos => ih _ (hp.2 pos) hn'⟩
    show (goOn (.error e)).andThen next = _
    rw [hp.1 e, Plan.andThen, he]
  | attempt tried goOn _ ih =>
    refine ⟨hp.1, fun e => ?_, fun result hr => ih _ (hp.2.2 result hr) hn'⟩
    show (goOn (.error (.source e))).andThen next = _
    rw [hp.2.1 e, Plan.andThen, he]
  | stall rule part goOn ih => exact ⟨hp.1, ih hp.2 hn'⟩

theorem failsWith_error {e : ParseFailure} (he : F e) : (done (.error e)).FailsWith F seen := by
  rintro _ ⟨⟩
  exact he

theorem failsWith_ok : (done (.ok ())).FailsWith F seen := nofun

theorem failsWith_literalFrom (hF : Unavoidable F) (tries : Nat) (wanted : List UInt8) :
    (literalFrom name tries wanted).FailsWith F seen := by
  induction tries generalizing wanted seen with
  | zero =>
    cases wanted with
    | nil => exact failsWith_ok
    | cons => exact failsWith_error hF.tooDeep
  | succ tries ih =>
    cases wanted with
    | nil => exact failsWith_ok
    | cons b wanted =>
      refine ⟨fun e => rfl, fun chunk => ?_⟩
      dsimp only
      rcases firstDifference (b :: wanted) chunk.bytes with _ | ⟨i, expected, found⟩
      · dsimp only
        rcases (b :: wanted).drop chunk.bytes.length with _ | ⟨c, left⟩
        · exact failsWith_ok
        · dsimp only
          split
          · exact failsWith_error (hF.mismatch _)
          · exact ih _
      · exact failsWith_error (hF.mismatch _)

theorem failsWith_sequence (hF : Unavoidable F) {ps : List Plan}
    (h : ∀ p ∈ ps, p.FailsWith F seen) : (sequence name ps).FailsWith F seen := by
  induction ps with
  | nil => exact failsWith_ok
  | cons p ps ih =>
    rw [List.forall_mem_cons] at h
    refine h.1.andThen (fun e => rfl) fun result hr => ?_
    rcases result with e | _
    · exact failsWith_error (hF.within (hr e rfl))
    · exact ih h.2

theorem failsWith_choiceFrom (hF : Unavoidable F) {ps : List Plan}
    (h : ∀ p ∈ ps, p.FailsWith F true) (deepest : Option Mismatch) :
    (choiceFrom name deepest ps).FailsWith F seen := by
  induction ps generalizing deepest seen with
  | nil =>
    cases deepest with
    | none => exact ⟨fun e => rfl, fun pos => failsWith_error (hF.mismatch _)⟩
    | some d => exact failsWith_error (hF.mismatch _)
  | cons p ps ih =>
    rw [List.forall_mem_cons] at h
    rw [choiceFrom]
    refine ⟨h.1, fun e => rfl, fun result hr => ?_⟩
    rcases result with (d | _ | _ | _) | _
    case error.mismatch => exact ih h.2 _
    all_goals exact hr

theorem failsWith_upTo (h : p.FailsWith F true) (n : Nat) : (upTo p n).FailsWith F seen := by
  induction n generalizing seen with
  | zero => exact failsWith_ok
  | succ n ih =>
    refine ⟨h, fun e => rfl, fun result hr => ?_⟩
    rcases result with (d | _ | _ | _) | _
    case ok => exact ih
    case error.mismatch => exact failsWith_ok
    all_goals exact hr

theorem failsWith_whileMatching (hF : Unavoidable F) (h : p.FailsWith F true) (rounds : Nat) :
    (whileMatching rule part p rounds).FailsWith F seen := by
  induction rounds generalizing seen with
  | zero => exact failsWith_error hF.tooDeep
  | succ rounds ih =>
    refine ⟨fun e => rfl, fun before => ⟨h, fun e => rfl, fun result hr => ?_⟩⟩
    rcases result with (d | _ | _ | _) | _
    case ok =>
      refine ⟨fun e => rfl, fun after => ?_⟩
      dsimp only
      split
      · exact ih
      · exact ⟨rfl, failsWith_ok⟩
    case error.mismatch => exact failsWith_ok
    all_goals exact hr

theorem failsWith_repetition (hF : Unavoidable F) (h : p.FailsWith F seen) (min : Nat)
    {optional : Plan} (ho : optional.FailsWith F seen) :
    (repetition name p min optional).FailsWith F seen := by
  have hreq : (sequence name (List.replicate min p)).FailsWith F seen :=
    failsWith_sequence hF fun q hq => List.eq_of_mem_replicate hq ▸ h
  refine hreq.andThen (fun e => rfl) fun result hr => ?_
  rcases result with e | _
  · exact hr
  · exact ho

end Plan

/-! ### Rules -/

namespace RuleGraph

/-- The placeholders that may be met are among the rules that `P` says can be come to. -/
theorem failsWith_plan {g : RuleGraph} {F : ParseFailure → Prop} (hF : Plan.Unavoidable F)
    {P : RuleId → Prop} (hP : ∀ {r p}, P r → g.Uses r p → P p)
    (hU : ∀ {r}, P r → g.kind r = .placeholder none → F (.unresolvedPlaceholder (g.ownName r)))
    (depth : Nat) {r : RuleId} (hr : P r) : (g.plan depth r).FailsWith F false := by
  induction depth generalizing r with
  | zero => exact Plan.failsWith_error hF.tooDeep
  | succ depth ih =>
    have hall {parts : List RuleId} (hk : (g.kind r).parts = parts) :
        ∀ p ∈ parts.map (g.plan depth), p.FailsWith F false := by
      intro p hp
      obtain ⟨a, ha, rfl⟩ := List.mem_map.mp hp
      exact ih (hP hr (.inl (hk ▸ ha)))
    cases hk : g.kind r with
    | literal bytes =>
      simp only [plan, hk]
      exact Plan.failsWith_literalFrom hF _ bytes
    | sequence parts =>
      simp only [plan, hk]
      exact Plan.failsWith_sequence hF (hall (by rw [hk]; rfl))
    | choice alternatives =>
      simp only [plan, hk]
      exact Plan.failsWith_choiceFrom hF (fun p hp => (hall (by rw [hk]; rfl) p hp).later) none
    | repetition part min max =>
      have hp := ih (hP hr (p := part) (.inl (by simp [hk, RuleKind.parts])))
      cases max with
      | none =>
        simp only [plan, hk]
        exact Plan.failsWith_repetition hF hp min (Plan.failsWith_whileMatching hF hp.later depth)
      | some max =>
        simp only [plan, hk]
        exact Plan.failsWith_repetition hF hp min (Plan.failsWith_upTo hp.later _)
    | placeholder target =>
      cases target with
      | none =>
        simp only [plan, hk]
        exact Plan.failsWith_error (hU hr hk)
      | some target =>
        simp only [plan, hk]
        exact ih (hP hr (.inr (by rw [target?, hk])))

/-- Whatever a plan's own failures may be. -/
theorem failsWith_any (g : RuleGraph) (depth : Nat) (r : RuleId) :
    (g.plan depth r).FailsWith (fun _ => True) false :=
  failsWith_plan ⟨fun _ => trivial, trivial⟩ (P := fun _ => True) (fun _ _ => trivial)
    (fun _ _ => trivial) depth trivial

theorem givesUp_plan (g : RuleGraph) (depth : Nat) (r : RuleId) : (g.plan depth r).GivesUp :=
  (g.failsWith_any depth r).later

end RuleGraph

/-! ### Runs -/

namespace Plan.FailsWith

variable [ByteSource σ] {F : ParseFailure → Prop} {p : Plan} {seen : Bool} {id : CursorId}
  {m : Manager σ}

theorem run_error (hp : p.FailsWith F seen) {e : ParseFailure} (he : (p.run id m).1 = .error e) :
    F e ∨ ∃ f, e = .source f := by
  induction p generalizing id m seen e with
  | done result => exact .inl (hp e he)
  | read count next ih =>
    rw [run] at he
    rcases hr : (m.read id count).1 with f | chunk
    · rw [hr, hp.1 f] at he
      cases he
      exact .inr ⟨f, rfl⟩
    · rw [hr] at he
      exact ih _ (hp.2 chunk) he
  | offset next ih =>
    rw [run] at he
    rcases hr : m.offset id with f | pos
    · rw [hr, hp.1 f] at he
      cases he
      exact .inr ⟨f, rfl⟩
    · rw [hr] at he
      exact ih _ (hp.2 pos) he
  | attempt tried next ih ih' =>
    rw [run] at he
    rcases hr : (Parser.attempt tried.run id m).1 with e' | _
    · rw [hr] at he
      rcases Parser.error_of_attempt hr with ⟨branch, n, htried⟩ | ⟨f, rfl⟩
      · rcases ih hp.1 htried with hF | ⟨f, rfl⟩
        · exact ih' _ (hp.2.2 _ fun _ h => Except.error.inj h ▸ hF) he
        · rw [hp.2.1 f] at he
          cases he
          exact .inr ⟨f, rfl⟩
      · rw [hp.2.1 f] at he
        cases he
        exact .inr ⟨f, rfl⟩
    · rw [hr] at he
      exact ih' _ (hp.2.2 _ (by simp)) he
  | stall rule part next ih => exact ih hp.2 he

/-- Either the cursor is asked for, and then found missing, or nothing is asked at all. -/
theorem run_of_dead (hp : p.FailsWith F false) (ho : m.cursors.offset? id = none) :
    p.run id m = (.error (.source (.unknownCursor id)), m) ∨ ∃ result, p = .done result := by
  cases p with
  | done result => exact .inr ⟨result, rfl⟩
  | read count next =>
    rw [run, Manager.read_of_dead ho, hp.1]
    exact .inl rfl
  | offset next =>
    rw [run, Manager.offset_of_dead ho, hp.1]
    exact .inl rfl
  | attempt tried next =>
    rw [run, Parser.attempt_of_dead _ ho, hp.2.1]
    exact .inl rfl
  | stall => cases hp.1

end Plan.FailsWith

end StreamPeg
