import StreamPeg.Parse.Rule

/-!
# Plans

A plan tells what a parser does with its cursor, and how it goes on for each answer that it gets.
Whatever it tries is a plan of its own, carried out on a branch of the cursor that is gone before
the plan goes on (`attempt`), so the attempts under way at some point of a parse are those that a
plan has been followed into. `RuleGraph.plan` makes a plan of a rule, where nothing but the
alternatives of choices and the optional matches of repetitions is tried, and to run that plan is to
parse (`RuleGraph.run_plan`). `readings` are the reads that are made when a plan is run, each with
the branches of the attempts that it is made in.
-/

namespace StreamPeg

inductive Plan where
  | done (result : Except ParseFailure Unit)
  | read (count : Nat) (next : Except StreamError Chunk → Plan)
  | offset (next : Except StreamError Nat → Plan)
  | attempt (tried : Plan) (next : Except ParseFailure Unit → Plan)
  | stall (rule part : String) (next : Plan)

/-- A read that is about to be made: the branches of the attempts around it, outermost first, the
cursor that is read and how many bytes it asks for, and the manager as it is then. -/
structure Reading (σ : Type) where
  active : List CursorId
  id : CursorId
  count : Nat
  before : Manager σ
  deriving DecidableEq, Repr

namespace Reading

variable {σ : Type}

/-- The same read, seen from outside of an attempt on this branch. -/
def under (branch : CursorId) (x : Reading σ) : Reading σ :=
  { x with active := branch :: x.active }

def answer [ByteSource σ] (x : Reading σ) : Except StreamError Chunk :=
  (x.before.read x.id x.count).1

/-- Whether the chunk that it brings is marked as the last one of the data. -/
def meetsEnd [ByteSource σ] (x : Reading σ) : Bool :=
  match x.answer with
  | .ok chunk => chunk.atEnd
  | .error _ => false

end Reading

namespace Plan

variable {σ : Type}

/-! ### Plans carried out -/

def run [ByteSource σ] : Plan → Parser σ
  | .done result, _, m => (result, m)
  | .read count next, id, m => (next (m.read id count).1).run id (m.read id count).2
  | .offset next, id, m => (next (m.offset id)).run id m
  | .attempt tried next, id, m =>
    (next (Parser.attempt tried.run id m).1).run id (Parser.attempt tried.run id m).2
  | .stall rule part next, id, m => next.run id (m.note (.stalled rule part))

def readings [ByteSource σ] : Plan → CursorId → Manager σ → List (Reading σ)
  | .done _, _, _ => []
  | .read count next, id, m =>
    ⟨[], id, count, m⟩ :: (next (m.read id count).1).readings id (m.read id count).2
  | .offset next, id, m => (next (m.offset id)).readings id m
  | .attempt tried next, id, m =>
    (match m.branch id with
      | (.error _, _) => []
      | (.ok branch, m) => (tried.readings branch m).map (·.under branch)) ++
    (next (Parser.attempt tried.run id m).1).readings id (Parser.attempt tried.run id m).2
  | .stall rule part next, id, m => next.readings id (m.note (.stalled rule part))

/-! ### The plans of rules -/

/-- Goes on from the result of a plan. -/
def andThen (next : Except ParseFailure Unit → Plan) : Plan → Plan
  | .done result => next result
  | .read count goOn => .read count fun answer => (goOn answer).andThen next
  | .offset goOn => .offset fun answer => (goOn answer).andThen next
  | .attempt tried goOn => .attempt tried fun result => (goOn result).andThen next
  | .stall rule part goOn => .stall rule part (goOn.andThen next)

def literalFrom (name : String) : (tries : Nat) → (wanted : List UInt8) → Plan
  | _, [] => .done (.ok ())
  | 0, _ :: _ => .done (.error .tooDeep)
  | tries + 1, wanted =>
    .read wanted.length fun
      | .error e => .done (.error (.source e))
      | .ok chunk =>
        match firstDifference wanted chunk.bytes with
        | some (i, expected, found) =>
          .done (.error (.mismatch ⟨chunk.start + i, [name], .unexpected expected found⟩))
        | none =>
          match wanted.drop chunk.bytes.length with
          | [] => .done (.ok ())
          | left =>
            if chunk.atEnd ∨ chunk.bytes = [] then
              .done (.error
                (.mismatch ⟨chunk.start + chunk.bytes.length, [name], .endOfData⟩))
            else literalFrom name tries left

def sequence (name : String) : List Plan → Plan
  | [] => .done (.ok ())
  | p :: ps =>
    p.andThen fun
      | .ok () => sequence name ps
      | .error e => .done (.error (e.within name))

def choiceFrom (name : String) : Option Mismatch → List Plan → Plan
  | some deepest, [] => .done (.error (.mismatch (deepest.within name)))
  | none, [] =>
    .offset fun
      | .ok pos => .done (.error (.mismatch ⟨pos, [name], .noAlternatives⟩))
      | .error e => .done (.error (.source e))
  | deepest, p :: ps =>
    .attempt p fun
      | .error (.mismatch e) => choiceFrom name (some (.deeper deepest e)) ps
      | result => .done result

def upTo (p : Plan) : Nat → Plan
  | 0 => .done (.ok ())
  | n + 1 =>
    .attempt p fun
      | .ok () => upTo p n
      | .error (.mismatch _) => .done (.ok ())
      | result => .done result

def whileMatching (rule part : String) (p : Plan) : (rounds : Nat) → Plan
  | 0 => .done (.error .tooDeep)
  | rounds + 1 =>
    .offset fun
      | .error e => .done (.error (.source e))
      | .ok before =>
        .attempt p fun
          | .error (.mismatch _) => .done (.ok ())
          | .error e => .done (.error e)
          | .ok () =>
            .offset fun
              | .error e => .done (.error (.source e))
              | .ok after =>
                if before < after then whileMatching rule part p rounds
                else .stall rule part (.done (.ok ()))

/-- The required matches of a repetition, and then the optional ones. -/
def repetition (name : String) (p : Plan) (min : Nat) (optional : Plan) : Plan :=
  (sequence name (List.replicate min p)).andThen fun
    | .ok () => optional
    | result => .done result

end Plan

namespace RuleGraph

def plan (g : RuleGraph) : (depth : Nat) → RuleId → Plan
  | 0, _ => .done (.error .tooDeep)
  | depth + 1, r =>
    match g.kind r with
    | .literal bytes => .literalFrom (g.name r) bytes.length bytes
    | .sequence parts => .sequence (g.name r) (parts.map (g.plan depth))
    | .choice alternatives => .choiceFrom (g.name r) none (alternatives.map (g.plan depth))
    | .repetition part min none =>
      .repetition (g.name r) (g.plan depth part) min
        (.whileMatching (g.name r) (g.name part) (g.plan depth part) depth)
    | .repetition part min (some max) =>
      .repetition (g.name r) (g.plan depth part) min (.upTo (g.plan depth part) (max - min))
    | .placeholder (some target) => g.plan depth target
    | .placeholder none => .done (.error (.unresolvedPlaceholder (g.ownName r)))

/-- The reads of a parse, in their order. -/
def readings {σ : Type} [ByteSource σ] (g : RuleGraph) (depth : Nat) (r : RuleId) (id : CursorId)
    (m : Manager σ) : List (Reading σ) :=
  (g.plan depth r).readings id m

end RuleGraph

namespace Plan

variable {σ : Type} [ByteSource σ]

theorem run_andThen (next : Except ParseFailure Unit → Plan) (p : Plan) (id : CursorId)
    (m : Manager σ) :
    (p.andThen next).run id m = (next (p.run id m).1).run id (p.run id m).2 := by
  induction p generalizing m with
  | done result => rfl
  | read count goOn ih => exact ih _ _
  | offset goOn ih => exact ih _ _
  | attempt tried goOn _ ih => exact ih _ _
  | stall rule part goOn ih => exact ih _

variable {name : String}

theorem run_literalFrom (tries : Nat) (wanted : List UInt8) :
    (literalFrom name tries wanted).run = (Parser.literalFrom name tries wanted : Parser σ) := by
  funext id m
  induction tries generalizing wanted m with
  | zero => cases wanted <;> rfl
  | succ tries ih =>
    cases wanted with
    | nil => rfl
    | cons b wanted =>
      simp only [literalFrom, run, Parser.literalFrom]
      rcases m.read id (b :: wanted).length with ⟨_ | chunk, m'⟩
      · rfl
      · dsimp only
        rcases firstDifference (b :: wanted) chunk.bytes with _ | ⟨i, expected, found⟩
        · dsimp only
          rcases (b :: wanted).drop chunk.bytes.length with _ | ⟨c, left⟩
          · rfl
          · dsimp only
            split
            · rfl
            · exact ih _ m'
        · rfl

theorem run_sequence (ps : List Plan) :
    (sequence name ps).run = (Parser.sequence name (ps.map run) : Parser σ) := by
  funext id m
  induction ps generalizing m with
  | nil => rfl
  | cons p ps ih =>
    simp only [sequence, run_andThen, List.map_cons, Parser.sequence]
    rcases p.run id m with ⟨_ | _, m'⟩
    · rfl
    · exact ih m'

theorem run_choiceFrom (deepest : Option Mismatch) (ps : List Plan) :
    (choiceFrom name deepest ps).run =
      (Parser.choiceFrom name deepest (ps.map run) : Parser σ) := by
  funext id m
  induction ps generalizing deepest m with
  | nil =>
    cases deepest with
    | none =>
      simp only [choiceFrom, run, List.map_nil, Parser.choiceFrom]
      cases m.offset id <;> rfl
    | some d => rfl
  | cons p ps ih =>
    simp only [choiceFrom, run, List.map_cons, Parser.choiceFrom]
    rcases Parser.attempt p.run id m with ⟨e | _, m'⟩
    · cases e with
      | mismatch d => exact ih _ m'
      | source | unresolvedPlaceholder | tooDeep => rfl
    · rfl

theorem run_upTo (p : Plan) (n : Nat) :
    (upTo p n).run = (Parser.upTo p.run n : Parser σ) := by
  funext id m
  induction n generalizing m with
  | zero => rfl
  | succ n ih =>
    simp only [upTo, run, Parser.upTo]
    rcases Parser.attempt p.run id m with ⟨e | _, m'⟩
    · cases e <;> rfl
    · exact ih m'

theorem run_whileMatching (rule part : String) (p : Plan) (rounds : Nat) :
    (whileMatching rule part p rounds).run =
      (Parser.whileMatching (.stalled rule part) p.run rounds : Parser σ) := by
  funext id m
  induction rounds generalizing m with
  | zero => rfl
  | succ rounds ih =>
    simp only [whileMatching, run, Parser.whileMatching]
    rcases m.offset id with _ | before
    · rfl
    · simp only [run]
      rcases Parser.attempt p.run id m with ⟨e | _, m'⟩
      · cases e <;> rfl
      · simp only [run]
        rcases m'.offset id with _ | after
        · rfl
        · dsimp only
          split
          · exact ih m'
          · rfl

theorem run_repetition (p : Plan) (min : Nat) (optional : Plan) :
    (repetition name p min optional).run =
      (Parser.times name p.run min : Parser σ).andThen optional.run := by
  funext id m
  simp only [repetition, run_andThen, run_sequence, List.map_replicate, Parser.andThen,
    Parser.times_eq_sequence]
  rcases Parser.sequence name (List.replicate min p.run) id m with ⟨_ | _, m'⟩ <;> rfl

end Plan

/-- A plan of a rule is carried out by parsing, and in no other way. -/
theorem RuleGraph.run_plan {σ : Type} [ByteSource σ] (g : RuleGraph) (depth : Nat) (r : RuleId) :
    (g.plan depth r).run = (g.parser depth r : Parser σ) := by
  induction depth generalizing r with
  | zero => rfl
  | succ depth ih =>
    have hall (parts : List RuleId) :
        (parts.map (g.plan depth)).map Plan.run = parts.map (g.parser (σ := σ) depth) := by
      rw [List.map_map]
      exact List.map_congr_left fun p _ => ih p
    cases hk : g.kind r with
    | literal bytes =>
      simp only [plan, parser, hk]
      exact Plan.run_literalFrom _ bytes
    | sequence parts =>
      simp only [plan, parser, hk, Plan.run_sequence, hall]
    | choice alternatives =>
      simp only [plan, parser, hk, Plan.run_choiceFrom, hall]
      rfl
    | repetition part min max =>
      cases max with
      | none => simp only [plan, parser, hk, Plan.run_repetition, Plan.run_whileMatching, ih]
      | some max => simp only [plan, parser, hk, Plan.run_repetition, Plan.run_upTo, ih]
    | placeholder target =>
      cases target with
      | none =>
        simp only [plan, parser, hk]
        rfl
      | some target =>
        simp only [plan, parser, hk]
        exact ih target

end StreamPeg
