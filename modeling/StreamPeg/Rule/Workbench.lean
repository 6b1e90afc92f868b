import StreamPeg.Rule.Build
import StreamPeg.Rule.Resolve

/-!
# Working on rules

A workbench holds the graph of all rules made so far and the grammars that have been resolved from
it and are still at hand. An `Edit` is one thing that is done there, and `run` does one edit after
the other. Whoever makes an edit can only refer to rules that there are: an edit that is handed
another number is not made at all.

Rules are never taken away, and to drop a grammar undoes nothing; only a release does.
-/

namespace StreamPeg

/-- A call of a builder. -/
inductive Builder where
  | literal (bytes : List UInt8)
  | sequence (parts : List RuleId)
  | choice (alternatives : List RuleId)
  | oneOfBytes (bytes : List UInt8)
  | repetition (part : RuleId) (min : Nat) (max : Option Nat)
  | atLeast (part : RuleId) (n : Nat)
  | asManyAs (part : RuleId) (n : Nat)
  | zeroOrMore (part : RuleId)
  | oneOrMore (part : RuleId)
  | zeroOrOne (part : RuleId)
  | placeholder (name : String)
  deriving DecidableEq, Repr

/-- The rules that a builder is handed. -/
def Builder.parts : Builder → List RuleId
  | .literal _ => []
  | .sequence parts => parts
  | .choice alternatives => alternatives
  | .oneOfBytes _ => []
  | .repetition part _ _ => [part]
  | .atLeast part _ => [part]
  | .asManyAs part _ => [part]
  | .zeroOrMore part => [part]
  | .oneOrMore part => [part]
  | .zeroOrOne part => [part]
  | .placeholder _ => []

def RuleGraph.build (g : RuleGraph) : Builder → Except GrammarError RuleId × RuleGraph
  | .literal bytes => (g.literal bytes).map .ok id
  | .sequence parts => g.sequence parts
  | .choice alternatives => g.choice alternatives
  | .oneOfBytes bytes => g.oneOfBytes bytes
  | .repetition part min max => g.repetition part min max
  | .atLeast part n => (g.atLeast part n).map .ok id
  | .asManyAs part n => (g.asManyAs part n).map .ok id
  | .zeroOrMore part => (g.zeroOrMore part).map .ok id
  | .oneOrMore part => (g.oneOrMore part).map .ok id
  | .zeroOrOne part => (g.zeroOrOne part).map .ok id
  | .placeholder name => (g.placeholder name).map .ok id

/-- Grammars are referred to by their places among those at hand. -/
inductive Edit where
  | build (call : Builder)
  | rename (r : RuleId) (name : String)
  | resolve (roots : List RuleId)
  | clone (i : Nat)
  | drop (i : Nat)
  | release (i : Nat)
  deriving DecidableEq, Repr

namespace Edit

/-- The rules that an edit is handed. -/
def rules : Edit → List RuleId
  | .build call => call.parts
  | .rename r _ => [r]
  | .resolve roots => roots
  | .clone _ => []
  | .drop _ => []
  | .release _ => []

def isRelease : Edit → Bool
  | .release _ => true
  | _ => false

end Edit

structure Workbench where
  graph : RuleGraph
  grammars : List Grammar
  deriving DecidableEq, Repr

namespace Workbench

def empty : Workbench := ⟨.empty, []⟩

/-- The workbench after an edit of rules that there are, whether the edit succeeds or not. -/
def make (w : Workbench) : Edit → Workbench
  | .build call => { w with graph := (w.graph.build call).2 }
  | .rename r name => { w with graph := (w.graph.rename r name).2 }
  | .resolve roots =>
    match w.graph.resolve roots with
    | (.ok resolution, graph) => ⟨graph, w.grammars ++ [resolution.grammar]⟩
    | (.error _, graph) => { w with graph }
  | .clone i => { w with grammars := w.grammars ++ w.grammars[i]?.toList }
  | .drop i => { w with grammars := w.grammars.eraseIdx i }
  | .release i =>
    match w.grammars[i]? with
    | some grammar => ⟨(w.graph.release grammar).2, w.grammars.eraseIdx i⟩
    | none => w

def step (w : Workbench) (edit : Edit) : Workbench :=
  if ∀ r ∈ edit.rules, r < w.graph.size then w.make edit else w

def run (w : Workbench) (edits : List Edit) : Workbench := edits.foldl step w

@[simp] theorem run_nil (w : Workbench) : w.run [] = w := rfl

@[simp] theorem run_cons (w : Workbench) (e : Edit) (edits : List Edit) :
    w.run (e :: edits) = (w.step e).run edits := rfl

theorem run_append (w : Workbench) (edits edits' : List Edit) :
    w.run (edits ++ edits') = (w.run edits).run edits' := List.foldl_append

/-- What every edit keeps, a run keeps. -/
theorem run_induct {P : Workbench → Prop} {w : Workbench} {edits : List Edit} (h : P w)
    (hs : ∀ w, ∀ e ∈ edits, P w → P (w.step e)) : P (w.run edits) := by
  induction edits generalizing w with
  | nil => exact h
  | cons e edits ih =>
    exact ih (hs w e List.mem_cons_self h) fun w e he => hs w e (List.mem_cons_of_mem _ he)

end Workbench

end StreamPeg
