import Mathlib.Logic.Relation
import StreamPeg.Rule.Resolve

/-!
# Preorder

`preorder roots` lists the rules that can be reached from the roots without passing through a
placeholder, each where a depth-first search that takes the parts of a rule from left to right
first meets it. `Visits` is that search as a relation, with nothing to bound its depth, and
`BindsInPreorder` is what a resolution comes to when its rules are met in that order.
-/

namespace StreamPeg.RuleGraph

/-- Adds `r`, if it is new, and then all below it, to the list of rules met so far. -/
def visit (g : RuleGraph) : (depth : Nat) → RuleId → List RuleId → List RuleId
  | 0, _, met => met
  | depth + 1, r, met =>
    if r ∈ met then met
    else (g.kind r).parts.foldl (fun met part => g.visit depth part met) (met ++ [r])

/-- A path of new rules is no longer than the graph and one number beyond it. -/
def preorder (g : RuleGraph) (roots : List RuleId) : List RuleId :=
  roots.foldl (fun met r => g.visit (g.size + 1) r met) []

/-- With the rules `met` behind it, a search that takes these rules from left to right, and all
below a new rule before the next, meets the last list of rules in its order. -/
inductive Visits (g : RuleGraph) : (met rs new : List RuleId) → Prop where
  | nil {met : List RuleId} : Visits g met [] []
  | old {met rs new : List RuleId} {r : RuleId} : r ∈ met → Visits g met rs new →
      Visits g met (r :: rs) new
  | new {met rs below beside : List RuleId} {r : RuleId} : r ∉ met →
      Visits g (met ++ [r]) (g.kind r).parts below → Visits g (met ++ r :: below) rs beside →
      Visits g met (r :: rs) (r :: (below ++ beside))

/-- What can be reached from a rule by going from rules that are no placeholders to their
children. -/
def Within (g : RuleGraph) : RuleId → RuleId → Prop :=
  Relation.ReflTransGen fun r p => g.isPlaceholder r = false ∧ p ∈ g.children r

/-- The grammar knows the rules of the preorder under the names they have in `g`, the first of each,
and `g'` is `g` with the unbound placeholders of the preorder bound to those that their own names
name. -/
structure BindsInPreorder (g : RuleGraph) (roots : List RuleId) (grammar : Grammar)
    (g' : RuleGraph) : Prop where
  rule? : ∀ n, grammar.rule? n =
    (g.preorder roots).find? fun r => !g.isPlaceholder r && g.name r == n
  mem_names : ∀ n, n ∈ grammar.names ↔
    ∃ r ∈ g.preorder roots, g.isPlaceholder r = false ∧ g.name r = n
  sorted : grammar.names.Pairwise (· < ·)
  bound : ∀ p ∈ g.preorder roots, p < g.size → g.kind p = .placeholder none →
    ∃ t, grammar.rule? (g.ownName p) = some t ∧ g'.kind p = .placeholder (some t)
  kind : ∀ r, ¬ (r ∈ g.preorder roots ∧ g.kind r = .placeholder none) → g'.kind r = g.kind r
  ownName : ∀ r, g'.ownName r = g.ownName r
  name : ∀ r, g'.name r = g.name r

end StreamPeg.RuleGraph
