import Mathlib.Data.Finset.Card
import Mathlib.Data.Finset.Range
import Mathlib.Logic.Relation
import Mathlib.Tactic.IntervalCases
import StreamPeg.Rule.Graph

/-!
# Left recursion

A rule is left-recursive if it can come back to itself before a byte has been consumed. `LeftPart`
is one such step: to an alternative, to what is repeated, to what a placeholder is bound to, or to a
member of a sequence that only nullable ones stand in front of. In a grammar that never leads back
to where it came from, `leftRank` falls with every such step, and it is never greater than the
number of rules.
-/

namespace StreamPeg.RuleGraph

/-- Rules that may match without consuming anything. -/
inductive Nullable (g : RuleGraph) : RuleId → Prop where
  | literal {r : RuleId} : g.kind r = .literal [] → Nullable g r
  | sequence {r : RuleId} {parts : List RuleId} : g.kind r = .sequence parts →
      (∀ p ∈ parts, Nullable g p) → Nullable g r
  | choice {r p : RuleId} {alternatives : List RuleId} : g.kind r = .choice alternatives →
      p ∈ alternatives → Nullable g p → Nullable g r
  | optional {r p : RuleId} {max : Option Nat} : g.kind r = .repetition p 0 max → Nullable g r
  | repeated {r p : RuleId} {min : Nat} {max : Option Nat} : g.kind r = .repetition p min max →
      Nullable g p → Nullable g r
  | target {r p : RuleId} : g.kind r = .placeholder (some p) → Nullable g p → Nullable g r

inductive LeftPart (g : RuleGraph) : RuleId → RuleId → Prop where
  | sequence {r p : RuleId} {before after : List RuleId} :
      g.kind r = .sequence (before ++ p :: after) → (∀ q ∈ before, g.Nullable q) → LeftPart g r p
  | choice {r p : RuleId} {alternatives : List RuleId} : g.kind r = .choice alternatives →
      p ∈ alternatives → LeftPart g r p
  | repeated {r p : RuleId} {min : Nat} {max : Option Nat} : g.kind r = .repetition p min max →
      LeftPart g r p
  | target {r p : RuleId} : g.kind r = .placeholder (some p) → LeftPart g r p

/-- A rule that matching may go on with, after whatever has been consumed. -/
def Uses (g : RuleGraph) (r p : RuleId) : Prop := p ∈ (g.kind r).parts ∨ g.target? r = some p

def Reaches (g : RuleGraph) : RuleId → RuleId → Prop := Relation.ReflTransGen g.Uses

/-- Nothing that `r` is made of leads back to itself by left parts. -/
def NonLeftRecursive (g : RuleGraph) (r : RuleId) : Prop :=
  ∀ s, g.Reaches r s → ¬ Relation.TransGen g.LeftPart s s

theorem LeftPart.uses {g : RuleGraph} {r p : RuleId} (h : g.LeftPart r p) : g.Uses r p := by
  cases h with
  | sequence hk _ => exact .inl (by simp [hk, RuleKind.parts])
  | choice hk hp => exact .inl (by simpa [hk, RuleKind.parts] using hp)
  | repeated hk => exact .inl (by simp [hk, RuleKind.parts])
  | target hk => exact .inr (by simp [target?, hk])

theorem LeftPart.lt_size {g : RuleGraph} {r p : RuleId} (h : g.LeftPart r p) : r < g.size := by
  by_contra hr
  have hk := kind_of_size_le (Nat.le_of_not_lt hr)
  cases h <;> simp_all

/-- A grammar whose left parts can be numbered downwards is not left-recursive. -/
theorem nonLeftRecursive_of_rank {g : RuleGraph} (rank : RuleId → Nat)
    (h : ∀ r p, g.LeftPart r p → rank p < rank r) (r : RuleId) : g.NonLeftRecursive r := by
  intro s _ hs
  have hlt : ∀ {p}, Relation.TransGen g.LeftPart s p → rank p < rank s := by
    intro p hp
    induction hp with
    | single hp => exact h _ _ hp
    | tail _ hp ih => exact (h _ _ hp).trans ih
  exact (hlt hs).false

/-- A grammar in which every use of a rule goes downwards does not even have recursion. -/
theorem nonLeftRecursive_of_falling {g : RuleGraph} (rank : RuleId → Nat)
    (h : ∀ r < g.size, ∀ p ∈ (g.kind r).parts ++ (g.target? r).toList, rank p < rank r)
    (r : RuleId) : g.NonLeftRecursive r :=
  nonLeftRecursive_of_rank rank
    (fun r p hp => h r hp.lt_size p (by simpa [Uses] using hp.uses)) r

/-- A literal with a byte in it consumes one. -/
theorem not_nullable_literal {g : RuleGraph} {r : RuleId} {b : UInt8} {bs : List UInt8}
    (h : g.kind r = .literal (b :: bs)) : ¬ g.Nullable r := by
  intro hn
  cases hn <;> simp_all

/-- Nested parentheses around an `x`, where the inner rule is a placeholder bound to the outer. -/
def nested : RuleGraph :=
  ⟨#[⟨"nested", .choice [1, 4]⟩, ⟨"group", .sequence [2, 5, 3]⟩, ⟨"open", .literal [40]⟩,
    ⟨"close", .literal [41]⟩, ⟨"x", .literal [120]⟩, ⟨"nested", .placeholder (some 0)⟩]⟩

/-- The way back to the start leads over an opening parenthesis. -/
theorem nonLeftRecursive_nested : nested.NonLeftRecursive 0 := by
  refine nonLeftRecursive_of_rank (fun r => [2, 1, 0, 0, 0, 3].getD r 0) (fun r p h => ?_) 0
  have hlt : r < 6 := h.lt_size
  have h0 : nested.kind 0 = .choice [1, 4] := rfl
  have h1 : nested.kind 1 = .sequence [2, 5, 3] := rfl
  have h2 : nested.kind 2 = .literal [40] := rfl
  have h3 : nested.kind 3 = .literal [41] := rfl
  have h4 : nested.kind 4 = .literal [120] := rfl
  have h5 : nested.kind 5 = .placeholder (some 0) := rfl
  have hopen := not_nullable_literal h2
  interval_cases r <;> cases h <;> simp_all
  · next h =>
    rcases h with rfl | rfl <;> decide
  · next before _ _ hn =>
    cases before <;> simp_all

/-! ### Ranks -/

open Classical in
/-- The rules that a rule can come to, itself among them, before anything is consumed. -/
noncomputable def leftReach (g : RuleGraph) (r : RuleId) : Finset RuleId :=
  (Finset.range g.size).filter (Relation.ReflTransGen g.LeftPart r)

noncomputable def leftRank (g : RuleGraph) (r : RuleId) : Nat := (g.leftReach r).card

theorem mem_leftReach {g : RuleGraph} {r s : RuleId} :
    s ∈ g.leftReach r ↔ s < g.size ∧ Relation.ReflTransGen g.LeftPart r s := by
  simp only [leftReach, Finset.mem_filter, Finset.mem_range]

theorem leftRank_le_size (g : RuleGraph) (r : RuleId) : g.leftRank r ≤ g.size := by
  have h : g.leftReach r ⊆ Finset.range g.size := by
    intro s hs
    exact Finset.mem_range.mpr (mem_leftReach.mp hs).1
  have hc := Finset.card_le_card h
  rwa [Finset.card_range] at hc

theorem leftRank_pos {g : RuleGraph} {r : RuleId} (h : r < g.size) : 0 < g.leftRank r :=
  Finset.card_pos.mpr ⟨r, mem_leftReach.mpr ⟨h, .refl⟩⟩

theorem leftRank_lt {g : RuleGraph} {r p : RuleId} (h : g.LeftPart r p)
    (hr : ¬ Relation.TransGen g.LeftPart r r) : g.leftRank p < g.leftRank r := by
  have hsub : g.leftReach p ⊆ g.leftReach r := by
    intro s hs
    obtain ⟨hlt, hp⟩ := mem_leftReach.mp hs
    exact mem_leftReach.mpr ⟨hlt, .head h hp⟩
  have hmem : r ∈ g.leftReach r := mem_leftReach.mpr ⟨h.lt_size, .refl⟩
  have hnot : r ∉ g.leftReach p := fun hm => hr (.head' h (mem_leftReach.mp hm).2)
  exact Finset.card_lt_card ((Finset.ssubset_iff_of_subset hsub).mpr ⟨r, hmem, hnot⟩)

end StreamPeg.RuleGraph
