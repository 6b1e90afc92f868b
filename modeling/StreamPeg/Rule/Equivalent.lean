import Mathlib.Data.List.Forall2
import Mathlib.Logic.Relation
import StreamPeg.Rule.Graph

/-!
# Rules that are the same but for placeholders

A recursive rule can be written down in many ways, as one graph that leads back into itself or as
any of its unfoldings, and each part can be referred to itself or through placeholders. Rules of two
graphs are `Equivalent` if a bisimulation relates them: related rules, when they have been followed
to those that they stand for, agree in name and kind and have related parts. `Unfolds` says of a
whole graph that it has been made from another by copying rules and by referring to what a
placeholder stands for in its place.
-/

namespace StreamPeg

/-- The same kind with the same bytes and bounds, and the parts related one by one. -/
inductive RuleKind.Similar (R : RuleId → RuleId → Prop) : RuleKind → RuleKind → Prop where
  | literal (bytes : List UInt8) : Similar R (.literal bytes) (.literal bytes)
  | sequence {parts parts' : List RuleId} : List.Forall₂ R parts parts' →
      Similar R (.sequence parts) (.sequence parts')
  | choice {alternatives alternatives' : List RuleId} : List.Forall₂ R alternatives alternatives' →
      Similar R (.choice alternatives) (.choice alternatives')
  | repetition {part part' : RuleId} (min : Nat) (max : Option Nat) : R part part' →
      Similar R (.repetition part min max) (.repetition part' min max)
  | bound {target target' : RuleId} : R target target' →
      Similar R (.placeholder (some target)) (.placeholder (some target'))
  | unbound : Similar R (.placeholder none) (.placeholder none)

namespace RuleKind.Similar

variable {R : RuleId → RuleId → Prop} {k : RuleKind} {p' : RuleId}

theorem refl (hR : ∀ p, R p p) (k : RuleKind) : k.Similar R k := by
  cases k with
  | literal bytes => exact .literal bytes
  | sequence parts => exact .sequence (List.forall₂_same.mpr fun p _ => hR p)
  | choice alternatives => exact .choice (List.forall₂_same.mpr fun p _ => hR p)
  | repetition part min max => exact .repetition min max (hR part)
  | placeholder target =>
    cases target with
    | none => exact .unbound
    | some target => exact .bound (hR target)

theorem flip {k' : RuleKind} (h : k.Similar R k') : k'.Similar (flip R) k := by
  cases h with
  | literal bytes => exact .literal bytes
  | sequence hp => exact .sequence hp.flip
  | choice hp => exact .choice hp.flip
  | repetition min max hp => exact .repetition min max hp
  | bound hp => exact .bound hp
  | unbound => exact .unbound

theorem of_literal {bytes : List UInt8} (h : k.Similar R (.literal bytes)) :
    k = .literal bytes := by
  cases h
  rfl

theorem of_sequence {parts' : List RuleId} (h : k.Similar R (.sequence parts')) :
    ∃ parts, k = .sequence parts ∧ List.Forall₂ R parts parts' := by
  cases h with
  | sequence hp => exact ⟨_, rfl, hp⟩

theorem of_choice {alternatives' : List RuleId} (h : k.Similar R (.choice alternatives')) :
    ∃ alternatives, k = .choice alternatives ∧ List.Forall₂ R alternatives alternatives' := by
  cases h with
  | choice hp => exact ⟨_, rfl, hp⟩

theorem of_repetition {min : Nat} {max : Option Nat}
    (h : k.Similar R (.repetition p' min max)) : ∃ p, k = .repetition p min max ∧ R p p' := by
  cases h with
  | repetition _ _ hp => exact ⟨_, rfl, hp⟩

theorem of_bound (h : k.Similar R (.placeholder (some p'))) :
    ∃ p, k = .placeholder (some p) ∧ R p p' := by
  cases h with
  | bound hp => exact ⟨_, rfl, hp⟩

end RuleKind.Similar

namespace RuleGraph

/-- The name of an unbound placeholder is its own name, and a parse by it fails with that. -/
structure Bisimulation (g g' : RuleGraph) (R : RuleId → RuleId → Prop) : Prop where
  name : ∀ {r r' : RuleId}, R r r' → g.name r = g'.name r'
  similar : ∀ {r r' : RuleId}, R r r' → (g.kind (g.follow r)).Similar R (g'.kind (g'.follow r'))

theorem Bisimulation.flip {g g' : RuleGraph} {R : RuleId → RuleId → Prop}
    (h : Bisimulation g g' R) : Bisimulation g' g (flip R) where
  name hR := (h.name hR).symm
  similar hR := (h.similar hR).flip

def Equivalent (g g' : RuleGraph) (r r' : RuleId) : Prop :=
  ∃ R, Bisimulation g g' R ∧ R r r'

/-- One is the other, or a placeholder that leads to it. -/
def StandsFor (g : RuleGraph) : RuleId → RuleId → Prop :=
  Relation.ReflTransGen fun p q => g.target? p = some q

/-- Each rule of `g'` is a copy of one of `g`, its `origin`: where that has a part, or a target, the
copy has a copy of the same one or of one that it stands for. A rule may have any number of copies,
so this is what is left of a recursion after any number of unfoldings. -/
structure Unfolds (g g' : RuleGraph) (origin : RuleId → RuleId) : Prop where
  ownName : ∀ r', g.ownName (origin r') = g'.ownName r'
  similar : ∀ r',
    (g.kind (origin r')).Similar (fun p p' => g.StandsFor p (origin p')) (g'.kind r')

end RuleGraph

end StreamPeg
