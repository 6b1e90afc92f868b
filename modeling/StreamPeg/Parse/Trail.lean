import Mathlib.Data.List.Chain
import StreamPeg.Parse.Positional

/-!
# Trails

A match of a rule tries other rules in turn, each at some position. A trail is the way that it has
gone down: from a rule and a position to a part that is tried in the course of matching it there,
followed to the rule that it stands for, and so on. The last rule of a trail that ends with a
mismatch is a literal, and `Differs` is what a truthful diagnosis says of it.
-/

namespace StreamPeg

namespace RuleGraph

/-- The rule matches at `pos` and goes on to `pos'`. -/
def Matches (g : RuleGraph) (data : List UInt8) (r : RuleId) (pos pos' : Nat) : Prop :=
  ∃ depth, g.matcher data depth r pos = (.ok (), pos')

def Mismatches (g : RuleGraph) (data : List UInt8) (r : RuleId) (pos : Nat) : Prop :=
  ∃ depth e, (g.matcher data depth r pos).1 = .error (.mismatch e)

/-- The rules match one after another. -/
inductive InTurn (g : RuleGraph) (data : List UInt8) : List RuleId → Nat → Nat → Prop where
  | nil {pos : Nat} : InTurn g data [] pos pos
  | cons {r : RuleId} {rs : List RuleId} {pos pos' pos'' : Nat} : g.Matches data r pos pos' →
      InTurn g data rs pos' pos'' → InTurn g data (r :: rs) pos pos''

/-- A part that a rule comes to if it is matched at a position, and where it is tried: a part of a
sequence behind those before it, an alternative where all before it mismatch, or what is repeated
behind fewer matches than are required. -/
inductive Tries (g : RuleGraph) (data : List UInt8) : RuleId × Nat → RuleId × Nat → Prop where
  | sequence {r p : RuleId} {before after : List RuleId} {pos pos' : Nat} :
      g.kind r = .sequence (before ++ p :: after) → g.InTurn data before pos pos' →
      Tries g data (r, pos) (p, pos')
  | choice {r p : RuleId} {before after : List RuleId} {pos : Nat} :
      g.kind r = .choice (before ++ p :: after) → (∀ q ∈ before, g.Mismatches data q pos) →
      Tries g data (r, pos) (p, pos)
  | required {r p : RuleId} {min k : Nat} {max : Option Nat} {pos pos' : Nat} :
      g.kind r = .repetition p min max → k < min → g.InTurn data (List.replicate k p) pos pos' →
      Tries g data (r, pos) (p, pos')

structure Trail (g : RuleGraph) (data : List UInt8) (start : RuleId × Nat)
    (trail : List (RuleId × Nat)) (stop : RuleId × Nat) : Prop where
  head : trail.head? = some start
  last : trail.getLast? = some stop
  steps : trail.IsChain fun a b =>
    ∃ c ∈ g.children a.1, b.1 = g.follow c ∧ g.Tries data a (c, b.2)
  rules : ∀ a ∈ trail, g.isPlaceholder a.1 = false

end RuleGraph

/-- The mismatch is where these bytes, tried at `pos`, first differ from the data, and says what is
found there instead. -/
structure Mismatch.Differs (e : Mismatch) (data bytes : List UInt8) (pos : Nat) : Prop where
  offset : e.offset = pos + commonLength bytes (data.drop pos)
  short : commonLength bytes (data.drop pos) < bytes.length
  detail : e.offset = data.length ∧ e.detail = .endOfData ∨
    ∃ x y, bytes[e.offset - pos]? = some x ∧ data[e.offset]? = some y ∧ e.detail = .unexpected x y

/-- The mismatch is that of a literal at the end of a trail, and its path are the names of the
trail's rules. -/
def RuleGraph.Explains (g : RuleGraph) (data : List UInt8) (start : RuleId × Nat) (e : Mismatch) :
    Prop :=
  ∃ trail l p bytes, g.Trail data start trail (l, p) ∧ trail.map (g.name ·.1) = e.path ∧
    start.2 ≤ p ∧ g.kind l = .literal bytes ∧ e.Differs data bytes p

end StreamPeg
