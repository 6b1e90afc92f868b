import StreamPeg.Text.Quoted

/-!
# Rules

A grammar is a graph of rules. A rule has a name for diagnostics and a kind: a literal, or a
sequence, a choice or a repetition of other rules, or a placeholder for the rule of its name. Rules
refer to each other by number, so one rule may stand in many places, and a placeholder that is bound
to a rule above it makes the grammar recursive.

A bound placeholder stands for its target: `follow` goes from a placeholder to the rule it stands
for, and the name and the children of a placeholder are those of that rule. Its own name, which it
is resolved by, stays behind.
-/

namespace StreamPeg

abbrev RuleId := Nat

/-- A repetition without `max` has no upper bound. -/
inductive RuleKind where
  | literal (bytes : List UInt8)
  | sequence (parts : List RuleId)
  | choice (alternatives : List RuleId)
  | repetition (part : RuleId) (min : Nat) (max : Option Nat)
  | placeholder (target : Option RuleId)
  deriving DecidableEq, Repr

namespace RuleKind

def label : RuleKind → String
  | .literal _ => "Literal"
  | .sequence _ => "Sequence"
  | .choice _ => "Choice"
  | .repetition .. => "Repeat"
  | .placeholder _ => "Placeholder"

/-- The rules that a rule is made of. A placeholder is made of none, bound or not. -/
def parts : RuleKind → List RuleId
  | .literal _ => []
  | .sequence parts => parts
  | .choice alternatives => alternatives
  | .repetition part _ _ => [part]
  | .placeholder _ => []

def isPlaceholder : RuleKind → Bool
  | .placeholder _ => true
  | _ => false

end RuleKind

structure Rule where
  name : String
  kind : RuleKind
  deriving DecidableEq, Repr

structure RuleGraph where
  rules : Array Rule
  deriving DecidableEq, Repr

namespace RuleGraph

def empty : RuleGraph := ⟨#[]⟩

def size (g : RuleGraph) : Nat := g.rules.size

/-- A number beyond the graph is a nameless placeholder that nothing is bound to. -/
def rule (g : RuleGraph) (r : RuleId) : Rule :=
  g.rules.getD r ⟨"", .placeholder none⟩

def kind (g : RuleGraph) (r : RuleId) : RuleKind := (g.rule r).kind

/-- The name a placeholder is resolved by, whatever it is bound to. -/
def ownName (g : RuleGraph) (r : RuleId) : String := (g.rule r).name

def isPlaceholder (g : RuleGraph) (r : RuleId) : Bool := (g.kind r).isPlaceholder

/-- What a placeholder is bound to. -/
def target? (g : RuleGraph) (r : RuleId) : Option RuleId :=
  match g.kind r with
  | .placeholder target => target
  | _ => none

def isBound (g : RuleGraph) (r : RuleId) : Bool := (g.target? r).isSome

/-- Follows at most so many bindings. -/
def followUpTo (g : RuleGraph) : Nat → RuleId → RuleId
  | 0, r => r
  | n + 1, r =>
    match g.target? r with
    | some target => g.followUpTo n target
    | none => r

/-- The rule that `r` stands for. -/
def follow (g : RuleGraph) (r : RuleId) : RuleId := g.followUpTo g.size r

def name (g : RuleGraph) (r : RuleId) : String := g.ownName (g.follow r)

def children (g : RuleGraph) (r : RuleId) : List RuleId := (g.kind (g.follow r)).parts

/-- Changes the name of the rule that `r` stands for, and gives `r` back. -/
def rename (g : RuleGraph) (r : RuleId) (name : String) : RuleId × RuleGraph :=
  (r, ⟨g.rules.modify (g.follow r) ({ · with name })⟩)

/-- Binds a placeholder, or with `none` undoes its binding. Other rules stay as they are. -/
def setTarget (g : RuleGraph) (r : RuleId) (target : Option RuleId) : RuleGraph :=
  ⟨g.rules.modify r fun rule =>
    if rule.kind.isPlaceholder then { rule with kind := .placeholder target } else rule⟩

/-! ### Reading -/

theorem rule_of_size_le {g : RuleGraph} {r : RuleId} (h : g.size ≤ r) :
    g.rule r = ⟨"", .placeholder none⟩ := by
  have hn : g.rules[r]? = none := Array.getElem?_eq_none h
  rw [rule, Array.getD_eq_getD_getElem?, hn]
  rfl

theorem kind_of_size_le {g : RuleGraph} {r : RuleId} (h : g.size ≤ r) :
    g.kind r = .placeholder none := by
  rw [kind, rule_of_size_le h]

theorem kind_of_target? {g : RuleGraph} {r p : RuleId} (h : g.target? r = some p) :
    g.kind r = .placeholder (some p) := by
  unfold target? at h
  split at h
  · next hk => rw [hk, h]
  · cases h

theorem isPlaceholder_of_kind_eq {g : RuleGraph} {r : RuleId} {target : Option RuleId}
    (h : g.kind r = .placeholder target) : g.isPlaceholder r := by
  rw [isPlaceholder, h]
  rfl

theorem kind_eq_placeholder_none_iff {g : RuleGraph} {r : RuleId} :
    g.kind r = .placeholder none ↔ g.isPlaceholder r ∧ g.isBound r = false := by
  unfold isPlaceholder isBound target?
  rcases g.kind r with _ | _ | _ | _ | (_ | _) <;> simp [RuleKind.isPlaceholder]

theorem target?_of_isPlaceholder_eq_false {g : RuleGraph} {r : RuleId}
    (h : g.isPlaceholder r = false) : g.target? r = none := by
  unfold isPlaceholder at h
  unfold target?
  cases hk : g.kind r with
  | placeholder => simp [hk, RuleKind.isPlaceholder] at h
  | literal | sequence | choice | repetition => rfl

theorem lt_size_of_isPlaceholder_eq_false {g : RuleGraph} {r : RuleId}
    (h : g.isPlaceholder r = false) : r < g.size := by
  refine Nat.lt_of_not_le fun hr => ?_
  rw [isPlaceholder, kind_of_size_le hr] at h
  cases h

theorem isPlaceholder_of_mem_parts {g : RuleGraph} {r p : RuleId} (h : p ∈ (g.kind r).parts) :
    g.isPlaceholder r = false := by
  unfold isPlaceholder
  cases hk : g.kind r with
  | placeholder => simp [hk, RuleKind.parts] at h
  | literal | sequence | choice | repetition => rfl

theorem followUpTo_of_unbound {g : RuleGraph} {r : RuleId} (h : g.target? r = none) (n : Nat) :
    g.followUpTo n r = r := by
  cases n with
  | zero => rfl
  | succ n => simp only [followUpTo, h]

theorem follow_of_unbound {g : RuleGraph} {r : RuleId} (h : g.target? r = none) :
    g.follow r = r :=
  followUpTo_of_unbound h g.size

theorem follow_of_isPlaceholder_eq_false {g : RuleGraph} {r : RuleId}
    (h : g.isPlaceholder r = false) : g.follow r = r :=
  follow_of_unbound (target?_of_isPlaceholder_eq_false h)

theorem followUpTo_add (g : RuleGraph) (n k : Nat) (r : RuleId) :
    g.followUpTo (n + k) r = g.followUpTo k (g.followUpTo n r) := by
  induction n generalizing r with
  | zero => rw [Nat.zero_add, followUpTo]
  | succ n ih =>
    rw [Nat.add_right_comm]
    cases ht : g.target? r with
    | none => simp only [followUpTo_of_unbound ht]
    | some t => simpa only [followUpTo, ht] using ih t

/-! ### Writing -/

@[simp] theorem size_rename (g : RuleGraph) (r : RuleId) (name : String) :
    (g.rename r name).2.size = g.size := Array.size_modify

@[simp] theorem size_setTarget (g : RuleGraph) (r : RuleId) (target : Option RuleId) :
    (g.setTarget r target).size = g.size := Array.size_modify

theorem rule_modify (g : RuleGraph) (i r : RuleId) (f : Rule → Rule) :
    RuleGraph.rule ⟨g.rules.modify i f⟩ r =
      if i = r ∧ r < g.size then f (g.rule r) else g.rule r := by
  simp only [rule, size, Array.getD_eq_getD_getElem?, Array.getElem?_modify]
  by_cases hi : i = r
  · subst hi
    by_cases hr : i < g.rules.size
    · simp [hr]
    · simp [hr]
  · simp [hi]

@[simp] theorem kind_rename (g : RuleGraph) (i : RuleId) (name : String) (r : RuleId) :
    (g.rename i name).2.kind r = g.kind r := by
  rw [kind, rename, rule_modify]
  split <;> rfl

@[simp] theorem target?_rename (g : RuleGraph) (i : RuleId) (name : String) (r : RuleId) :
    (g.rename i name).2.target? r = g.target? r := by
  rw [target?, target?, kind_rename]

theorem ownName_rename (g : RuleGraph) (i : RuleId) (name : String) (r : RuleId) :
    (g.rename i name).2.ownName r =
      if g.follow i = r ∧ r < g.size then name else g.ownName r := by
  rw [ownName, rename, rule_modify]
  split <;> rfl

@[simp] theorem ownName_setTarget (g : RuleGraph) (p : RuleId) (target : Option RuleId)
    (r : RuleId) : (g.setTarget p target).ownName r = g.ownName r := by
  rw [ownName, setTarget, rule_modify]
  split
  · split <;> rfl
  · rfl

theorem kind_setTarget (g : RuleGraph) (p : RuleId) (target : Option RuleId) (r : RuleId) :
    (g.setTarget p target).kind r =
      if p = r ∧ r < g.size ∧ g.isPlaceholder r then .placeholder target else g.kind r := by
  rw [kind, setTarget, rule_modify]
  by_cases hr : p = r ∧ r < g.size
  · simp only [hr, true_and, if_true, isPlaceholder, kind]
    split <;> rfl
  · rw [if_neg hr, if_neg (fun h => hr ⟨h.1, h.2.1⟩), kind]

@[simp] theorem isPlaceholder_setTarget (g : RuleGraph) (p : RuleId) (target : Option RuleId)
    (r : RuleId) : (g.setTarget p target).isPlaceholder r = g.isPlaceholder r := by
  rw [isPlaceholder, kind_setTarget]
  split
  · next h => exact h.2.2.symm
  · rfl

section

variable (g : RuleGraph) (target : RuleId → Option RuleId) (ps : List RuleId)

theorem size_setTargets : (ps.foldl (fun h p => h.setTarget p (target p)) g).size = g.size := by
  induction ps generalizing g with
  | nil => rfl
  | cons p ps ih => exact (ih _).trans (g.size_setTarget p _)

theorem ownName_setTargets (r : RuleId) :
    (ps.foldl (fun h p => h.setTarget p (target p)) g).ownName r = g.ownName r := by
  induction ps generalizing g with
  | nil => rfl
  | cons p ps ih => exact (ih _).trans (g.ownName_setTarget p _ r)

theorem kind_setTargets (r : RuleId) :
    (ps.foldl (fun h p => h.setTarget p (target p)) g).kind r =
      if r ∈ ps ∧ r < g.size ∧ g.isPlaceholder r then .placeholder (target r) else g.kind r := by
  induction ps generalizing g with
  | nil => simp
  | cons p ps ih =>
    rw [List.foldl_cons, ih, kind_setTarget]
    grind [isPlaceholder_setTarget, size_setTarget]

end

/-- One line that shows a rule's name and kind. -/
def debugText (g : RuleGraph) (r : RuleId) : String :=
  "Rule \x7b name: " ++ Text.quoted (g.name r) ++ ", kind: " ++
    Text.quoted (g.kind r).label ++ " \x7d"

end RuleGraph

end StreamPeg
