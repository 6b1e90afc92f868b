import StreamPeg.Cursor.Event
import StreamPeg.Rule.Graph

/-!
# Resolving placeholders

`resolve roots` walks the graph depth first from the roots, in order, without going on behind a
placeholder. The rules met on the way are known by the names they have then, the first of a name
before later ones, and each unbound placeholder met is bound to the rule that its own name names.
If a name is missing nothing is bound at all. `release` undoes every binding of the placeholders
that the walk has met, whoever made it.
-/

namespace StreamPeg

inductive ResolveError where
  | unresolved (names : List String)
  deriving DecidableEq, Repr

def ResolveError.message : ResolveError → String
  | .unresolved names =>
    "couldn't find rule(s) for placeholder(s): " ++ String.intercalate ", " names

/-- What a resolved graph is known by: its rules under the names they had, and its placeholders. -/
structure Grammar where
  roots : List RuleId
  rules : List (String × RuleId)
  placeholders : List RuleId
  deriving DecidableEq, Repr

namespace Grammar

def rule? (grammar : Grammar) (name : String) : Option RuleId := grammar.rules.lookup name

/-- The names of all rules, sorted. -/
def names (grammar : Grammar) : List String :=
  (grammar.rules.map (·.1)).mergeSort

end Grammar

/-- A grammar, and how many placeholders were bound to make it one. -/
structure Resolution where
  grammar : Grammar
  bound : Nat
  deriving DecidableEq, Repr

def Resolution.record (resolution : Resolution) : Record :=
  ⟨.debug, "resolved grammar: " ++ toString resolution.grammar.rules.length ++ " named rules, " ++
    toString resolution.grammar.placeholders.length ++ " placeholders, " ++
    toString resolution.bound ++ " newly bound"⟩

/-- The record of a release that undid so many bindings. -/
def releaseRecord (unbound : Nat) : Record :=
  ⟨.debug, "released grammar: " ++ toString unbound ++ " placeholders unbound"⟩

namespace RuleGraph

/-! ### The walk -/

/-- Takes rules from a stack, at most `steps` of them, and puts the parts of each new one on top.
Those met so far are listed newest first. -/
def walk (g : RuleGraph) : (steps : Nat) → (stack met : List RuleId) → List RuleId
  | 0, _, met => met
  | _ + 1, [], met => met
  | steps + 1, r :: stack, met =>
    if r ∈ met then g.walk steps stack met
    else g.walk steps ((g.kind r).parts ++ stack) (r :: met)

/-- How many parts all the rules have together. -/
def partCount (g : RuleGraph) : Nat :=
  (g.rules.toList.flatMap (·.kind.parts)).length

/-- The rules that the walk meets, in its order. Each root and each part is taken once at most. -/
def reached (g : RuleGraph) (roots : List RuleId) : List RuleId :=
  (g.walk (roots.length + g.partCount) roots []).reverse

/-- Rules under their names, the first of a name only. -/
def named (g : RuleGraph) : List RuleId → List (String × RuleId)
  | [] => []
  | r :: rs => (g.name r, r) :: (g.named rs).filter (·.1 ≠ g.name r)

theorem lookup_filter_ne (rules : List (String × RuleId)) {n k : String} (h : n ≠ k) :
    (rules.filter (·.1 ≠ k)).lookup n = rules.lookup n := by
  induction rules with
  | nil => rfl
  | cons rule rules ih =>
    by_cases hk : rule.1 = k
    · rw [List.filter_cons_of_neg (by simpa using hk), ih, List.lookup_cons,
        beq_eq_false_iff_ne.mpr (hk ▸ h)]
    · rw [List.filter_cons_of_pos (by simpa using hk), List.lookup_cons, List.lookup_cons, ih]

theorem lookup_named (g : RuleGraph) (rs : List RuleId) (n : String) :
    (g.named rs).lookup n = rs.find? (g.name · == n) := by
  induction rs with
  | nil => rfl
  | cons r rs ih =>
    rw [named, List.lookup_cons, List.find?_cons]
    by_cases hn : n = g.name r
    · simp [hn]
    · rw [beq_eq_false_iff_ne.mpr hn, beq_eq_false_iff_ne.mpr (Ne.symm hn)]
      exact (lookup_filter_ne _ hn).trans ih

theorem mem_named (g : RuleGraph) (rs : List RuleId) (n : String) :
    n ∈ (g.named rs).map (·.1) ↔ ∃ r ∈ rs, g.name r = n := by
  induction rs with
  | nil => simp [named]
  | cons r rs ih =>
    rw [List.mem_map] at ih ⊢
    by_cases hn : g.name r = n
    · simp [named, hn]
    · simp only [named, List.mem_cons, List.mem_filter]
      grind

theorem nodup_named (g : RuleGraph) (rs : List RuleId) : ((g.named rs).map (·.1)).Nodup := by
  induction rs with
  | nil => exact List.nodup_nil
  | cons r rs ih =>
    rw [named, List.map_cons, List.nodup_cons]
    refine ⟨by simp, ih.sublist (List.filter_sublist.map _)⟩

/-- The grammar that the walk finds. -/
def grammarOf (g : RuleGraph) (roots : List RuleId) : Grammar :=
  let met := g.reached roots
  { roots := roots
    rules := g.named (met.filter (!g.isPlaceholder ·))
    placeholders := met.filter g.isPlaceholder }

theorem rule?_grammarOf (g : RuleGraph) (roots : List RuleId) (n : String) :
    (g.grammarOf roots).rule? n =
      (g.reached roots).find? fun r => !g.isPlaceholder r && g.name r == n := by
  rw [Grammar.rule?, grammarOf, lookup_named, List.find?_filter]
  simp only [Bool.decide_and, Bool.decide_eq_true]

theorem mem_names_grammarOf (g : RuleGraph) (roots : List RuleId) (n : String) :
    n ∈ (g.grammarOf roots).names ↔
      ∃ r ∈ g.reached roots, g.isPlaceholder r = false ∧ g.name r = n := by
  rw [Grammar.names, List.mem_mergeSort, grammarOf, mem_named]
  simp only [List.mem_filter, Bool.not_eq_true', and_assoc]

/-! ### Binding -/

/-- The placeholders of a grammar that are not bound. -/
def unbound (g : RuleGraph) (grammar : Grammar) : List RuleId :=
  grammar.placeholders.filter (!g.isBound ·)

/-- The names that no rule of the grammar answers to, in the order in which they are met. -/
def missing (g : RuleGraph) (grammar : Grammar) : List String :=
  (((g.unbound grammar).map g.ownName).filter (grammar.rule? · |>.isNone)).eraseDups

theorem mem_unbound (g : RuleGraph) (roots : List RuleId) (p : RuleId) :
    p ∈ g.unbound (g.grammarOf roots) ↔ p ∈ g.reached roots ∧ g.kind p = .placeholder none := by
  simp only [unbound, grammarOf, List.mem_filter, and_assoc, kind_eq_placeholder_none_iff,
    Bool.not_eq_true']

theorem missing_eq_nil_iff (g : RuleGraph) (grammar : Grammar) :
    g.missing grammar = [] ↔
      ∀ p ∈ g.unbound grammar, ∃ t, grammar.rule? (g.ownName p) = some t := by
  have he (names : List String) : names.eraseDups = [] ↔ names = [] := by
    cases names <;> simp [List.eraseDups_cons]
  simp [missing, he, List.filter_eq_nil_iff, Option.ne_none_iff_exists']

/-- Binds each of the placeholders by its own name. -/
def bindAll (g : RuleGraph) (grammar : Grammar) (placeholders : List RuleId) : RuleGraph :=
  placeholders.foldl (fun h p => h.setTarget p (grammar.rule? (h.ownName p))) g

/-- No placeholder is given another name on the way. -/
theorem bindAll_eq (g : RuleGraph) (grammar : Grammar) (ps : List RuleId) :
    g.bindAll grammar ps =
      ps.foldl (fun h p => h.setTarget p (grammar.rule? (g.ownName p))) g := by
  suffices hs : ∀ h : RuleGraph, (∀ r, h.ownName r = g.ownName r) → h.bindAll grammar ps =
      ps.foldl (fun h p => h.setTarget p (grammar.rule? (g.ownName p))) h from hs g fun _ => rfl
  induction ps with
  | nil => exact fun _ _ => rfl
  | cons p ps ih =>
    intro h hn
    rw [bindAll, List.foldl_cons, List.foldl_cons, hn]
    exact ih _ fun r => (h.ownName_setTarget p _ r).trans (hn r)

@[simp] theorem size_bindAll (g : RuleGraph) (grammar : Grammar) (ps : List RuleId) :
    (g.bindAll grammar ps).size = g.size := by
  rw [bindAll_eq, size_setTargets]

@[simp] theorem ownName_bindAll (g : RuleGraph) (grammar : Grammar) (ps : List RuleId)
    (r : RuleId) : (g.bindAll grammar ps).ownName r = g.ownName r := by
  rw [bindAll_eq, ownName_setTargets]

theorem kind_bindAll (g : RuleGraph) (grammar : Grammar) (ps : List RuleId) (r : RuleId) :
    (g.bindAll grammar ps).kind r =
      if r ∈ ps ∧ r < g.size ∧ g.isPlaceholder r then .placeholder (grammar.rule? (g.ownName r))
      else g.kind r := by
  rw [bindAll_eq, kind_setTargets]

def resolve (g : RuleGraph) (roots : List RuleId) : Except ResolveError Resolution × RuleGraph :=
  let grammar := g.grammarOf roots
  match g.missing grammar with
  | [] =>
    let unbound := g.unbound grammar
    (.ok ⟨grammar, unbound.length⟩, g.bindAll grammar unbound)
  | names => (.error (.unresolved names), g)

theorem resolve_ok {g g' : RuleGraph} {roots : List RuleId} {resolution : Resolution}
    (h : g.resolve roots = (.ok resolution, g')) :
    g.missing (g.grammarOf roots) = [] ∧ resolution.grammar = g.grammarOf roots ∧
      resolution.bound = (g.unbound (g.grammarOf roots)).length ∧
      g' = g.bindAll (g.grammarOf roots) (g.unbound (g.grammarOf roots)) := by
  simp only [resolve] at h
  split at h
  · next hm =>
    obtain ⟨rfl, rfl⟩ : _ ∧ _ := by simpa using h
    exact ⟨hm, rfl, rfl, rfl⟩
  · cases h

theorem resolve_error {g g' : RuleGraph} {roots : List RuleId} {e : ResolveError}
    (h : g.resolve roots = (.error e, g')) : g' = g := by
  simp only [resolve] at h
  split at h
  · cases h
  · exact (congrArg Prod.snd h).symm

/-- Undoes the bindings of a grammar's placeholders, and says how many there were. -/
def release (g : RuleGraph) (grammar : Grammar) : Nat × RuleGraph :=
  (grammar.placeholders.countP g.isBound,
    grammar.placeholders.foldl (fun h p => h.setTarget p none) g)

theorem kind_release (g : RuleGraph) (grammar : Grammar) (r : RuleId) :
    (g.release grammar).2.kind r =
      if r ∈ grammar.placeholders ∧ r < g.size ∧ g.isPlaceholder r then .placeholder none
      else g.kind r :=
  g.kind_setTargets (fun _ => none) grammar.placeholders r

end RuleGraph

end StreamPeg
