import Mathlib.Data.List.Sort
import Mathlib.Data.String.Basic
import StreamPeg.Proofs.Preorder
import StreamPeg.Rule.Workbench

/-!
# What a resolution binds

A resolution knows its rules in preorder (`resolve_in_preorder`). Binding changes no name, of
whatever rule: a placeholder bound by its own name goes on under the name it had, now as that of the
rule it stands for (`name_eq_of_bound`). There is always room for one more binding at the end of a
chain, since a chain takes fewer bindings than there are rules (`exists_followUpTo_lt`).
-/

namespace StreamPeg

namespace RuleGraph

variable {g g' : RuleGraph} {r s t : RuleId}

/-! ### Chains of bindings -/

theorem lt_size_of_target? (h : g.target? r = some t) : r < g.size := by
  by_contra hr
  rw [target?, kind_of_size_le (Nat.le_of_not_lt hr)] at h
  cases h

theorem followUpTo_lt_size {i k : Nat} (he : g.followUpTo k r = s) (hlt : s < g.size)
    (hi : i ≤ k) : g.followUpTo i r < g.size := by
  cases ht : g.target? (g.followUpTo i r) with
  | some t => exact lt_size_of_target? ht
  | none =>
    -- A chain that has ended stays where it is.
    have hstay : g.followUpTo k r = g.followUpTo i r := by
      rw [← Nat.add_sub_cancel' hi, followUpTo_add, followUpTo_of_unbound ht]
    rwa [← hstay, he]

/-- On the shortest way to a rule no other is met twice. -/
theorem exists_followUpTo_lt {n : Nat} (he : g.followUpTo n r = s) (hlt : s < g.size) :
    ∃ k < g.size, g.followUpTo k r = s := by
  have hex : ∃ k, g.followUpTo k r = s := ⟨n, he⟩
  have hend : g.followUpTo (Nat.find hex) r = s := Nat.find_spec hex
  have hfirst (i : Nat) (hi : g.followUpTo i r = s) : Nat.find hex ≤ i := Nat.find_min' hex hi
  generalize Nat.find hex = k at hend hfirst
  refine ⟨k, ?_, hend⟩
  have hmem : ∀ i ∈ Finset.range (k + 1), g.followUpTo i r ∈ Finset.range g.size := by
    intro i hi
    rw [Finset.mem_range] at hi ⊢
    exact followUpTo_lt_size hend hlt (Nat.le_of_lt_succ hi)
  have hle {i j : Nat} (hj : j < k + 1) (hij : g.followUpTo i r = g.followUpTo j r) : j ≤ i := by
    have hshort : g.followUpTo (i + (k - j)) r = s := by
      rw [followUpTo_add, hij, ← followUpTo_add, Nat.add_sub_cancel' (Nat.le_of_lt_succ hj), hend]
    have hk := hfirst _ hshort
    omega
  have hinj : Set.InjOn (fun i => g.followUpTo i r) (Finset.range (k + 1)) := by
    intro i hi j hj hij
    simp only [Finset.coe_range, Set.mem_Iio] at hi hj hij
    exact Nat.le_antisymm (hle hi hij.symm) (hle hj hij)
  have hcard := Finset.card_le_card_of_injOn _ hmem hinj
  rwa [Finset.card_range, Finset.card_range] at hcard

theorem followUpTo_congr (hk : ∀ q t, g.target? q = some t → g'.target? q = some t) {n : Nat}
    (he : g'.target? (g.followUpTo n r) = g.target? (g.followUpTo n r)) :
    g'.followUpTo n r = g.followUpTo n r := by
  induction n generalizing r with
  | zero => rfl
  | succ n ih =>
    cases ht : g.target? r with
    | none =>
      rw [followUpTo_of_unbound ht, ht] at he
      rw [followUpTo_of_unbound ht, followUpTo_of_unbound he]
    | some t =>
      simp only [followUpTo, ht, hk r t ht] at he ⊢
      exact ih he

/-- A chain that has been bound further at its end goes on from there. -/
theorem followUpTo_of_bound (hk : ∀ q t, g.target? q = some t → g'.target? q = some t) {n k : Nat}
    (he : g.followUpTo n r = s) (hs : g.target? s = none) (hs' : g'.target? s = some t)
    (ht : g'.target? t = none) : g'.followUpTo (n + 1 + k) r = t := by
  induction n generalizing r with
  | zero =>
    obtain rfl : r = s := he
    rw [followUpTo_add]
    simp only [followUpTo, hs', followUpTo_of_unbound ht]
  | succ n ih =>
    rw [show n + 1 + 1 + k = (n + 1 + k) + 1 by omega]
    cases hr : g.target? r with
    | none =>
      rw [followUpTo_of_unbound hr] at he
      subst he
      simp only [followUpTo, hs', followUpTo_of_unbound ht]
    | some q =>
      simp only [followUpTo, hr, hk r q hr] at he ⊢
      exact ih he

/-- Placeholders have been bound to rules of their names, and nothing else has changed. -/
theorem name_eq_of_bound (hsize : g'.size = g.size) (hown : ∀ r, g'.ownName r = g.ownName r)
    (hk : ∀ r, g'.target? r = g.target? r ∨ r < g.size ∧ g.target? r = none ∧
      ∃ t, g'.target? r = some t ∧ g'.target? t = none ∧ g.ownName t = g.ownName r)
    (r : RuleId) : g'.name r = g.name r := by
  have hmono : ∀ q t, g.target? q = some t → g'.target? q = some t := by
    intro q t ht
    rcases hk q with he | ⟨-, hn, -⟩
    · rw [he, ht]
    · rw [hn] at ht
      cases ht
  rw [name, name, hown, follow, follow, hsize]
  rcases hk (g.followUpTo g.size r) with he | ⟨hlt, hn, t, ht, htn, hname⟩
  · rw [followUpTo_congr hmono he]
  · obtain ⟨k, hklt, hend⟩ := exists_followUpTo_lt rfl hlt
    have hf := followUpTo_of_bound (k := g.size - (k + 1)) hmono hend hn ht htn
    rw [Nat.add_sub_cancel' hklt] at hf
    rw [hf, hname]

/-! ### Resolving -/

theorem sorted_names_grammarOf (g : RuleGraph) (roots : List RuleId) :
    (g.grammarOf roots).names.Pairwise (· < ·) := by
  have hn : (g.grammarOf roots).names.Nodup :=
    (List.mergeSort_perm _ _).nodup_iff.mpr (g.nodup_named _)
  have hle : (g.grammarOf roots).names.Pairwise (· ≤ ·) := List.pairwise_mergeSort' (· ≤ ·) _
  exact (hle.and hn).imp fun h => lt_of_le_of_ne h.1 h.2

theorem rule?_grammarOf_eq_some {roots : List RuleId} {n : String}
    (h : (g.grammarOf roots).rule? n = some t) :
    t ∈ g.reached roots ∧ g.isPlaceholder t = false ∧ g.name t = n := by
  rw [rule?_grammarOf] at h
  refine ⟨List.mem_of_find?_eq_some h, ?_⟩
  simpa using List.find?_some h

section

variable {roots : List RuleId} {resolution : Resolution}
  (h : g.resolve roots = (.ok resolution, g'))
include h

theorem kind_of_met (hr : r ∈ g.reached roots) (hlt : r < g.size)
    (hn : g.kind r = .placeholder none) :
    ∃ t, resolution.grammar.rule? (g.ownName r) = some t ∧ g'.kind r = .placeholder (some t) := by
  obtain ⟨hm, hgrammar, -, rfl⟩ := resolve_ok h
  have hmem := (g.mem_unbound roots r).mpr ⟨hr, hn⟩
  obtain ⟨t, ht⟩ := (g.missing_eq_nil_iff _).mp hm r hmem
  refine ⟨t, hgrammar ▸ ht, ?_⟩
  rw [kind_bindAll, if_pos ⟨hmem, hlt, isPlaceholder_of_kind_eq hn⟩, ht]

theorem kind_of_not_met (hr : ¬ (r ∈ g.reached roots ∧ r < g.size ∧ g.kind r = .placeholder none)) :
    g'.kind r = g.kind r := by
  obtain ⟨-, -, -, rfl⟩ := resolve_ok h
  rw [kind_bindAll, if_neg fun hc => ?_]
  obtain ⟨hmem, hlt, -⟩ := hc
  obtain ⟨hreached, hn⟩ := (g.mem_unbound roots r).mp hmem
  exact hr ⟨hreached, hlt, hn⟩

/-- What a resolution does to a rule: nothing, or it binds it to a rule of its name. -/
theorem kind_of_resolve (r : RuleId) :
    g'.kind r = g.kind r ∨ r < g.size ∧ g.kind r = .placeholder none ∧ ∃ t ∈ g.reached roots,
      g.isPlaceholder t = false ∧ g.name t = g.ownName r ∧ g'.kind r = .placeholder (some t) := by
  by_cases hr : r ∈ g.reached roots ∧ r < g.size ∧ g.kind r = .placeholder none
  · obtain ⟨hmet, hlt, hn⟩ := hr
    obtain ⟨t, ht, hk⟩ := kind_of_met h hmet hlt hn
    rw [(resolve_ok h).2.1] at ht
    obtain ⟨hreached, hp, hname⟩ := rule?_grammarOf_eq_some ht
    exact .inr ⟨hlt, hn, t, hreached, hp, hname, hk⟩
  · exact .inl (kind_of_not_met h hr)

theorem name_of_resolve (r : RuleId) : g'.name r = g.name r := by
  have hsize : g'.size = g.size := by
    obtain ⟨-, -, -, rfl⟩ := resolve_ok h
    exact g.size_bindAll _ _
  have hown (r : RuleId) : g'.ownName r = g.ownName r := by
    obtain ⟨-, -, -, rfl⟩ := resolve_ok h
    exact g.ownName_bindAll _ _ r
  refine name_eq_of_bound hsize hown (fun r => ?_) r
  rcases kind_of_resolve h r with hk | ⟨hlt, hn, t, -, hp, hname, hk⟩
  · exact .inl (by rw [target?, target?, hk])
  · have htn := target?_of_isPlaceholder_eq_false hp
    rw [name, follow_of_unbound htn] at hname
    refine .inr ⟨hlt, by rw [target?, hn], t, by rw [target?, hk], ?_, hname⟩
    rcases kind_of_resolve h t with hkt | ⟨-, hnt, -⟩
    · rwa [target?, hkt]
    · rw [isPlaceholder, hnt] at hp
      cases hp

theorem bindsInPreorder_of_resolve : g.BindsInPreorder roots resolution.grammar g' := by
  have hgrammar := (resolve_ok h).2.1
  constructor
  case rule? => exact fun n => hgrammar ▸ g.reached_eq_preorder roots ▸ g.rule?_grammarOf roots n
  case mem_names =>
    exact fun n => hgrammar ▸ g.reached_eq_preorder roots ▸ g.mem_names_grammarOf roots n
  case sorted => exact hgrammar ▸ g.sorted_names_grammarOf roots
  case bound => exact g.reached_eq_preorder roots ▸ fun p hp hlt hn => kind_of_met h hp hlt hn
  case kind =>
    exact g.reached_eq_preorder roots ▸ fun r hr => kind_of_not_met h fun hc => hr ⟨hc.1, hc.2.2⟩
  case ownName =>
    obtain ⟨-, -, -, rfl⟩ := resolve_ok h
    exact g.ownName_bindAll _ _
  case name => exact name_of_resolve h

end

end RuleGraph

namespace Workbench

theorem step_rename_grammars (w : Workbench) (r : RuleId) (n : String) :
    (w.step (.rename r n)).grammars = w.grammars := by
  unfold step
  split <;> rfl

theorem run_rename_grammars (w : Workbench) (renames : List (RuleId × String)) :
    (w.run (renames.map fun e => .rename e.1 e.2)).grammars = w.grammars := by
  induction renames generalizing w with
  | nil => rfl
  | cons e renames ih => exact (ih _).trans (w.step_rename_grammars e.1 e.2)

theorem step_resolve_ok {w : Workbench} {roots : List RuleId} {resolution : Resolution}
    {g' : RuleGraph} (hr : ∀ r ∈ roots, r < w.graph.size)
    (h : w.graph.resolve roots = (.ok resolution, g')) :
    w.step (.resolve roots) = ⟨g', w.grammars ++ [resolution.grammar]⟩ := by
  rw [step, if_pos (by exact hr), make, h]

/-- The walk meets what lies within the roots, each rule once and in preorder. If it succeeds, the
grammar that it adds to those at hand has been bound in that order, and whatever rules are renamed
later, it is still the same. -/
theorem resolve_in_preorder (w : Workbench) (roots : List RuleId) :
    w.graph.Visits [] roots (w.graph.reached roots) ∧
    w.graph.reached roots = w.graph.preorder roots ∧
    (w.graph.reached roots).Nodup ∧
    (∀ r, r ∈ w.graph.reached roots ↔ ∃ root ∈ roots, w.graph.Within root r) ∧
    ∀ resolution g', w.graph.resolve roots = (.ok resolution, g') →
      (∀ r ∈ roots, r < w.graph.size) →
      (w.step (.resolve roots)).graph = g' ∧
      w.graph.BindsInPreorder roots resolution.grammar g' ∧
      ∀ renames : List (RuleId × String),
        ((w.step (.resolve roots)).run (renames.map fun e => .rename e.1 e.2)).grammars =
          w.grammars ++ [resolution.grammar] := by
  refine ⟨w.graph.visits_reached roots, w.graph.reached_eq_preorder roots,
    (w.graph.visits_reached roots).nodup, fun r => RuleGraph.mem_reached_iff,
    fun resolution g' h hr => ?_⟩
  rw [step_resolve_ok hr h]
  exact ⟨rfl, RuleGraph.bindsInPreorder_of_resolve h, fun renames => run_rename_grammars _ renames⟩

/-- `nested` before it is resolved. -/
def unboundNested : RuleGraph :=
  ⟨#[⟨"nested", .choice [1, 4]⟩, ⟨"group", .sequence [2, 5, 3]⟩, ⟨"open", .literal [40]⟩,
    ⟨"close", .literal [41]⟩, ⟨"x", .literal [120]⟩, ⟨"nested", .placeholder none⟩]⟩

def nestedResolution : Resolution :=
  ⟨⟨[0], [("nested", 0), ("group", 1), ("open", 2), ("close", 3), ("x", 4)], [5]⟩, 1⟩

theorem resolve_in_preorder_nested :
    unboundNested.resolve [0] = (.ok nestedResolution, .nested) ∧
    (∀ r ∈ [0], r < unboundNested.size) ∧
    unboundNested.BindsInPreorder [0] nestedResolution.grammar .nested ∧
    (((⟨unboundNested, []⟩ : Workbench).step (.resolve [0])).run
      [.rename 0 "outer", .rename 5 "inner"]).grammars = [nestedResolution.grammar] := by
  have h : unboundNested.resolve [0] = (.ok nestedResolution, .nested) := by decide
  have hr : ∀ r ∈ [0], r < unboundNested.size := by decide
  obtain ⟨-, -, -, -, hok⟩ := resolve_in_preorder ⟨unboundNested, []⟩ [0]
  obtain ⟨-, hbinds, hgrammars⟩ := hok nestedResolution .nested h hr
  exact ⟨h, hr, hbinds, hgrammars [(0, "outer"), (5, "inner")]⟩

end Workbench

end StreamPeg
