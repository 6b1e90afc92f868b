import Mathlib.Algebra.BigOperators.Group.Finset.Basic
import Mathlib.Algebra.Order.BigOperators.Group.Finset
import Mathlib.Data.Finset.Card
import Mathlib.Data.Finset.Range
import StreamPeg.Proofs.LeftRecursion
import StreamPeg.Rule.Preorder
import StreamPeg.Rule.Resolve

/-!
# The walk meets rules in preorder

The walk keeps a stack in which a rule may stand many times, and finds out that it has met a rule
when it comes to it. What it does with the rules on top of its stack is nothing but a recursive
search through them (`walk_of_visits`), after which the rest of the stack is as it was. So
it meets the same rules as `preorder`, in the same order (`reached_eq_preorder`): the rules within
the roots, each once.
-/

namespace StreamPeg.RuleGraph

variable {g : RuleGraph} {met rs new stack roots : List RuleId} {r : RuleId}

/-! ### What a search meets -/

namespace Visits

theorem append {rs' new' : List RuleId} (h : g.Visits met rs new)
    (h' : g.Visits (met ++ new) rs' new') : g.Visits met (rs ++ rs') (new ++ new') := by
  induction h with
  | nil => simpa using h'
  | old hr _ ih => exact .old hr (ih h')
  | @new met rs below beside r hr hb _ _ ih =>
    have hrest := ih (by simpa using h')
    simpa using Visits.new hr hb hrest

theorem disjoint (h : g.Visits met rs new) (hr : r ∈ new) : r ∉ met := by
  induction h with
  | nil => cases hr
  | old _ _ ih => exact ih hr
  | new hn _ _ ihb ihs =>
    rcases List.mem_cons.mp hr with rfl | hr
    · exact hn
    · rcases List.mem_append.mp hr with hr | hr
      · exact fun hm => ihb hr (List.mem_append_left _ hm)
      · exact fun hm => ihs hr (List.mem_append_left _ hm)

theorem nodup (h : g.Visits met rs new) : new.Nodup := by
  induction h with
  | nil => exact List.nodup_nil
  | old _ _ ih => exact ih
  | @new met rs below beside r hn hb hs ihb ihs =>
    have hbelow : r ∉ below := fun hm => hb.disjoint hm (by simp)
    have hbeside : r ∉ beside := fun hm => hs.disjoint hm (by simp)
    refine List.nodup_cons.mpr ⟨by simp [hbelow, hbeside], List.nodup_append.mpr ⟨ihb, ihs, ?_⟩⟩
    rintro a ha _ ha' rfl
    exact hs.disjoint ha' (by simp [ha])

/-- Everything that was to be taken has been met. -/
theorem mem (h : g.Visits met rs new) (hr : r ∈ rs) : r ∈ met ∨ r ∈ new := by
  induction h with
  | nil => cases hr
  | old hm _ ih =>
    rcases List.mem_cons.mp hr with rfl | hr
    · exact .inl hm
    · exact ih hr
  | new _ _ _ _ ihs =>
    rcases List.mem_cons.mp hr with rfl | hr
    · exact .inr List.mem_cons_self
    · have := ihs hr
      grind

/-- No part of a new rule is left out. -/
theorem mem_of_part {p : RuleId} (h : g.Visits met rs new) (hr : r ∈ new)
    (hp : p ∈ (g.kind r).parts) : p ∈ met ∨ p ∈ new := by
  induction h with
  | nil => cases hr
  | old _ _ ih => exact ih hr
  | new _ hb hs ihb ihs =>
    rcases List.mem_cons.mp hr with rfl | hr
    · have := hb.mem hp
      grind
    · rcases List.mem_append.mp hr with hr | hr
      · have := ihb hr
        grind
      · have := ihs hr
        grind

/-- What is met is below one of the rules that were to be taken. -/
theorem exists_root (h : g.Visits met rs new) (hr : r ∈ new) :
    ∃ root ∈ rs, Relation.ReflTransGen (fun r p => p ∈ (g.kind r).parts) root r := by
  induction h with
  | nil => cases hr
  | old _ _ ih =>
    obtain ⟨root, hroot, hpath⟩ := ih hr
    exact ⟨root, List.mem_cons_of_mem _ hroot, hpath⟩
  | @new met rs below beside s _ _ _ ihb ihs =>
    rcases List.mem_cons.mp hr with rfl | hr
    · exact ⟨r, List.mem_cons_self, .refl⟩
    · rcases List.mem_append.mp hr with hr | hr
      · obtain ⟨part, hpart, hpath⟩ := ihb hr
        exact ⟨s, List.mem_cons_self, .head hpart hpath⟩
      · obtain ⟨root, hroot, hpath⟩ := ihs hr
        exact ⟨root, List.mem_cons_of_mem _ hroot, hpath⟩

end Visits

/-! ### Searching recursively -/

/-- The rules of the graph that have not been met. -/
def unmet (g : RuleGraph) (met : List RuleId) : Finset RuleId :=
  (Finset.range g.size).filter (· ∉ met)

theorem card_unmet_le (g : RuleGraph) (met : List RuleId) : (g.unmet met).card ≤ g.size := by
  have h := Finset.card_filter_le (Finset.range g.size) (· ∉ met)
  rwa [Finset.card_range] at h

theorem card_unmet_append_le (g : RuleGraph) (met new : List RuleId) :
    (g.unmet (met ++ new)).card ≤ (g.unmet met).card := by
  refine Finset.card_le_card fun r hr => ?_
  simp only [unmet, Finset.mem_filter, List.mem_append, not_or] at hr ⊢
  exact ⟨hr.1, hr.2.1⟩

theorem card_unmet_lt (hr : r < g.size) (hm : r ∉ met) :
    (g.unmet (met ++ [r])).card < (g.unmet met).card := by
  apply Finset.card_lt_card
  refine (Finset.ssubset_iff_of_subset fun s hs => ?_).mpr ⟨r, ?_, ?_⟩
  · simp only [unmet, Finset.mem_filter, List.mem_append, not_or] at hs ⊢
    exact ⟨hs.1, hs.2.1⟩
  · simpa [unmet] using ⟨hr, hm⟩
  · simp [unmet]

/-- If each of the rules is visited like this, so are all of them one after the other. -/
theorem visits_foldl {n : Nat} {f : List RuleId → RuleId → List RuleId}
    (hf : ∀ met r, (g.unmet met).card < n →
      ∃ new, f met r = met ++ new ∧ g.Visits met [r] new) (rs : List RuleId)
    (hb : (g.unmet met).card < n) :
    ∃ new, rs.foldl f met = met ++ new ∧ g.Visits met rs new := by
  induction rs generalizing met with
  | nil => exact ⟨[], by simp, .nil⟩
  | cons r rs ih =>
    obtain ⟨new, he, hv⟩ := hf met r hb
    obtain ⟨new', he', hv'⟩ := ih (Nat.lt_of_le_of_lt (g.card_unmet_append_le met new) hb)
    refine ⟨new ++ new', ?_, hv.append hv'⟩
    rw [List.foldl_cons, he, he', List.append_assoc]

theorem visits_visit {depth : Nat} (hd : (g.unmet met).card < depth) (r : RuleId) :
    ∃ new, g.visit depth r met = met ++ new ∧ g.Visits met [r] new := by
  induction depth generalizing met r with
  | zero => exact absurd hd (Nat.not_lt_zero _)
  | succ depth ih =>
    by_cases hr : r ∈ met
    · exact ⟨[], by simp [visit, hr], .old hr .nil⟩
    rw [visit, if_neg hr]
    -- Beyond the graph there are no parts, and so nothing that could go deeper.
    rcases Nat.lt_or_ge r g.size with hlt | hge
    · have hb := card_unmet_lt hlt hr
      obtain ⟨below, he, hv⟩ := visits_foldl (f := fun met part => g.visit depth part met)
        (fun met r hb => ih hb r) (g.kind r).parts
        (Nat.lt_of_lt_of_le hb (Nat.le_of_lt_succ hd))
      exact ⟨r :: (below ++ []), by rw [he]; simp, .new hr hv .nil⟩
    · have hparts : (g.kind r).parts = [] := by rw [kind_of_size_le hge, RuleKind.parts]
      have hv : g.Visits (met ++ [r]) (g.kind r).parts [] := by rw [hparts]; exact .nil
      exact ⟨[r], by rw [hparts]; rfl, .new hr hv .nil⟩

theorem visits_preorder (g : RuleGraph) (roots : List RuleId) :
    g.Visits [] roots (g.preorder roots) := by
  obtain ⟨new, he, hv⟩ := visits_foldl (n := g.size + 1)
    (f := fun met r => g.visit (g.size + 1) r met) (fun met r hb => visits_visit hb r) roots
    (Nat.lt_succ_of_le (g.card_unmet_le []))
  rw [preorder, he]
  exact hv

/-! ### Walking with a stack -/

theorem walk_nil (g : RuleGraph) (steps : Nat) (met : List RuleId) :
    g.walk steps [] met = met := by
  cases steps <;> rfl

/-- The walk takes each rule of the search and each part of a new one from its stack, once. -/
theorem walk_of_visits (h : g.Visits met rs new) (steps : Nat) (stack : List RuleId) :
    g.walk (rs.length + (new.flatMap fun r => (g.kind r).parts).length + steps) (rs ++ stack)
        met.reverse =
      g.walk steps stack (met ++ new).reverse := by
  induction h generalizing steps stack with
  | nil => simp
  | @old met rs new r hr _ ih =>
    have hsteps : (r :: rs).length + (new.flatMap fun r => (g.kind r).parts).length + steps =
        rs.length + (new.flatMap fun r => (g.kind r).parts).length + steps + 1 := by
      rw [List.length_cons]
      omega
    rw [hsteps, List.cons_append, walk, if_pos (List.mem_reverse.mpr hr)]
    exact ih steps stack
  | @new met rs below beside r hr _ _ ihb ihs =>
    have hsteps : (r :: rs).length + ((r :: (below ++ beside)).flatMap fun r =>
        (g.kind r).parts).length + steps =
      (g.kind r).parts.length + (below.flatMap fun r => (g.kind r).parts).length +
        (rs.length + (beside.flatMap fun r => (g.kind r).parts).length + steps) + 1 := by
      simp only [List.length_cons, List.flatMap_cons, List.flatMap_append, List.length_append]
      omega
    rw [hsteps, List.cons_append, walk, if_neg (mt List.mem_reverse.mp hr)]
    have hb := ihb (rs.length + (beside.flatMap fun r => (g.kind r).parts).length + steps)
      (rs ++ stack)
    rw [List.reverse_append, List.reverse_singleton, List.singleton_append] at hb
    rw [hb]
    have hs := ihs steps stack
    simp only [List.append_assoc, List.cons_append] at hs ⊢
    exact hs

theorem partCount_eq (g : RuleGraph) :
    g.partCount = ∑ r ∈ Finset.range g.size, (g.kind r).parts.length := by
  have hrules : g.rules.toList = (List.range g.size).map g.rule := by
    apply List.ext_getElem (by simp [size])
    intro r hr _
    simp only [List.getElem_map, List.getElem_range, rule, Array.getElem_toList]
    rw [Array.getD_eq_getD_getElem?, Array.getElem?_eq_getElem, Option.getD_some]
  have hrange : (List.range g.size).toFinset = Finset.range g.size := by
    ext r
    simp
  rw [partCount, hrules, List.length_flatMap, List.map_map, ← hrange,
    List.sum_toFinset _ List.nodup_range]
  rfl

/-- Each rule of the graph is met once at most, so the walk has steps enough. -/
theorem length_parts_le (hn : new.Nodup) :
    (new.flatMap fun r => (g.kind r).parts).length ≤ g.partCount := by
  rw [partCount_eq, List.length_flatMap, ← List.sum_toFinset _ hn]
  refine Finset.sum_le_sum_of_ne_zero fun r _ hr => ?_
  rw [Finset.mem_range]
  by_contra hge
  rw [kind_of_size_le (Nat.le_of_not_lt hge)] at hr
  exact hr rfl

theorem reached_of_visits (h : g.Visits [] roots new) : g.reached roots = new := by
  obtain ⟨left, hleft⟩ := Nat.exists_eq_add_of_le (length_parts_le (g := g) h.nodup)
  have hw := walk_of_visits h left []
  rw [List.append_nil, List.nil_append, walk_nil, List.reverse_nil, Nat.add_assoc, ← hleft] at hw
  rw [reached, hw, List.reverse_reverse]

theorem reached_eq_preorder (g : RuleGraph) (roots : List RuleId) :
    g.reached roots = g.preorder roots :=
  reached_of_visits (g.visits_preorder roots)

theorem visits_reached (g : RuleGraph) (roots : List RuleId) :
    g.Visits [] roots (g.reached roots) :=
  g.reached_eq_preorder roots ▸ g.visits_preorder roots

/-! ### What the walk meets -/

theorem part_iff (g : RuleGraph) (r p : RuleId) :
    p ∈ (g.kind r).parts ↔ g.isPlaceholder r = false ∧ p ∈ g.children r := by
  constructor
  · intro hp
    have hr := isPlaceholder_of_mem_parts hp
    exact ⟨hr, by rwa [children, follow_of_isPlaceholder_eq_false hr]⟩
  · rintro ⟨hr, hp⟩
    rwa [children, follow_of_isPlaceholder_eq_false hr] at hp

theorem mem_reached_iff : r ∈ g.reached roots ↔ ∃ root ∈ roots, g.Within root r := by
  have hv := g.visits_reached roots
  simp only [Within, ← part_iff]
  constructor
  · exact hv.exists_root
  · rintro ⟨root, hroot, hpath⟩
    induction hpath with
    | refl => exact (hv.mem hroot).resolve_left List.not_mem_nil
    | tail _ hp ih => exact (hv.mem_of_part ih hp).resolve_left List.not_mem_nil

end StreamPeg.RuleGraph
