import StreamPeg.Proofs.Missing
import StreamPeg.Proofs.Release

/-!
# The order of the roots

What a resolution meets are the rules within its roots, each of them once, so lists of the same
roots meet the same rules, if in another order (`perm_reached`). All that does not depend on the
order of the rules does not depend on that of the roots either: the names, those that are missing,
and the placeholders that are bound. Which rule is known under a name is left to the order only if
there are two of that name (`NamesApart`).
-/

namespace StreamPeg.RuleGraph

variable {g g' : RuleGraph} {roots roots' : List RuleId} {r : RuleId} {n : String}

/-- No two rules within the roots have the same name, placeholders apart. -/
def NamesApart (g : RuleGraph) (roots : List RuleId) : Prop :=
  ∀ root ∈ roots, ∀ root' ∈ roots, ∀ r s, g.Within root r → g.Within root' s →
    g.isPlaceholder r = false → g.isPlaceholder s = false → g.name r = g.name s → r = s

/-! ### What is bound, and to what -/

/-- A placeholder is bound after a resolution if it was before, or has been met. -/
theorem isBound_iff_of_resolve {resolution : Resolution}
    (h : g.resolve roots = (.ok resolution, g')) (p : RuleId) :
    g'.isBound p ↔ g.isBound p ∨ p ∈ g.reached roots ∧ p < g.size ∧ g.isPlaceholder p := by
  by_cases hp : p ∈ g.reached roots ∧ p < g.size ∧ g.kind p = .placeholder none
  · obtain ⟨hmet, hlt, hn⟩ := hp
    obtain ⟨t, -, hk⟩ := kind_of_met h hmet hlt hn
    have hplaceholder : g.isPlaceholder p := (kind_eq_placeholder_none_iff.mp hn).1
    simp [isBound, target?, hk, hmet, hlt, hplaceholder]
  · have hk := kind_of_not_met h hp
    have hsame : g'.isBound p = g.isBound p := by rw [isBound, isBound, target?, target?, hk]
    rw [hsame]
    refine ⟨.inl, fun hb => hb.elim id ?_⟩
    rintro ⟨hmet, hlt, hplaceholder⟩
    by_contra hfree
    exact hp ⟨hmet, hlt,
      kind_eq_placeholder_none_iff.mpr ⟨hplaceholder, Bool.eq_false_iff.mpr hfree⟩⟩

theorem rule?_grammarOf_eq_some_iff (hn : g.NamesApart roots) :
    (g.grammarOf roots).rule? n = some r ↔
      r ∈ g.reached roots ∧ g.isPlaceholder r = false ∧ g.name r = n := by
  refine ⟨rule?_grammarOf_eq_some, fun ⟨hr, hp, hname⟩ => ?_⟩
  rcases hs : (g.grammarOf roots).rule? n with _ | s
  · rw [rule?_grammarOf, List.find?_eq_none] at hs
    simpa [hp, hname] using hs r hr
  · obtain ⟨hs, hp', hname'⟩ := rule?_grammarOf_eq_some hs
    obtain ⟨root, hroot, hwithin⟩ := mem_reached_iff.mp hr
    obtain ⟨root', hroot', hwithin'⟩ := mem_reached_iff.mp hs
    rw [hn root hroot root' hroot' r s hwithin hwithin' hp hp' (hname.trans hname'.symm)]

/-! ### The same roots -/

section

variable (h : ∀ r, r ∈ roots ↔ r ∈ roots')
include h

theorem mem_reached_congr : r ∈ g.reached roots ↔ r ∈ g.reached roots' := by
  simp only [mem_reached_iff, h]

theorem perm_reached (g : RuleGraph) : (g.reached roots).Perm (g.reached roots') :=
  (List.perm_ext_iff_of_nodup (g.visits_reached roots).nodup (g.visits_reached roots').nodup).mpr
    fun _ => mem_reached_congr h

theorem perm_unbound (g : RuleGraph) :
    (g.unbound (g.grammarOf roots)).Perm (g.unbound (g.grammarOf roots')) :=
  ((perm_reached h g).filter _).filter _

theorem names_congr (g : RuleGraph) :
    (g.grammarOf roots).names = (g.grammarOf roots').names := by
  have hsorted := g.sorted_names_grammarOf roots
  have hsorted' := g.sorted_names_grammarOf roots'
  have hperm : (g.grammarOf roots).names.Perm (g.grammarOf roots').names := by
    refine (List.perm_ext_iff_of_nodup (hsorted.imp ne_of_lt) (hsorted'.imp ne_of_lt)).mpr
      fun n => ?_
    simp only [mem_names_grammarOf, mem_reached_congr h]
  exact hperm.eq_of_pairwise (fun _ _ _ _ hlt hgt => absurd hlt (lt_asymm hgt)) hsorted hsorted'

theorem dangling_congr (p : RuleId) : g.Dangling roots p ↔ g.Dangling roots' p := by
  simp only [Dangling, ← reached_eq_preorder, mem_reached_congr h]

theorem perm_missing (g : RuleGraph) :
    (g.missing (g.grammarOf roots)).Perm (g.missing (g.grammarOf roots')) := by
  have hnodup (roots : List RuleId) : (g.missing (g.grammarOf roots)).Nodup := by
    refine (g.pairwise_missing roots).imp ?_
    rintro n _ hlt rfl
    exact Nat.lt_irrefl _ hlt
  refine (List.perm_ext_iff_of_nodup (hnodup roots) (hnodup roots')).mpr fun n => ?_
  simp only [mem_missing_iff, dangling_congr h]

theorem namesApart_congr (hn : g.NamesApart roots) : g.NamesApart roots' := by
  simpa only [NamesApart, h] using hn

theorem rule?_congr (hn : g.NamesApart roots) (n : String) :
    (g.grammarOf roots').rule? n = (g.grammarOf roots).rule? n := by
  refine Option.ext fun r => ?_
  rw [rule?_grammarOf_eq_some_iff hn, rule?_grammarOf_eq_some_iff (namesApart_congr h hn),
    mem_reached_congr h]

theorem bindAll_congr (hn : g.NamesApart roots) :
    g.bindAll (g.grammarOf roots') (g.unbound (g.grammarOf roots')) =
      g.bindAll (g.grammarOf roots) (g.unbound (g.grammarOf roots)) := by
  refine eq_of_kind_eq ?_ (fun r => ?_) fun r => ?_
  · rw [size_bindAll, size_bindAll]
  · rw [ownName_bindAll, ownName_bindAll]
  · simp only [kind_bindAll, (perm_unbound h g).mem_iff, rule?_congr h hn]

end

/-- Two lists of the same roots, whatever their order and however often a root stands in them.

They fail alike, and then the same names are missing. If they do not fail, the names of the grammars
are the same and so are the placeholders that are bound, and if no two of the rules share a name,
every name is that of the same rule and the graph is the same afterwards. -/
theorem resolve_of_same_roots (g : RuleGraph) {roots roots' : List RuleId}
    (h : ∀ r, r ∈ roots ↔ r ∈ roots') :
    (∀ names g', g.resolve roots = (.error (.unresolved names), g') →
      ∃ names', g.resolve roots' = (.error (.unresolved names'), g') ∧ names.Perm names') ∧
    ∀ resolution g', g.resolve roots = (.ok resolution, g') →
      ∃ resolution' g'', g.resolve roots' = (.ok resolution', g'') ∧
        resolution'.grammar.names = resolution.grammar.names ∧
        resolution'.bound = resolution.bound ∧
        (∀ p, g''.isBound p = g'.isBound p) ∧
        (g.NamesApart roots →
          (∀ n, resolution'.grammar.rule? n = resolution.grammar.rule? n) ∧ g'' = g') := by
  have hmissing := perm_missing h g
  constructor
  · intro names g' hr
    have hne := missing_of_resolve_error (congrArg Prod.fst hr)
    obtain ⟨rfl, rfl⟩ : g.missing (g.grammarOf roots) = names ∧ g = g' := by
      simpa using (resolve_of_missing_ne_nil rfl hne).symm.trans hr
    exact ⟨_, resolve_of_missing_ne_nil rfl fun hnil => hne (hnil ▸ hmissing).eq_nil, hmissing⟩
  · intro resolution g' hr
    obtain ⟨hm, hgrammar, hbound, hg'⟩ := resolve_ok hr
    have hm' : g.missing (g.grammarOf roots') = [] := (hm ▸ hmissing).symm.eq_nil
    have hr' : g.resolve roots' =
        (.ok ⟨g.grammarOf roots', (g.unbound (g.grammarOf roots')).length⟩,
          g.bindAll (g.grammarOf roots') (g.unbound (g.grammarOf roots'))) := by
      simp only [resolve, hm']
    refine ⟨_, _, hr', ?_, ?_, fun p => ?_, fun hn => ⟨fun n => ?_, ?_⟩⟩
    · rw [hgrammar]
      exact (names_congr h g).symm
    · rw [hbound]
      exact (perm_unbound h g).length_eq.symm
    · rw [Bool.eq_iff_iff, isBound_iff_of_resolve hr', isBound_iff_of_resolve hr,
        mem_reached_congr h]
    · rw [hgrammar]
      exact rule?_congr h hn n
    · rw [hg']
      exact bindAll_congr h hn

/-- Two rules of one name, and a repetition of a placeholder for it. -/
def twins : RuleGraph :=
  ⟨#[⟨"x", .literal [120]⟩, ⟨"x", .literal [88]⟩, ⟨"x", .placeholder none⟩,
    ⟨"xs", .repetition 2 0 none⟩]⟩

/-- With one of the twins within the roots, and with none. -/
theorem resolve_of_same_roots_twins :
    (∀ r, r ∈ [1, 3] ↔ r ∈ [3, 1, 3]) ∧ (∀ r, r ∈ [3] ↔ r ∈ [3, 3]) ∧ twins.NamesApart [1, 3] ∧
    (∃ resolution resolution' g', twins.resolve [1, 3] = (.ok resolution, g') ∧
      twins.resolve [3, 1, 3] = (.ok resolution', g') ∧
      resolution'.grammar.names = resolution.grammar.names ∧
      ∀ n, resolution'.grammar.rule? n = resolution.grammar.rule? n) ∧
    twins.resolve [3] = (.error (.unresolved ["x"]), twins) ∧
    ∃ names, twins.resolve [3, 3] = (.error (.unresolved names), twins) ∧ ["x"].Perm names := by
  have h (r : RuleId) : r ∈ [1, 3] ↔ r ∈ [3, 1, 3] := by grind
  have h' (r : RuleId) : r ∈ [3] ↔ r ∈ [3, 3] := by simp
  have hapart : twins.NamesApart [1, 3] := by
    have hreached : ∀ r ∈ twins.reached [1, 3], ∀ s ∈ twins.reached [1, 3],
        twins.isPlaceholder r = false → twins.isPlaceholder s = false →
        twins.name r = twins.name s → r = s := by decide
    exact fun root hroot root' hroot' r s hr hs => hreached r
      (mem_reached_iff.mpr ⟨root, hroot, hr⟩) s (mem_reached_iff.mpr ⟨root', hroot', hs⟩)
  have hlacking : twins.resolve [3] = (.error (.unresolved ["x"]), twins) := by decide
  obtain ⟨-, hok⟩ := resolve_of_same_roots twins h
  obtain ⟨hfails, -⟩ := resolve_of_same_roots twins h'
  obtain ⟨resolution, g', hresolved⟩ :
      ∃ resolution g', twins.resolve [1, 3] = (.ok resolution, g') := ⟨_, _, rfl⟩
  obtain ⟨resolution', g', hr, hnames, -, -, hsame⟩ := hok _ _ hresolved
  obtain ⟨hlookup, rfl⟩ := hsame hapart
  exact ⟨h, h', hapart, ⟨resolution, resolution', g', hresolved, hr, hnames, hlookup⟩, hlacking,
    hfails _ _ hlacking⟩

/-- With both of them, it is the first that is known by the name. -/
example : (twins.grammarOf [0, 1, 3]).rule? "x" = some 0 ∧
    (twins.grammarOf [3, 1, 0]).rule? "x" = some 1 := by decide

end StreamPeg.RuleGraph
