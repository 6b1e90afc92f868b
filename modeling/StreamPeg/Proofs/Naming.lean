import StreamPeg.Proofs.Missing
import StreamPeg.Proofs.Release

/-!
# Names over a history

A resolution binds placeholders to rules that are none, so on every workbench a placeholder stands
for another rule by one binding and no more (`Coherent`), and a renaming shows in that rule and in
whatever is bound to it (`Renames`). The name that a placeholder has of its own can only be changed
while it is free. So it is still the one of the last time that it was free (`exists_lastFree`), and
that is what is left of it after a release, to be shown and to be resolved by (`names_of_history`).
-/

namespace StreamPeg

namespace RuleGraph

variable {g g' : RuleGraph} {r p t x : RuleId} {n : String}

/-! ### One binding away -/

theorem WellFormed.follow_eq (hg : g.WellFormed) (r : RuleId) :
    g.follow r = (g.target? r).getD r := by
  cases ht : g.target? r with
  | none => exact follow_of_unbound ht
  | some t => exact hg.follow_of_target (kind_of_target? ht)

/-- A placeholder stands for a rule that is none, and shares all that is asked of it with that. -/
structure Coherent (g : RuleGraph) : Prop where
  target : ∀ {p t}, g.target? p = some t → t < g.size ∧ g.isPlaceholder t = false
  ends : ∀ r, g.follow r = g.followUpTo 1 r ∧ g.target? (g.follow r) = none
  agrees : ∀ {p t}, g.target? p = some t →
    g.name p = g.name t ∧ g.children p = g.children t ∧ ∀ n, (g.rename p n).2 = (g.rename t n).2

theorem WellFormed.coherent (hg : g.WellFormed) : g.Coherent where
  target ht :=
    have hp := hg.target (kind_of_target? ht)
    ⟨lt_size_of_isPlaceholder_eq_false hp, hp⟩
  ends r := by
    rw [hg.follow_eq]
    cases ht : g.target? r with
    | none => simp [followUpTo, ht]
    | some t =>
      exact ⟨by simp [followUpTo, ht],
        target?_of_isPlaceholder_eq_false (hg.target (kind_of_target? ht))⟩
  agrees {p t} ht := by
    have hp : g.follow p = t := hg.follow_of_target (kind_of_target? ht)
    have hf : g.follow p = g.follow t := by
      rw [hp, follow_of_isPlaceholder_eq_false (hg.target (kind_of_target? ht))]
    exact ⟨by rw [name, name, hf], by rw [children, children, hf], fun n => by
      rw [rename, rename, hf]⟩

/-! ### Renaming -/

@[simp] theorem follow_rename (g : RuleGraph) (x : RuleId) (n : String) (r : RuleId) :
    (g.rename x n).2.follow r = g.follow r := by
  rw [follow, follow, size_rename]
  exact followUpTo_congr (fun q t ht => by rw [target?_rename, ht]) (target?_rename ..)

/-- A name is only ever given to a rule that is not bound. -/
theorem WellFormed.ownName_rename_of_bound (hg : g.WellFormed) (hp : g.isBound p) (x : RuleId)
    (n : String) : (g.rename x n).2.ownName p = g.ownName p := by
  rw [ownName_rename, if_neg]
  rintro ⟨rfl, -⟩
  rw [isBound, (hg.coherent.ends x).2] at hp
  cases hp

/-- What is different after `x` has been renamed to `n`. -/
structure Renames (g : RuleGraph) (x : RuleId) (n : String) (g' : RuleGraph) : Prop where
  kind : ∀ r, g'.kind r = g.kind r
  name : ∀ r, g'.name r =
    if r = (g.target? x).getD x ∨ g.target? r = some ((g.target? x).getD x) then n else g.name r
  ownName : ∀ p, g.isBound p → g'.ownName p = g.ownName p

theorem WellFormed.renames (hg : g.WellFormed) (hx : x < g.size) (n : String) :
    g.Renames x n (g.rename x n).2 where
  kind := g.kind_rename x n
  name r := by
    rw [RuleGraph.name, RuleGraph.name, follow_rename, ownName_rename, ← hg.follow_eq x]
    have hend := (hg.coherent.ends x).2
    have hlt : g.follow x < g.size := by
      rw [hg.follow_eq]
      cases ht : g.target? x with
      | none => exact hx
      | some t => exact (hg.coherent.target ht).1
    have hsame : (g.follow x = g.follow r ∧ g.follow r < g.size) ↔
        (r = g.follow x ∨ g.target? r = some (g.follow x)) := by
      rw [hg.follow_eq r]
      cases ht : g.target? r with
      | none => grind
      | some t => grind
    simp only [hsame]
  ownName _ hp := hg.ownName_rename_of_bound hp x n

/-! ### Resolving by name -/

/-- A resolution that meets this placeholder binds it to the rule that it knows by that name, and
where there is none it fails and reports the name. -/
def ResolvedBy (g : RuleGraph) (p : RuleId) (n : String) : Prop :=
  ∀ roots, (∃ root ∈ roots, g.Within root p) →
    (∀ resolution g', g.resolve roots = (.ok resolution, g') →
      ∃ t, resolution.grammar.rule? n = some t ∧ g.name t = n ∧ g'.target? p = some t) ∧
    ((∀ root ∈ roots, ∀ r, g.Within root r → g.isPlaceholder r = false → g.name r ≠ n) →
      ∃ names, g.resolve roots = (.error (.unresolved names), g) ∧ n ∈ names)

theorem resolvedBy_ownName (hlt : p < g.size) (hk : g.kind p = .placeholder none) :
    g.ResolvedBy p (g.ownName p) := by
  intro roots hp
  have hmet : p ∈ g.reached roots := mem_reached_iff.mpr hp
  refine ⟨fun resolution g' h => ?_, fun hnone => ?_⟩
  · obtain ⟨t, ht, hbound⟩ := kind_of_met h hmet hlt hk
    have hname := ht
    rw [(resolve_ok h).2.1] at hname
    exact ⟨t, ht, (rule?_grammarOf_eq_some hname).2.2, by rw [target?, hbound]⟩
  · have hdangling : g.Dangling roots p := by
      simp only [Dangling, ← reached_eq_preorder]
      refine ⟨hmet, hk, fun r hr hrule => ?_⟩
      obtain ⟨root, hroot, hwithin⟩ := mem_reached_iff.mp hr
      exact hnone root hroot r hwithin hrule
    have hmem := (g.mem_missing_iff roots (g.ownName p)).mpr ⟨p, hdangling, rfl⟩
    exact ⟨_, resolve_of_missing_ne_nil rfl (List.ne_nil_of_mem hmem), hmem⟩

/-- What a release has left free goes by its own name. -/
theorem name_of_release {grammar : Grammar} (hlt : p < g.size) (hp : g.isPlaceholder p)
    (hfree : (g.release grammar).2.isBound p = false) :
    (g.release grammar).2.name p = g.ownName p ∧
      (g.release grammar).2.ResolvedBy p (g.ownName p) := by
  have hrebinds := g.rebinds_release grammar
  have hk := kind_eq_placeholder_none_iff.mpr ⟨(hrebinds.isPlaceholder p).trans hp, hfree⟩
  have hf := follow_of_unbound (g := (g.release grammar).2) (r := p) (by rw [target?, hk])
  rw [name, hf, ← g.ownName_release grammar]
  exact ⟨rfl, resolvedBy_ownName (hrebinds.size.symm ▸ hlt) hk⟩

end RuleGraph

namespace Workbench

variable {w : Workbench} {e : Edit} {p : RuleId}

/-! ### The last time that a placeholder was free -/

/-- No edit leaves a placeholder bound and takes another name for its own. -/
theorem ownName_of_bound (hw : w.graph.WellFormed) (hp : (w.step e).graph.isBound p) :
    p < w.graph.size ∧ w.graph.isPlaceholder p ∧
      (w.step e).graph.ownName p = w.graph.ownName p := by
  obtain ⟨t, ht⟩ := Option.isSome_iff_exists.mp hp
  have hk := RuleGraph.kind_of_target? ht
  have hplaceholder := RuleGraph.isPlaceholder_of_kind_eq hk
  have hlt := RuleGraph.lt_size_of_target? ht
  rcases w.step_cases e with ha | ⟨r, n, hr⟩ | ⟨roots, resolution, -, hr⟩ | ⟨-, grammar, hr⟩
  · have hk' := ha.kind_of_bound hk
    have hlt' : p < w.graph.size :=
      RuleGraph.lt_size_of_target? (t := t) (by rw [RuleGraph.target?, hk'])
    exact ⟨hlt', RuleGraph.isPlaceholder_of_kind_eq hk', congrArg Rule.name (ha.rule_eq hlt')⟩
  · have hb := w.graph.rebinds_rename r n
    rw [hr] at hlt hplaceholder hp ⊢
    rw [RuleGraph.isBound, RuleGraph.target?_rename] at hp
    exact ⟨hb.size ▸ hlt, hb.isPlaceholder p ▸ hplaceholder, hw.ownName_rename_of_bound hp r n⟩
  · have hb := RuleGraph.rebinds_resolve hr
    refine ⟨hb.size ▸ hlt, hb.isPlaceholder p ▸ hplaceholder, ?_⟩
    rw [(RuleGraph.resolve_ok hr).2.2.2, RuleGraph.ownName_bindAll]
  · have hb := w.graph.rebinds_release grammar
    rw [hr] at hlt hplaceholder ⊢
    exact ⟨hb.size ▸ hlt, hb.isPlaceholder p ▸ hplaceholder, w.graph.ownName_release grammar p⟩

/-- After the edits `before` the placeholder was free, and since then it has never been again. -/
structure LastFree (before since : List Edit) (p : RuleId) : Prop where
  lt_size : p < (empty.run before).graph.size
  free : (empty.run before).graph.kind p = .placeholder none
  bound : ∀ next, next ≠ [] → next <+: since → (empty.run (before ++ next)).graph.isBound p

theorem LastFree.concat {before since : List Edit} (h : LastFree before since p)
    (hp : (empty.run (before ++ (since ++ [e]))).graph.isBound p) :
    LastFree before (since ++ [e]) p where
  lt_size := h.lt_size
  free := h.free
  bound next hne hnext := by
    rcases List.prefix_concat_iff.mp hnext with rfl | hnext
    · exact hp
    · exact h.bound next hne hnext

/-- A placeholder has been free at some time, and has kept the name that it had then. -/
theorem exists_lastFree (edits : List Edit) (hlt : p < (empty.run edits).graph.size)
    (hp : (empty.run edits).graph.isPlaceholder p) :
    ∃ before since, edits = before ++ since ∧ LastFree before since p ∧
      (empty.run edits).graph.ownName p = (empty.run before).graph.name p := by
  induction edits using List.reverseRecOn with
  | nil => cases hlt
  | append_singleton edits e ih =>
    by_cases hbound : (empty.run (edits ++ [e])).graph.isBound p
    · have hstep : empty.run (edits ++ [e]) = (empty.run edits).step e := run_append ..
      obtain ⟨hlt', hp', hname⟩ := ownName_of_bound (wellFormed_run edits) (hstep ▸ hbound)
      obtain ⟨before, since, rfl, hlast, hkept⟩ := ih hlt' hp'
      rw [List.append_assoc] at hbound
      refine ⟨before, since ++ [e], List.append_assoc .., hlast.concat hbound, ?_⟩
      rw [hstep, hname, hkept]
    · have hfree := Bool.eq_false_iff.mpr hbound
      have hn := RuleGraph.kind_eq_placeholder_none_iff.mpr ⟨hp, hfree⟩
      refine ⟨edits ++ [e], [], (List.append_nil _).symm, ⟨hlt, hn, ?_⟩, ?_⟩
      · exact fun next hne hnext => absurd (List.prefix_nil.mp hnext) hne
      · have ht : (empty.run (edits ++ [e])).graph.target? p = none := by rw [RuleGraph.target?, hn]
        rw [RuleGraph.name, RuleGraph.follow_of_unbound ht]

/-- A release leaves no placeholder of its grammar bound, whoever bound it. -/
theorem isBound_step_release {i : Nat} {grammar : Grammar} (hi : w.grammars[i]? = some grammar)
    (hp : p ∈ grammar.placeholders) : (w.step (.release i)).graph.isBound p = false := by
  rw [step_release hi]
  by_contra hbound
  obtain ⟨t, ht⟩ := Option.isSome_iff_exists.mp (Bool.eq_true_of_not_eq_false hbound)
  have hk := RuleGraph.kind_of_target? ht
  rw [RuleGraph.kind_release] at hk
  split at hk
  · cases hk
  · next hother =>
    have ht' : w.graph.target? p = some t := by rw [RuleGraph.target?, hk]
    exact hother ⟨hp, RuleGraph.lt_size_of_target? ht', RuleGraph.isPlaceholder_of_kind_eq hk⟩

theorem exists_step_release (w : Workbench) (i : Nat) :
    ∃ grammar, (w.step (.release i)).graph = (w.graph.release grammar).2 := by
  cases hi : w.grammars[i]? with
  | none =>
    refine ⟨⟨[], [], []⟩, ?_⟩
    rw [step, if_pos (by simp [Edit.rules]), make, hi]
    rfl
  | some grammar => exact ⟨grammar, by rw [step_release hi]⟩

/-- However rules have been built, renamed, resolved and released, and grammars cloned and dropped,
every rule stands for itself or for a rule that is no placeholder, and to rename it is to rename
that one. A placeholder has kept the name that it had when it was free for the last time, and if it
is free after a release, it goes by that name again and is resolved by it. -/
theorem names_of_history (edits : List Edit) :
    let w := empty.run edits
    w.graph.Coherent ∧
    (∀ x < w.graph.size, ∀ n, (w.graph.rename x n).1 = x ∧
      w.graph.Renames x n (w.step (.rename x n)).graph) ∧
    (∀ p < w.graph.size, w.graph.isPlaceholder p →
      ∃ before since, edits = before ++ since ∧ LastFree before since p ∧
        ∀ i, let freed := (w.step (.release i)).graph
          freed.isBound p = false →
            freed.name p = (empty.run before).graph.name p ∧
            freed.ResolvedBy p ((empty.run before).graph.name p)) ∧
    ∀ i grammar, w.grammars[i]? = some grammar →
      ∀ p ∈ grammar.placeholders, (w.step (.release i)).graph.isBound p = false := by
  intro w
  have hw : w.graph.WellFormed := wellFormed_run edits
  refine ⟨hw.coherent, fun x hx n => ⟨rfl, ?_⟩, fun p hlt hp => ?_,
    fun i grammar hi p hmem => isBound_step_release hi hmem⟩
  · rw [step, if_pos (by simpa [Edit.rules] using hx)]
    exact hw.renames hx n
  · obtain ⟨before, since, hedits, hlast, hname⟩ := exists_lastFree edits hlt hp
    refine ⟨before, since, hedits, hlast, fun i => ?_⟩
    obtain ⟨grammar, hreleased⟩ := w.exists_step_release i
    intro freed hfree
    rw [← hname, show freed = (w.graph.release grammar).2 from hreleased]
    exact RuleGraph.name_of_release hlt hp (hreleased ▸ hfree)

/-- The placeholder has been renamed while it was bound, and that has renamed its target. -/
theorem names_of_history_nested :
    let edits := nestedEdits ++ [.resolve [5], .rename 3 "group"]
    let w := empty.run edits
    let freed := (w.step (.release 0)).graph
    3 < w.graph.size ∧ w.graph.isPlaceholder 3 ∧ w.graph.target? 3 = some 5 ∧
    w.graph.name 3 = "group" ∧ w.graph.name 5 = "group" ∧ w.graph.Coherent ∧
    w.graph.Renames 3 "inner" (w.step (.rename 3 "inner")).graph ∧
    freed.isBound 3 = false ∧ freed.name 5 = "group" ∧
    ∃ before since, edits = before ++ since ∧ LastFree before since 3 ∧
      (empty.run before).graph.name 3 = "nested" ∧ freed.name 3 = "nested" ∧
      freed.ResolvedBy 3 "nested" := by
  intro edits w freed
  have hlt : 3 < w.graph.size := by decide
  have hp : w.graph.isPlaceholder 3 := by decide
  have hfree : freed.isBound 3 = false := by decide
  obtain ⟨hcoherent, hrenames, hlast, -⟩ := names_of_history edits
  obtain ⟨before, since, hedits, hsince, hreleased⟩ := hlast 3 hlt hp
  obtain ⟨hname, hresolved⟩ := hreleased 0 hfree
  have hnested : freed.name 3 = "nested" := by decide
  rw [← hname, hnested] at hresolved
  exact ⟨hlt, hp, by decide, by decide, by decide, hcoherent, (hrenames 3 hlt "inner").2, hfree,
    by decide, before, since, hedits, hsince, hname.symm.trans hnested, hnested, hresolved⟩

end Workbench

end StreamPeg
