import StreamPeg.Proofs.Edits

/-!
# A release undoes a resolution

Edits other than resolutions and releases leave every rule as it is, but for its name, and every
binding (`Stays`). If no placeholder that a resolution meets was bound before, then the resolution,
such edits and a release of its grammar lead to a graph that has stayed as it was before all of them
(`stays_release`). The search meets the same rules there again (`resolve_congr`), and another clone
of the grammar finds nothing to undo (`release_undoes_resolve`).
-/

namespace StreamPeg

namespace RuleGraph

variable {g g' g'' : RuleGraph} {met rs new roots : List RuleId} {r p : RuleId}
  {grammar : Grammar} {resolution : Resolution}

/-! ### Freeing what is free -/

theorem eq_of_rule_eq (hsize : g'.size = g.size) (hr : ∀ r < g.size, g'.rule r = g.rule r) :
    g' = g := by
  suffices g'.rules = g.rules from congrArg RuleGraph.mk this
  refine Array.ext hsize fun r h' h => ?_
  have he := hr r h
  rwa [rule, rule, Array.getD_eq_getD_getElem?, Array.getD_eq_getD_getElem?,
    Array.getElem?_eq_getElem h', Array.getElem?_eq_getElem h] at he

theorem eq_of_kind_eq (hsize : g'.size = g.size) (hname : ∀ r, g'.ownName r = g.ownName r)
    (hkind : ∀ r, g'.kind r = g.kind r) : g' = g :=
  eq_of_rule_eq hsize fun r _ => congrArg₂ Rule.mk (hname r) (hkind r)

theorem setTarget_of_unbound (h : g.target? p = none) : g.setTarget p none = g := by
  refine eq_of_rule_eq (g.size_setTarget p none) fun r _ => ?_
  rw [setTarget, rule_modify]
  split
  · next hp =>
    obtain ⟨rfl, -⟩ := hp
    split
    · next hk =>
      have hn := (kind_eq_placeholder_none_iff (g := g)).mpr ⟨hk, by rw [isBound, h]; rfl⟩
      rw [← hn]
      rfl
    · rfl
  · rfl

theorem release_of_unbound (h : ∀ p ∈ grammar.placeholders, g.target? p = none) :
    g.release grammar = (0, g) := by
  have hcount : grammar.placeholders.countP g.isBound = 0 :=
    List.countP_eq_zero.mpr fun p hp => by simp [isBound, h p hp]
  rw [release, hcount]
  congr 1
  generalize grammar.placeholders = ps at h
  clear hcount
  induction ps with
  | nil => rfl
  | cons p ps ih =>
    rw [List.foldl_cons, setTarget_of_unbound (h p List.mem_cons_self)]
    exact ih fun q hq => h q (List.mem_cons_of_mem _ hq)

/-! ### Searching where the rules are the same -/

theorem Visits.congr (h : g.Visits met rs new) (hk : ∀ r ∈ new, g'.kind r = g.kind r) :
    g'.Visits met rs new := by
  induction h with
  | nil => exact .nil
  | old hr _ ih => exact .old hr (ih hk)
  | @new met rs below beside r hr _ _ ihb ihs =>
    have hbelow := ihb fun s hs => hk s (by simp [hs])
    have hbeside := ihs fun s hs => hk s (by simp [hs])
    exact .new hr (hk r List.mem_cons_self ▸ hbelow) hbeside

theorem named_congr (h : ∀ r ∈ rs, g'.name r = g.name r) : g'.named rs = g.named rs := by
  induction rs with
  | nil => rfl
  | cons r rs ih =>
    rw [named, named, h r List.mem_cons_self, ih fun s hs => h s (List.mem_cons_of_mem _ hs)]

theorem name_of_isPlaceholder_eq_false (h : g.isPlaceholder r = false) :
    g.name r = g.ownName r := by
  rw [name, follow_of_isPlaceholder_eq_false h]

section

variable (hk : ∀ r ∈ g.reached roots, g'.kind r = g.kind r)
  (hn : ∀ r ∈ g.reached roots, g'.ownName r = g.ownName r)
include hk

theorem unbound_congr : g'.unbound (g.grammarOf roots) = g.unbound (g.grammarOf roots) := by
  refine List.filter_congr fun p hp => ?_
  rw [isBound, isBound, target?, target?, hk p (List.mem_filter.mp hp).1]

include hn

theorem grammarOf_congr : g'.grammarOf roots = g.grammarOf roots := by
  have hp (r : RuleId) (h : r ∈ g.reached roots) : g'.isPlaceholder r = g.isPlaceholder r :=
    congrArg RuleKind.isPlaceholder (hk r h)
  have hreached : g'.reached roots = g.reached roots :=
    reached_of_visits ((g.visits_reached roots).congr hk)
  have hplaceholders : (g.reached roots).filter g'.isPlaceholder =
      (g.reached roots).filter g.isPlaceholder := List.filter_congr hp
  have hrules : (g.reached roots).filter (!g'.isPlaceholder ·) =
      (g.reached roots).filter (!g.isPlaceholder ·) :=
    List.filter_congr fun r h => congrArg (!·) (hp r h)
  simp only [grammarOf, hreached, hplaceholders, hrules]
  congr 1
  refine named_congr fun r h => ?_
  obtain ⟨hmet, hr⟩ : r ∈ g.reached roots ∧ g.isPlaceholder r = false := by simpa using h
  rw [name_of_isPlaceholder_eq_false hr, name_of_isPlaceholder_eq_false ((hp r hmet).trans hr)]
  exact hn r hmet

theorem resolve_congr (h : g.resolve roots = (.ok resolution, g'')) :
    g'.resolve roots =
      (.ok resolution, g'.bindAll (g.grammarOf roots) (g.unbound (g.grammarOf roots))) := by
  have hnames : (g.unbound (g.grammarOf roots)).map g'.ownName =
      (g.unbound (g.grammarOf roots)).map g.ownName :=
    List.map_congr_left fun p hp => hn p ((g.mem_unbound roots p).mp hp).1
  obtain ⟨grammar, bound⟩ := resolution
  obtain ⟨hm, rfl, rfl, -⟩ : _ ∧ grammar = _ ∧ bound = _ ∧ _ := resolve_ok h
  have hm' : g'.missing (g.grammarOf roots) = [] := by
    rwa [missing, unbound_congr hk, hnames, ← missing]
  simp only [resolve, grammarOf_congr hk hn, hm', unbound_congr hk]

end

/-! ### Staying -/

/-- The rules that there are stay what they are, names apart, and nothing is bound or freed. -/
structure Stays (g g' : RuleGraph) : Prop where
  size_le : g.size ≤ g'.size
  kind : ∀ r < g.size, g'.kind r = g.kind r
  target? : ∀ r, g'.target? r = g.target? r

theorem Stays.refl (g : RuleGraph) : g.Stays g :=
  ⟨Nat.le_refl _, fun _ _ => rfl, fun _ => rfl⟩

theorem Stays.trans (h : g.Stays g') (h' : g'.Stays g'') : g.Stays g'' where
  size_le := Nat.le_trans h.size_le h'.size_le
  kind r hr := (h'.kind r (Nat.lt_of_lt_of_le hr h.size_le)).trans (h.kind r hr)
  target? r := (h'.target? r).trans (h.target? r)

theorem Adds.stays (h : g.Adds g') : g.Stays g' where
  size_le := h.size_le
  kind r hr := congrArg Rule.kind (h.rule_eq hr)
  target? r := by
    refine Option.ext fun t => ⟨fun ht => ?_, fun ht => ?_⟩
    · rw [RuleGraph.target?, h.kind_of_bound (kind_of_target? ht)]
    · rw [RuleGraph.target?, RuleGraph.kind, h.rule_eq (lt_size_of_target? ht)]
      exact ht

theorem stays_rename (g : RuleGraph) (r : RuleId) (n : String) : g.Stays (g.rename r n).2 where
  size_le := Nat.le_of_eq (g.size_rename r n).symm
  kind s _ := g.kind_rename r n s
  target? s := g.target?_rename r n s

/-! ### Resolving and releasing -/

theorem target?_bindAll (g : RuleGraph) (grammar : Grammar) (ps : List RuleId) (r : RuleId) :
    (g.bindAll grammar ps).target? r =
      if r ∈ ps ∧ r < g.size ∧ g.isPlaceholder r then grammar.rule? (g.ownName r)
      else g.target? r := by
  by_cases hr : r ∈ ps ∧ r < g.size ∧ g.isPlaceholder r
  · rw [target?, kind_bindAll, if_pos hr, if_pos hr]
  · rw [target?, kind_bindAll, if_neg hr, if_neg hr, target?]

theorem mem_placeholders_grammarOf :
    p ∈ (g.grammarOf roots).placeholders ↔ p ∈ g.reached roots ∧ g.isPlaceholder p :=
  List.mem_filter

@[simp] theorem ownName_release (g : RuleGraph) (grammar : Grammar) (r : RuleId) :
    (g.release grammar).2.ownName r = g.ownName r :=
  g.ownName_setTargets (fun _ => none) grammar.placeholders r

section

variable (hfree : ∀ r ∈ g.reached roots, r < g.size ∧ g.isBound r = false)
  (h : g.resolve roots = (.ok resolution, g')) (hs : g'.Stays g'')
include hfree h hs

/-- All placeholders that the search has met are bound by the resolution. -/
theorem isBound_of_resolve (hp : p ∈ resolution.grammar.placeholders) : g''.isBound p := by
  rw [(resolve_ok h).2.1, mem_placeholders_grammarOf] at hp
  obtain ⟨hmet, hplaceholder⟩ := hp
  obtain ⟨hlt, hunbound⟩ := hfree p hmet
  have hn := kind_eq_placeholder_none_iff.mpr ⟨hplaceholder, hunbound⟩
  obtain ⟨t, -, hk⟩ := kind_of_met h hmet hlt hn
  rw [isBound, hs.target?, target?, hk]
  rfl

theorem release_of_resolve : (g''.release resolution.grammar).1 =
    resolution.grammar.placeholders.length :=
  List.countP_eq_length.mpr fun _ hp => isBound_of_resolve hfree h hs hp

theorem stays_release : g.Stays (g''.release resolution.grammar).2 := by
  have hgrammar := (resolve_ok h).2.1
  have hle : g.size ≤ g''.size := (rebinds_resolve h).size ▸ hs.size_le
  have hreleased (r : RuleId) (hr : r ∈ resolution.grammar.placeholders) :
      (g''.release resolution.grammar).2.kind r = g.kind r := by
    obtain ⟨t, ht⟩ := Option.isSome_iff_exists.mp (isBound_of_resolve hfree h hs hr)
    have hplaceholder := isPlaceholder_of_kind_eq (kind_of_target? ht)
    have hmem := hr
    rw [hgrammar, mem_placeholders_grammarOf] at hmem
    obtain ⟨hlt, hunbound⟩ := hfree r hmem.1
    rw [kind_release, if_pos ⟨hr, Nat.lt_of_lt_of_le hlt hle, hplaceholder⟩,
      kind_eq_placeholder_none_iff.mpr ⟨hmem.2, hunbound⟩]
  have hother (r : RuleId) (hr : r ∉ resolution.grammar.placeholders) :
      (g''.release resolution.grammar).2.kind r = g''.kind r ∧ g'.kind r = g.kind r := by
    refine ⟨by rw [kind_release, if_neg fun hc => hr hc.1], kind_of_not_met h fun hc => hr ?_⟩
    rw [hgrammar, mem_placeholders_grammarOf]
    exact ⟨hc.1, (kind_eq_placeholder_none_iff.mp hc.2.2).1⟩
  refine ⟨?_, fun r hlt => ?_, fun r => ?_⟩
  · rwa [(g''.rebinds_release resolution.grammar).size]
  · by_cases hr : r ∈ resolution.grammar.placeholders
    · exact hreleased r hr
    · obtain ⟨hk, hk'⟩ := hother r hr
      rw [hk, hs.kind r ((rebinds_resolve h).size.symm ▸ hlt), hk']
  · by_cases hr : r ∈ resolution.grammar.placeholders
    · rw [target?, target?, hreleased r hr]
    · obtain ⟨hk, hk'⟩ := hother r hr
      have ht := hs.target? r
      rw [target?, target?] at ht ⊢
      rw [hk, ht, hk']

end

/-- To resolve again where the rules have stayed, names included, is to bind the same again. -/
theorem resolve_of_stays (hfree : ∀ r ∈ g.reached roots, r < g.size ∧ g.isBound r = false)
    (h : g.resolve roots = (.ok resolution, g')) (hs : g.Stays g'')
    (hown : ∀ r < g.size, g''.ownName r = g.ownName r) :
    ∃ again, g''.resolve roots = (.ok resolution, again) ∧
      ∀ p, again.target? p = g'.target? p := by
  refine ⟨_, resolve_congr (fun r hr => hs.kind r (hfree r hr).1)
    (fun r hr => hown r (hfree r hr).1) h, fun p => ?_⟩
  obtain ⟨-, -, -, rfl⟩ := resolve_ok h
  rw [target?_bindAll, target?_bindAll, hs.target?]
  by_cases hp : p ∈ g.unbound (g.grammarOf roots)
  · obtain ⟨hmet, hn⟩ := (g.mem_unbound roots p).mp hp
    obtain ⟨hlt, -⟩ := hfree p hmet
    have hlt' := Nat.lt_of_lt_of_le hlt hs.size_le
    rw [isPlaceholder, isPlaceholder, hs.kind p hlt, hown p hlt]
    simp only [hlt, hlt']
  · simp only [hp, false_and, if_false]

end RuleGraph

/-! ### Edits that bind nothing -/

namespace Edit

/-- Neither a resolution nor a release. -/
def keepsBindings : Edit → Bool
  | .resolve _ => false
  | .release _ => false
  | _ => true

def isRename : Edit → Bool
  | .rename .. => true
  | _ => false

end Edit

namespace Workbench

theorem stays_step {w : Workbench} {e : Edit} (he : e.keepsBindings) :
    w.graph.Stays (w.step e).graph := by
  unfold step
  split
  · next hr =>
    cases e with
    | build call => exact (w.graph.adds_build call hr).stays
    | rename r n => exact w.graph.stays_rename r n
    | clone i | drop i => exact .refl _
    | resolve roots | release i => cases he
  · exact .refl _

theorem stays_run {w : Workbench} {edits : List Edit} (he : ∀ e ∈ edits, e.keepsBindings) :
    w.graph.Stays (w.run edits).graph :=
  run_induct (P := fun w' => w.graph.Stays w'.graph) (.refl _)
    fun _ e hmem hs => hs.trans (stays_step (he e hmem))

theorem ownName_step {w : Workbench} {e : Edit} (he : e.keepsBindings)
    (hname : e.isRename = false) {r : RuleId} (hr : r < w.graph.size) :
    (w.step e).graph.ownName r = w.graph.ownName r := by
  unfold step
  split
  · next hrules =>
    cases e with
    | build call => exact congrArg Rule.name ((w.graph.adds_build call hrules).rule_eq hr)
    | rename => cases hname
    | clone i | drop i => rfl
    | resolve roots | release i => cases he
  · rfl

theorem ownName_run {w : Workbench} {edits : List Edit} (he : ∀ e ∈ edits, e.keepsBindings)
    (hnames : ∀ e ∈ edits, e.isRename = false) :
    ∀ r < w.graph.size, (w.run edits).graph.ownName r = w.graph.ownName r := by
  suffices w.graph.Stays (w.run edits).graph ∧
      ∀ r < w.graph.size, (w.run edits).graph.ownName r = w.graph.ownName r from this.2
  refine run_induct (P := fun w' => w.graph.Stays w'.graph ∧
    ∀ r < w.graph.size, w'.graph.ownName r = w.graph.ownName r)
    ⟨.refl _, fun _ _ => rfl⟩ fun w' e hmem ⟨hs, hn⟩ => ?_
  refine ⟨hs.trans (stays_step (he e hmem)), fun r hr => Eq.trans ?_ (hn r hr)⟩
  exact ownName_step (he e hmem) (hnames e hmem) (Nat.lt_of_lt_of_le hr hs.size_le)

theorem step_release {w : Workbench} {i : Nat} {grammar : Grammar}
    (hi : w.grammars[i]? = some grammar) :
    w.step (.release i) = ⟨(w.graph.release grammar).2, w.grammars.eraseIdx i⟩ := by
  rw [step, if_pos (by simp [Edit.rules]), make, hi]

/-- If there is nothing within the roots but rules that there are, and no placeholder that is bound,
then a release of the grammar that the roots have been resolved to frees each of the placeholders,
however many rules have been built and renamed and grammars cloned since, and every placeholder is
bound to what it was bound to before. To release another clone after that is to do nothing. If no
rule has been renamed, the roots resolve to the same again. -/
theorem release_undoes_resolve {w : Workbench} {roots : List RuleId} {resolution : Resolution}
    {g' : RuleGraph}
    (hfree : ∀ root ∈ roots, ∀ r, w.graph.Within root r →
      r < w.graph.size ∧ w.graph.isBound r = false)
    (h : w.graph.resolve roots = (.ok resolution, g')) {between after : List Edit}
    (hkeep : ∀ e ∈ between ++ after, e.keepsBindings) {i : Nat}
    (hi : (w.run (.resolve roots :: between)).grammars[i]? = some resolution.grammar) :
    let used := w.run (.resolve roots :: between)
    let freed := used.step (.release i)
    let later := freed.run after
    resolution.grammar.placeholders.Nodup ∧
    (∀ p, p ∈ resolution.grammar.placeholders ↔
      w.graph.isPlaceholder p ∧ ∃ root ∈ roots, w.graph.Within root p) ∧
    used.graph.release resolution.grammar =
      (resolution.grammar.placeholders.length, freed.graph) ∧
    (∀ p, freed.graph.target? p = w.graph.target? p) ∧
    later.graph.release resolution.grammar = (0, later.graph) ∧
    ((∀ e ∈ between ++ after, e.isRename = false) →
      ∃ again, later.graph.resolve roots = (.ok resolution, again) ∧
        ∀ p, again.target? p = g'.target? p) := by
  intro used freed later
  have hgrammar := (RuleGraph.resolve_ok h).2.1
  have hreached : ∀ r ∈ w.graph.reached roots, r < w.graph.size ∧ w.graph.isBound r = false := by
    intro r hr
    obtain ⟨root, hroot, hwithin⟩ := RuleGraph.mem_reached_iff.mp hr
    exact hfree root hroot r hwithin
  have hbetween : ∀ e ∈ between, e.keepsBindings := fun e he => hkeep e (List.mem_append_left _ he)
  have hafter : ∀ e ∈ after, e.keepsBindings := fun e he => hkeep e (List.mem_append_right _ he)
  have hresolved : (w.step (.resolve roots)).graph = g' :=
    congrArg Workbench.graph (step_resolve_ok (fun r hr => (hfree r hr r .refl).1) h)
  have hused : g'.Stays used.graph := hresolved ▸ stays_run hbetween
  have hfreed : freed.graph = (used.graph.release resolution.grammar).2 :=
    congrArg Workbench.graph (step_release hi)
  have hback : w.graph.Stays freed.graph := hfreed ▸ RuleGraph.stays_release hreached h hused
  have hlater : w.graph.Stays later.graph := hback.trans (stays_run hafter)
  have hplaceholders (p : RuleId) : p ∈ resolution.grammar.placeholders ↔
      w.graph.isPlaceholder p ∧ ∃ root ∈ roots, w.graph.Within root p := by
    rw [hgrammar, RuleGraph.mem_placeholders_grammarOf, RuleGraph.mem_reached_iff, and_comm]
  refine ⟨?_, hplaceholders, ?_, hback.target?, ?_, fun hnames => ?_⟩
  · rw [hgrammar]
    exact (w.graph.visits_reached roots).nodup.filter _
  · exact Prod.ext (RuleGraph.release_of_resolve hreached h hused) hfreed.symm
  · refine RuleGraph.release_of_unbound fun p hp => ?_
    obtain ⟨-, root, hroot, hwithin⟩ := (hplaceholders p).mp hp
    rw [hlater.target?]
    exact Option.not_isSome_iff_eq_none.mp (Bool.eq_false_iff.mp (hfree root hroot p hwithin).2)
  · refine RuleGraph.resolve_of_stays hreached h hlater fun r hr => ?_
    have hsize : w.graph.size = g'.size := (RuleGraph.rebinds_resolve h).size.symm
    have hnames' (edits : List Edit) (hsub : edits ⊆ between ++ after) :
        ∀ e ∈ edits, e.isRename = false := fun e he => hnames e (hsub he)
    calc later.graph.ownName r
      _ = freed.graph.ownName r :=
        ownName_run hafter (hnames' after (by simp)) r (Nat.lt_of_lt_of_le hr hback.size_le)
      _ = used.graph.ownName r := by rw [hfreed, RuleGraph.ownName_release]
      _ = (w.step (.resolve roots)).graph.ownName r :=
        ownName_run hbetween (hnames' between (by simp)) r (by rwa [hresolved, ← hsize])
      _ = w.graph.ownName r := by
        obtain ⟨-, -, -, rfl⟩ := RuleGraph.resolve_ok h
        rw [hresolved, RuleGraph.ownName_bindAll]

/-- Rules are built before the release and after it, and a clone of the grammar is still there. -/
theorem release_undoes_resolve_nested :
    let used := (⟨unboundNested, []⟩ : Workbench).run
      [.resolve [0], .clone 0, .build (.literal [33])]
    let freed := used.step (.release 0)
    let later := freed.run [.build (.placeholder "x")]
    (∀ root ∈ [0], ∀ r, unboundNested.Within root r →
      r < unboundNested.size ∧ unboundNested.isBound r = false) ∧
    unboundNested.resolve [0] = (.ok nestedResolution, .nested) ∧
    used.grammars[0]? = some nestedResolution.grammar ∧
    used.graph.release nestedResolution.grammar = (1, freed.graph) ∧
    (∀ p, freed.graph.target? p = unboundNested.target? p) ∧
    later.grammars = [nestedResolution.grammar] ∧
    later.graph.release nestedResolution.grammar = (0, later.graph) ∧
    ∃ again, later.graph.resolve [0] = (.ok nestedResolution, again) ∧
      ∀ p, again.target? p = RuleGraph.nested.target? p := by
  have hreached : ∀ r ∈ unboundNested.reached [0],
      r < unboundNested.size ∧ unboundNested.isBound r = false := by decide
  have hfree : ∀ root ∈ [0], ∀ r, unboundNested.Within root r →
      r < unboundNested.size ∧ unboundNested.isBound r = false := fun root hroot r hr =>
    hreached r (RuleGraph.mem_reached_iff.mpr ⟨root, hroot, hr⟩)
  have h : unboundNested.resolve [0] = (.ok nestedResolution, .nested) := by decide
  have hkeep : ∀ e ∈ [Edit.clone 0, .build (.literal [33])] ++ [.build (.placeholder "x")],
      e.keepsBindings := by decide
  have hi : ((⟨unboundNested, []⟩ : Workbench).run
      [.resolve [0], .clone 0, .build (.literal [33])]).grammars[0]? =
        some nestedResolution.grammar := by decide
  obtain ⟨-, -, hcount, hback, hagain, hresolve⟩ :=
    release_undoes_resolve (w := ⟨unboundNested, []⟩) hfree h hkeep hi
  exact ⟨hfree, h, hi, hcount, hback, by decide, hagain, hresolve (by decide)⟩

end Workbench

end StreamPeg
