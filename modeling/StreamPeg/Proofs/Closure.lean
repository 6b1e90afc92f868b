import StreamPeg.Proofs.Edits
import StreamPeg.Proofs.GivesUp

/-!
# Closed rules

A rule is `Closed` if every placeholder is bound that can be reached from it, through parts and
through bindings. A resolution sees to the placeholders that its walk meets, but the walk goes on
behind none of them, and so not behind one that has been bound before. What is behind that is closed
all the same, as long as no grammar is released: `ClosedBehind` holds of every such workbench
(`run_grows`), since all rules that a resolution binds to are closed once it is done
(`closed_of_resolve`) and a closed rule stays closed (`Closed.grows`).
-/

namespace StreamPeg

namespace RuleGraph

variable {g g' g'' : RuleGraph} {r p : RuleId} {roots : List RuleId} {resolution : Resolution}

/-- No placeholder that matching may come to is unbound. -/
def Closed (g : RuleGraph) (r : RuleId) : Prop :=
  ∀ p, g.Reaches r p → g.isPlaceholder p → g.isBound p

def ClosedBehind (g : RuleGraph) : Prop :=
  ∀ r t, g.kind r = .placeholder (some t) → g.Closed t

/-- All but unbound placeholders, and numbers that no rule had, are what they were. -/
def Grows (g g' : RuleGraph) : Prop :=
  ∀ r, g'.kind r = g.kind r ∨ g.kind r = .placeholder none

/-! ### Closed rules -/

theorem Closed.kind_ne (h : g.Closed r) : g.kind r ≠ .placeholder none := by
  intro hk
  have hb := h r .refl (isPlaceholder_of_kind_eq hk)
  rw [isBound, target?, hk] at hb
  cases hb

theorem Closed.reaches (h : g.Closed r) (hp : g.Reaches r p) : g.Closed p :=
  fun q hq => h q (hp.trans hq)

theorem Closed.uses (h : g.Closed r) (hu : g.Uses r p) : g.Closed p :=
  h.reaches (.single hu)

theorem closed_of_invariant (P : RuleId → Prop) (hkind : ∀ r, P r → g.kind r ≠ .placeholder none)
    (huses : ∀ r p, P r → g.Uses r p → P p) (hr : P r) : g.Closed r := by
  intro p hp hplaceholder
  have hP : P p := by
    clear hplaceholder
    induction hp with
    | refl => exact hr
    | tail _ hu ih => exact huses _ _ ih hu
  have hne := hkind p hP
  revert hplaceholder hne
  rw [isPlaceholder, isBound, target?]
  rcases g.kind p with _ | _ | _ | _ | (_ | t) <;> simp [RuleKind.isPlaceholder]

theorem uses_congr (h : g'.kind r = g.kind r) : g'.Uses r p ↔ g.Uses r p := by
  rw [Uses, Uses, target?, target?, h]

theorem Grows.trans (h : g.Grows g') (h' : g'.Grows g'') : g.Grows g'' := by
  intro r
  rcases h r with hk | hk
  · rw [← hk]
    exact h' r
  · exact .inr hk

theorem Grows.kind_of_closed (h : g.Grows g') (hr : g.Closed r) : g'.kind r = g.kind r :=
  (h r).resolve_right hr.kind_ne

theorem Closed.grows (hr : g.Closed r) (h : g.Grows g') : g'.Closed r :=
  closed_of_invariant g.Closed (fun _ hs => h.kind_of_closed hs ▸ hs.kind_ne)
    (fun _ _ hs hu => hs.uses ((uses_congr (h.kind_of_closed hs)).mp hu)) hr

theorem ClosedBehind.grows (hg : g.ClosedBehind) (h : g.Grows g')
    (hnew : ∀ r t, g'.kind r = .placeholder (some t) →
      g.kind r = .placeholder (some t) ∨ g'.Closed t) : g'.ClosedBehind := by
  intro r t hk
  rcases hnew r t hk with hold | hclosed
  · exact (hg r t hold).grows h
  · exact hclosed

/-! ### Adding rules -/

theorem Adds.grows (h : g.Adds g') : g.Grows g' := by
  induction h with
  | refl => exact fun r => .inl rfl
  | @add g' name kind _ _ _ _ ih =>
    refine ih.trans fun r => ?_
    rw [kind_add]
    split
    · next hr => exact .inr (kind_of_size_le (Nat.le_of_eq hr.symm))
    · exact .inl rfl

/-! ### Resolving -/

theorem grows_of_resolve (h : g.resolve roots = (.ok resolution, g')) : g.Grows g' :=
  fun r => (kind_of_resolve h r).imp_right fun hn => hn.2.1

theorem lt_size_of_reached (hg : g.WellFormed) (hroots : ∀ r ∈ roots, r < g.size)
    (hr : r ∈ g.reached roots) : r < g.size := by
  obtain ⟨root, hroot, hpath⟩ := (g.visits_reached roots).exists_root hr
  cases hpath with
  | refl => exact hroots _ hroot
  | tail _ hp => exact hg.parts hp

theorem closed_of_resolve (hg : g.WellFormed) (hb : g.ClosedBehind)
    (hroots : ∀ r ∈ roots, r < g.size) (h : g.resolve roots = (.ok resolution, g'))
    (hr : r ∈ g.reached roots) : g'.Closed r := by
  have hgrows : g.Grows g' := grows_of_resolve h
  have hbound (p : RuleId) (hp : p ∈ g.reached roots) (hn : g.kind p = .placeholder none) :
      ∃ t ∈ g.reached roots, g'.kind p = .placeholder (some t) := by
    obtain ⟨t, ht, hk⟩ := kind_of_met h hp (lt_size_of_reached hg hroots hp) hn
    rw [(resolve_ok h).2.1] at ht
    exact ⟨t, (rule?_grammarOf_eq_some ht).1, hk⟩
  -- What the walk has met may lead to what has been closed before, but not to anything else.
  refine closed_of_invariant (fun r => r ∈ g.reached roots ∨ g.Closed r) ?_ ?_ (.inl hr)
  · rintro r (hr | hr)
    · by_cases hn : g.kind r = .placeholder none
      · obtain ⟨t, -, hk⟩ := hbound r hr hn
        rw [hk]
        exact nofun
      · rwa [(hgrows r).resolve_right hn]
    · exact hgrows.kind_of_closed hr ▸ hr.kind_ne
  · rintro r p (hr | hr) hu
    · by_cases hn : g.kind r = .placeholder none
      · obtain ⟨t, ht, hk⟩ := hbound r hr hn
        rw [Uses, target?, hk] at hu
        obtain rfl : t = p := by simpa [RuleKind.parts] using hu
        exact .inl ht
      · rcases (uses_congr ((hgrows r).resolve_right hn)).mp hu with hp | ht
        · exact .inl (((g.visits_reached roots).mem_of_part hr hp).resolve_left List.not_mem_nil)
        · exact .inr (hb r p (kind_of_target? ht))
    · exact .inr (hr.uses ((uses_congr (hgrows.kind_of_closed hr)).mp hu))

/-- If there is nothing to bind, then nothing happens. -/
theorem resolve_of_closed (h : ∀ r ∈ roots, g.Closed r) :
    g.resolve roots = (.ok ⟨g.grammarOf roots, 0⟩, g) := by
  have hunbound : g.unbound (g.grammarOf roots) = [] := by
    refine List.eq_nil_iff_forall_not_mem.mpr fun p hp => ?_
    obtain ⟨hp, hn⟩ := (g.mem_unbound roots p).mp hp
    obtain ⟨root, hroot, hpath⟩ := (g.visits_reached roots).exists_root hp
    have hsub : (fun r p => p ∈ (g.kind r).parts) ≤ g.Uses := fun _ _ => .inl
    have hreach : g.Reaches root p := Relation.ReflTransGen.mono hsub root p hpath
    exact ((h root hroot).reaches hreach).kind_ne hn
  have hmissing : g.missing (g.grammarOf roots) = [] := by
    rw [missing_eq_nil_iff, hunbound]
    exact nofun
  simp only [resolve, hmissing, hunbound]
  rfl

end RuleGraph

/-! ### Parsing -/

/-- Whatever goes wrong, no placeholder is to blame. -/
theorem RuleGraph.parser_ne_unresolved {σ : Type} [ByteSource σ] {g : RuleGraph} {r : RuleId}
    (h : g.Closed r) (depth : Nat) (id : CursorId) (m : Manager σ) (n : String) :
    (g.parser depth r id m).1 ≠ .error (.unresolvedPlaceholder n) := by
  have hfails : (g.plan depth r).FailsWith (fun e => ∀ n, e ≠ .unresolvedPlaceholder n) false :=
    failsWith_plan ⟨fun _ _ => nofun, fun _ => nofun⟩ (fun hr hu => hr.uses hu)
      (fun hr hk => absurd hk hr.kind_ne) depth h
  intro he
  rw [← g.run_plan] at he
  rcases hfails.run_error he with hne | ⟨_, hsource⟩
  · exact hne n rfl
  · cases hsource

/-! ### Histories without a release -/

namespace Workbench

theorem step_grows {w : Workbench} {e : Edit} (he : e.isRelease = false)
    (hw : w.graph.WellFormed) (hb : w.graph.ClosedBehind) :
    w.graph.Grows (w.step e).graph ∧ (w.step e).graph.ClosedBehind := by
  rcases w.step_cases e with ha | ⟨r, n, hr⟩ | ⟨roots, resolution, hroots, hr⟩ | ⟨hrel, -⟩
  · exact ⟨ha.grows, hb.grows ha.grows fun r t hk => .inl (ha.kind_of_bound hk)⟩
  · have hk (s : RuleId) : (w.step e).graph.kind s = w.graph.kind s := by
      rw [hr, RuleGraph.kind_rename]
    have hgrows : w.graph.Grows (w.step e).graph := fun s => .inl (hk s)
    exact ⟨hgrows, hb.grows hgrows fun s t hs => .inl (hk s ▸ hs)⟩
  · have hgrows := RuleGraph.grows_of_resolve hr
    refine ⟨hgrows, hb.grows hgrows fun s t hs => ?_⟩
    rcases RuleGraph.kind_of_resolve hr s with hold | ⟨-, -, t', ht', -, -, hnew⟩
    · exact .inl (hold ▸ hs)
    · obtain rfl : t = t' := by simpa using hs.symm.trans hnew
      exact .inr (RuleGraph.closed_of_resolve hw hb hroots hr ht')
  · rw [he] at hrel
    cases hrel

theorem run_grows {w : Workbench} {edits : List Edit} (he : ∀ e ∈ edits, e.isRelease = false)
    (hw : w.graph.WellFormed) (hb : w.graph.ClosedBehind) :
    w.graph.Grows (w.run edits).graph ∧ (w.run edits).graph.ClosedBehind := by
  suffices (w.run edits).graph.WellFormed ∧ w.graph.Grows (w.run edits).graph ∧
      (w.run edits).graph.ClosedBehind from this.2
  refine run_induct (P := fun w' => w'.graph.WellFormed ∧ w.graph.Grows w'.graph ∧
    w'.graph.ClosedBehind) ⟨hw, fun _ => .inl rfl, hb⟩ fun w' e hmem ⟨hw', hg', hb'⟩ => ?_
  obtain ⟨hg, hb⟩ := step_grows (he e hmem) hw' hb'
  exact ⟨w'.wellFormed_step e hw', hg'.trans hg, hb⟩

theorem closedBehind_run {edits : List Edit} (he : ∀ e ∈ edits, e.isRelease = false) :
    (empty.run edits).graph.ClosedBehind :=
  (run_grows he RuleGraph.wellFormed_empty fun _ _ h => by cases h).2

/-- Once a resolution has succeeded, its roots and all rules that its grammar knows are closed, for
as long as no grammar is released. They can be parsed by without coming to an unbound placeholder,
and to resolve the roots again is to do nothing. -/
theorem closed_since_resolve {before : List Edit} {roots : List RuleId} {resolution : Resolution}
    {g' : RuleGraph} (hbefore : ∀ e ∈ before, e.isRelease = false)
    (hroots : ∀ r ∈ roots, r < (empty.run before).graph.size)
    (h : (empty.run before).graph.resolve roots = (.ok resolution, g'))
    {after : List Edit} (hafter : ∀ e ∈ after, e.isRelease = false) :
    let later := (empty.run (before ++ .resolve roots :: after)).graph
    (∀ r, (r ∈ roots ∨ ∃ n, resolution.grammar.rule? n = some r) → later.Closed r ∧
      ∀ (σ : Type) [ByteSource σ] depth (id : CursorId) (m : Manager σ) n,
        (later.parser depth r id m).1 ≠ .error (.unresolvedPlaceholder n)) ∧
    later.resolve roots = (.ok ⟨later.grammarOf roots, 0⟩, later) := by
  intro later
  have hw := wellFormed_run before
  have hb := closedBehind_run hbefore
  have hlater : later = (((empty.run before).step (.resolve roots)).run after).graph :=
    congrArg Workbench.graph (run_append empty before _)
  have hgrows := (run_grows hafter (wellFormed_step _ (.resolve roots) hw)
    (step_grows (e := .resolve roots) rfl hw hb).2).1
  rw [← hlater, step_resolve_ok hroots h] at hgrows
  have hreached (r : RuleId) (hr : r ∈ (empty.run before).graph.reached roots) : later.Closed r :=
    (RuleGraph.closed_of_resolve hw hb hroots h hr).grows hgrows
  have hmet (r : RuleId) (hr : r ∈ roots) : r ∈ (empty.run before).graph.reached roots :=
    RuleGraph.mem_reached_iff.mpr ⟨r, hr, .refl⟩
  refine ⟨fun r hr => ?_, RuleGraph.resolve_of_closed fun r hr => hreached r (hmet r hr)⟩
  have hclosed : later.Closed r := by
    rcases hr with hr | ⟨n, hn⟩
    · exact hreached r (hmet r hr)
    · rw [(RuleGraph.resolve_ok h).2.1] at hn
      exact hreached r (RuleGraph.rule?_grammarOf_eq_some hn).1
  exact ⟨hclosed, fun σ _ depth => RuleGraph.parser_ne_unresolved hclosed depth⟩

def nestedEditsResolution : Resolution :=
  ⟨⟨[5], [("nested", 5), ("Sequence", 4), ("'('", 0), ("')'", 1), ("'x'", 2)], [3]⟩, 1⟩

/-- The placeholder has taken the rule's old name with it, and is not looked for under another. -/
theorem closed_since_resolve_nested :
    let later := (empty.run (nestedEdits ++ [.resolve [5], .rename 5 "outer", .drop 0])).graph
    (∀ e ∈ nestedEdits ++ [.rename 5 "outer", .drop 0], e.isRelease = false) ∧
    (∀ r ∈ [5], r < (empty.run nestedEdits).graph.size) ∧
    ((empty.run nestedEdits).graph.resolve [5]).1 = .ok nestedEditsResolution ∧
    later.Closed 5 ∧ later.resolve [5] = (.ok ⟨later.grammarOf [5], 0⟩, later) := by
  have hbefore : ∀ e ∈ nestedEdits, e.isRelease = false := by decide
  have hafter : ∀ e ∈ [Edit.rename 5 "outer", .drop 0], e.isRelease = false := by decide
  have hroots : ∀ r ∈ [5], r < (empty.run nestedEdits).graph.size := by decide
  have h : ((empty.run nestedEdits).graph.resolve [5]).1 = .ok nestedEditsResolution := by decide
  obtain ⟨hclosed, hresolve⟩ := closed_since_resolve hbefore hroots (Prod.ext h rfl) hafter
  refine ⟨by decide, hroots, h, ?_, hresolve⟩
  exact (hclosed 5 (.inl List.mem_cons_self)).1

end Workbench

end StreamPeg
