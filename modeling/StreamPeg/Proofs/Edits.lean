import StreamPeg.Proofs.Resolve

/-!
# What an edit does to the rules

Whatever an edit does, it either adds rules to the graph or rebinds placeholders, and leaves the
rest as it was (`adds_or_rebinds`). So a rule that is no placeholder stays what it has been built as
(`kind_run`), and on every workbench the parts of a rule are rules, no placeholder is bound to
another one and no choice is empty (`wellFormed_run`).
-/

namespace StreamPeg

namespace RuleGraph

variable {g g' g₀ : RuleGraph}

/-- What builders and resolutions take care of. -/
structure WellFormed (g : RuleGraph) : Prop where
  parts : ∀ {r p}, p ∈ (g.kind r).parts → p < g.size
  target : ∀ {r t}, g.kind r = .placeholder (some t) → g.isPlaceholder t = false
  choice : ∀ r, g.kind r ≠ .choice []

theorem wellFormed_empty : empty.WellFormed where
  parts h := by cases h
  target h := by cases h
  choice _ h := by cases h

/-- A bound placeholder stands for what it is bound to. -/
theorem WellFormed.follow_of_target (hg : g.WellFormed) {r t : RuleId}
    (hk : g.kind r = .placeholder (some t)) : g.follow r = t := by
  have ht : g.target? r = some t := by rw [target?, hk]
  have hn := target?_of_isPlaceholder_eq_false (hg.target hk)
  obtain ⟨n, hsize⟩ := Nat.exists_eq_add_of_lt (lt_size_of_target? ht)
  rw [follow, hsize, followUpTo, ht]
  exact followUpTo_of_unbound hn _

/-! ### Adding rules -/

@[simp] theorem size_add (g : RuleGraph) (name : String) (kind : RuleKind) :
    (g.add name kind).2.size = g.size + 1 := Array.size_push _

theorem rule_add (g : RuleGraph) (name : String) (kind : RuleKind) (r : RuleId) :
    (g.add name kind).2.rule r = if r = g.size then ⟨name, kind⟩ else g.rule r := by
  simp only [rule, add, size, Array.getD_eq_getD_getElem?, Array.getElem?_push]
  split <;> rfl

theorem kind_add (g : RuleGraph) (name : String) (kind : RuleKind) (r : RuleId) :
    (g.add name kind).2.kind r = if r = g.size then kind else g.kind r := by
  rw [RuleGraph.kind, rule_add]
  split <;> rfl

/-- `g'` has come from `g` by adding rules, each made of rules that there were before it. -/
inductive Adds (g : RuleGraph) : RuleGraph → Prop where
  | refl : Adds g g
  | add {g' : RuleGraph} {name : String} {kind : RuleKind} : Adds g g' →
      (∀ p ∈ kind.parts, p < g'.size) → (∀ t, kind ≠ .placeholder (some t)) → kind ≠ .choice [] →
      Adds g (g'.add name kind).2

theorem Adds.size_le (h : g.Adds g') : g.size ≤ g'.size := by
  induction h with
  | refl => exact Nat.le_refl _
  | add _ _ _ _ ih =>
    rw [size_add]
    exact Nat.le_succ_of_le ih

theorem Adds.rule_eq {r : RuleId} (h : g.Adds g') (hr : r < g.size) : g'.rule r = g.rule r := by
  induction h with
  | refl => rfl
  | add hadds _ _ _ ih =>
    rw [rule_add, if_neg (Nat.ne_of_lt (Nat.lt_of_lt_of_le hr hadds.size_le)), ih]

/-- Builders bind nothing. -/
theorem Adds.kind_of_bound {r t : RuleId} (h : g.Adds g')
    (hk : g'.kind r = .placeholder (some t)) : g.kind r = .placeholder (some t) := by
  induction h with
  | refl => exact hk
  | add _ _ htarget _ ih =>
    rw [kind_add] at hk
    split at hk
    · exact absurd hk (htarget t)
    · exact ih hk

theorem WellFormed.adds (hg : g.WellFormed) (h : g.Adds g') : g'.WellFormed := by
  induction h with
  | refl => exact hg
  | @add g' name kind _ hparts htarget hchoice ih =>
    have hk := g'.kind_add name kind
    refine ⟨fun {r p} hp => ?_, fun {r t} ht => ?_, fun r hc => ?_⟩
    · rw [size_add]
      rw [hk] at hp
      split at hp
      · exact Nat.lt_succ_of_lt (hparts p hp)
      · exact Nat.lt_succ_of_lt (ih.parts hp)
    · rw [hk] at ht
      split at ht
      · exact absurd ht (htarget t)
      · have hold := ih.target ht
        have hne : t ≠ g'.size := by
          rintro rfl
          rw [isPlaceholder, kind_of_size_le (Nat.le_refl _)] at hold
          cases hold
        rwa [isPlaceholder, hk, if_neg hne]
    · rw [hk] at hc
      split at hc
      · exact hchoice hc
      · exact ih.choice r hc

theorem adds_byteLiterals (h : g₀.Adds g) (bytes : List UInt8) :
    g₀.Adds (g.byteLiterals bytes).2 ∧
      ∀ r ∈ (g.byteLiterals bytes).1, r < (g.byteLiterals bytes).2.size := by
  induction bytes generalizing g₀ g with
  | nil => exact ⟨h, by simp [byteLiterals]⟩
  | cons b bytes ih =>
    have hl : g₀.Adds (g.literal [b]).2 := .add h (by simp [RuleKind.parts]) (by simp) (by simp)
    obtain ⟨hadds, hlt⟩ := ih hl
    refine ⟨hadds, fun r hr => ?_⟩
    rcases List.mem_cons.mp hr with rfl | hr
    · have hle := (ih (.refl : (g.literal [b]).2.Adds _)).1.size_le
      exact Nat.lt_of_lt_of_le (by simp [literal, add, size]) hle
    · exact hlt r hr

theorem adds_build (g : RuleGraph) (call : Builder) (h : ∀ p ∈ call.parts, p < g.size) :
    g.Adds (g.build call).2 := by
  have hone {name : String} {kind : RuleKind} (hp : ∀ p ∈ kind.parts, p ∈ call.parts)
      (ht : ∀ t, kind ≠ .placeholder (some t)) (hc : kind ≠ .choice []) :
      g.Adds (g.add name kind).2 := .add .refl (fun p hm => h p (hp p hm)) ht hc
  cases call with
  | literal bytes => exact hone (by simp [RuleKind.parts]) (by simp) (by simp)
  | sequence parts =>
    cases parts with
    | nil => exact .refl
    | cons p parts => exact hone (fun _ hm => hm) (by simp) (by simp)
  | choice alternatives =>
    cases alternatives with
    | nil => exact .refl
    | cons p alternatives => exact hone (fun _ hm => hm) (by simp) (by simp)
  | oneOfBytes bytes =>
    cases bytes with
    | nil => exact .refl
    | cons b bytes =>
      obtain ⟨hadds, hlt⟩ := adds_byteLiterals .refl (b :: bytes)
      exact .add hadds hlt (by simp) (by simp)
  | repetition part min max =>
    cases max with
    | none => exact hone (fun _ hm => hm) (by simp) (by simp)
    | some max =>
      simp only [build, repetition]
      split
      · exact .refl
      · exact hone (fun _ hm => hm) (by simp) (by simp)
  | atLeast part | asManyAs part | zeroOrMore part | oneOrMore part | zeroOrOne part =>
    exact hone (fun _ hm => hm) (by simp) (by simp)
  | placeholder name => exact hone (by simp [RuleKind.parts]) (by simp) (by simp)

/-! ### Rebinding -/

/-- Only what placeholders are bound to is different. -/
structure Rebinds (g g' : RuleGraph) : Prop where
  size : g'.size = g.size
  kind : ∀ r, g'.kind r = g.kind r ∨ g.isPlaceholder r ∧ ∃ target,
    g'.kind r = .placeholder target ∧ ∀ t, target = some t → g.isPlaceholder t = false

theorem Rebinds.isPlaceholder (h : g.Rebinds g') (r : RuleId) :
    g'.isPlaceholder r = g.isPlaceholder r := by
  rcases h.kind r with hk | ⟨hr, target, hk, -⟩
  · rw [RuleGraph.isPlaceholder, hk, RuleGraph.isPlaceholder]
  · rw [hr, RuleGraph.isPlaceholder, hk]
    rfl

theorem WellFormed.rebinds (hg : g.WellFormed) (h : g.Rebinds g') : g'.WellFormed where
  parts {r p} hp := by
    rw [h.size]
    rcases h.kind r with hk | ⟨-, target, hk, -⟩
    · exact hg.parts (hk ▸ hp)
    · rw [hk] at hp
      cases hp
  target {r t} ht := by
    rw [h.isPlaceholder]
    rcases h.kind r with hk | ⟨-, target, hk, hfits⟩
    · exact hg.target (hk ▸ ht)
    · exact hfits t (RuleKind.placeholder.inj (hk.symm.trans ht))
  choice r hc := by
    rcases h.kind r with hk | ⟨-, target, hk, -⟩
    · exact hg.choice r (hk ▸ hc)
    · rw [hk] at hc
      cases hc

theorem rebinds_rename (g : RuleGraph) (r : RuleId) (name : String) :
    g.Rebinds (g.rename r name).2 :=
  ⟨g.size_rename r name, fun s => .inl (g.kind_rename r name s)⟩

theorem rebinds_release (g : RuleGraph) (grammar : Grammar) :
    g.Rebinds (g.release grammar).2 where
  size := g.size_setTargets (fun _ => none) grammar.placeholders
  kind r := by
    rw [kind_release]
    split
    · next h => exact .inr ⟨h.2.2, none, rfl, nofun⟩
    · exact .inl rfl

theorem rebinds_resolve {roots : List RuleId} {resolution : Resolution}
    (h : g.resolve roots = (.ok resolution, g')) : g.Rebinds g' where
  size := by
    obtain ⟨-, -, -, rfl⟩ := resolve_ok h
    exact g.size_bindAll _ _
  kind r := by
    rcases kind_of_resolve h r with hk | ⟨-, hn, t, -, ht, -, hk⟩
    · exact .inl hk
    · refine .inr ⟨isPlaceholder_of_kind_eq hn, some t, hk, fun s hs => ?_⟩
      exact Option.some.inj hs ▸ ht

end RuleGraph

namespace Workbench

/-- All that an edit can do to the graph. -/
theorem step_cases (w : Workbench) (e : Edit) :
    w.graph.Adds (w.step e).graph ∨
    (∃ r n, (w.step e).graph = (w.graph.rename r n).2) ∨
    (∃ roots resolution, (∀ r ∈ roots, r < w.graph.size) ∧
      w.graph.resolve roots = (.ok resolution, (w.step e).graph)) ∨
    (e.isRelease ∧ ∃ grammar, (w.step e).graph = (w.graph.release grammar).2) := by
  unfold step
  split
  · next hr =>
    cases e with
    | build call => exact .inl (w.graph.adds_build call hr)
    | rename r n => exact .inr (.inl ⟨r, n, rfl⟩)
    | resolve roots =>
      rcases h : w.graph.resolve roots with ⟨_ | resolution, g'⟩
      · rw [make, h, RuleGraph.resolve_error h]
        exact .inl .refl
      · rw [make, h]
        exact .inr (.inr (.inl ⟨roots, resolution, hr, h⟩))
    | clone i => exact .inl .refl
    | drop i => exact .inl .refl
    | release i =>
      cases h : w.grammars[i]? with
      | none =>
        rw [make, h]
        exact .inl .refl
      | some grammar =>
        rw [make, h]
        exact .inr (.inr (.inr ⟨rfl, grammar, rfl⟩))
  · exact .inl .refl

/-- Whatever it does, it either adds rules or rebinds placeholders. -/
theorem adds_or_rebinds (w : Workbench) (e : Edit) :
    w.graph.Adds (w.step e).graph ∨ w.graph.Rebinds (w.step e).graph := by
  rcases w.step_cases e with ha | ⟨r, n, hr⟩ | ⟨roots, resolution, -, hr⟩ | ⟨-, grammar, hr⟩
  · exact .inl ha
  · exact .inr (hr ▸ w.graph.rebinds_rename r n)
  · exact .inr (RuleGraph.rebinds_resolve hr)
  · exact .inr (hr ▸ w.graph.rebinds_release grammar)

/-- A rule that is no placeholder is made of what it was built of, whatever is done later. -/
theorem kind_step {w : Workbench} {r : RuleId} (h : w.graph.isPlaceholder r = false) (e : Edit) :
    (w.step e).graph.kind r = w.graph.kind r := by
  rcases w.adds_or_rebinds e with ha | hb
  · exact congrArg Rule.kind (ha.rule_eq (RuleGraph.lt_size_of_isPlaceholder_eq_false h))
  · rcases hb.kind r with hk | ⟨hp, -⟩
    · exact hk
    · rw [h] at hp
      cases hp

theorem kind_run {w : Workbench} {r : RuleId} (h : w.graph.isPlaceholder r = false)
    (edits : List Edit) : (w.run edits).graph.kind r = w.graph.kind r := by
  refine run_induct (P := fun w' => w'.graph.kind r = w.graph.kind r) rfl fun w' e _ hk => ?_
  have h' : w'.graph.isPlaceholder r = false := by rwa [RuleGraph.isPlaceholder, hk]
  rw [kind_step h' e, hk]

theorem wellFormed_step (w : Workbench) (e : Edit) (h : w.graph.WellFormed) :
    (w.step e).graph.WellFormed := by
  rcases w.adds_or_rebinds e with ha | hb
  · exact h.adds ha
  · exact h.rebinds hb

theorem wellFormed_run (edits : List Edit) : (empty.run edits).graph.WellFormed :=
  run_induct (P := fun w => w.graph.WellFormed) RuleGraph.wellFormed_empty
    fun w e _ h => w.wellFormed_step e h

/-- Nested parentheses around an `x`, built from nothing. -/
def nestedEdits : List Edit :=
  [.build (.literal [40]), .build (.literal [41]), .build (.literal [120]),
    .build (.placeholder "nested"), .build (.sequence [0, 3, 1]), .build (.choice [4, 2]),
    .rename 5 "nested"]

end Workbench

end StreamPeg
