import StreamPeg.Proofs.Resolve

/-!
# What a failed resolution reports

A placeholder that the search meets is `Dangling` if it is unbound and no rule that the search meets
has its name. A resolution fails where there is one, and then it lists the names of all such
placeholders, a name where the first one of it is met, and changes nothing (`resolve_fails`).
-/

namespace StreamPeg

/-! ### Lists without repetitions -/

section

variable {α β : Type} [DecidableEq β]

/-- What is listed once is listed where it has come first. -/
theorem pairwise_eraseDups_filterMap (f : α → Option β) (l : List α) :
    (l.filterMap f).eraseDups.Pairwise fun b b' =>
      l.findIdx (f · == some b) < l.findIdx (f · == some b') := by
  induction l generalizing f with
  | nil => exact .nil
  | cons a l ih =>
    cases ha : f a with
    | none =>
      rw [List.filterMap_cons_none ha]
      refine (ih f).imp fun {b b'} h => ?_
      simpa [List.findIdx_cons, ha] using h
    | some b =>
      rw [List.filterMap_cons_some ha, List.eraseDups_cons, List.filter_filterMap]
      have hmem {b' : β} (h : b' ∈ (l.filterMap fun a => (f a).filter (!· == b)).eraseDups) :
          b ≠ b' := by
        rw [List.mem_eraseDups, ← List.filter_filterMap] at h
        rintro rfl
        simp at h
      -- Those that are not `b` are found in the rest of the list, with or without `b` in it.
      have hidx {b' : β} (h : b ≠ b') : (a :: l).findIdx (f · == some b') =
          l.findIdx (fun a => (f a).filter (!· == b) == some b') + 1 := by
        have hrest : (fun a => (f a).filter (!· == b) == some b') = (f · == some b') := by
          funext a
          cases f a <;> grind
        rw [List.findIdx_cons, hrest, ha, Option.some_beq_some, beq_eq_false_iff_ne.mpr h,
          cond_false]
      refine List.pairwise_cons.mpr ⟨fun b' h => ?_, (ih _).imp_of_mem fun h h' hlt => ?_⟩
      · rw [hidx (hmem h)]
        simp [List.findIdx_cons, ha]
      · rw [hidx (hmem h), hidx (hmem h')]
        exact Nat.succ_lt_succ hlt

end

namespace RuleGraph

/-! ### Dangling placeholders -/

variable {g : RuleGraph} {roots : List RuleId}

/-- No rule that can be reached from the roots answers to this placeholder. -/
def Dangling (g : RuleGraph) (roots : List RuleId) (p : RuleId) : Prop :=
  p ∈ g.preorder roots ∧ g.kind p = .placeholder none ∧
    ∀ r ∈ g.preorder roots, g.isPlaceholder r = false → g.name r ≠ g.ownName p

instance (g : RuleGraph) (roots : List RuleId) (p : RuleId) : Decidable (g.Dangling roots p) :=
  inferInstanceAs (Decidable (_ ∧ _ ∧ ∀ r ∈ g.preorder roots, _ → _))

/-- How many rules are met before the first dangling placeholder of that name. -/
def firstMet (g : RuleGraph) (roots : List RuleId) (n : String) : Nat :=
  (g.preorder roots).findIdx fun p => g.Dangling roots p ∧ g.ownName p = n

/-- The name that a placeholder is reported by. -/
def missed? (g : RuleGraph) (roots : List RuleId) (p : RuleId) : Option String :=
  if g.Dangling roots p then some (g.ownName p) else none

theorem missed?_eq_some (g : RuleGraph) (roots : List RuleId) (p : RuleId) (n : String) :
    g.missed? roots p = some n ↔ g.Dangling roots p ∧ g.ownName p = n := by
  rw [missed?, Option.ite_none_right_eq_some, Option.some.injEq]

theorem rule?_isNone_iff (g : RuleGraph) (roots : List RuleId) (n : String) :
    ((g.grammarOf roots).rule? n).isNone ↔
      ∀ r ∈ g.preorder roots, g.isPlaceholder r = false → g.name r ≠ n := by
  rw [rule?_grammarOf, reached_eq_preorder, Option.isNone_iff_eq_none, List.find?_eq_none]
  simp

theorem missing_eq (g : RuleGraph) (roots : List RuleId) :
    g.missing (g.grammarOf roots) = ((g.preorder roots).filterMap (g.missed? roots)).eraseDups := by
  rw [missing, unbound, grammarOf, ← List.filterMap_eq_map, List.filter_filterMap,
    List.filterMap_filter, List.filterMap_filter, reached_eq_preorder]
  refine congrArg List.eraseDups (List.filterMap_congr fun p hp => ?_)
  have hnone := g.rule?_isNone_iff roots (g.ownName p)
  rw [grammarOf, reached_eq_preorder] at hnone
  simp only [missed?, Dangling, hp, kind_eq_placeholder_none_iff, true_and, ← hnone, Option.filter,
    Function.comp]
  grind

theorem mem_missing_iff (g : RuleGraph) (roots : List RuleId) (n : String) :
    n ∈ g.missing (g.grammarOf roots) ↔ ∃ p, g.Dangling roots p ∧ g.ownName p = n := by
  simp only [missing_eq, List.mem_eraseDups, List.mem_filterMap, missed?_eq_some]
  exact ⟨fun ⟨p, _, h⟩ => ⟨p, h⟩, fun ⟨p, h⟩ => ⟨p, h.1.1, h⟩⟩

theorem pairwise_missing (g : RuleGraph) (roots : List RuleId) :
    (g.missing (g.grammarOf roots)).Pairwise fun n n' =>
      g.firstMet roots n < g.firstMet roots n' := by
  have hmet (n : String) : g.firstMet roots n =
      (g.preorder roots).findIdx (g.missed? roots · == some n) := by
    refine congrArg (fun p => (g.preorder roots).findIdx p) (funext fun p => ?_)
    rw [Bool.eq_iff_iff, decide_eq_true_iff, beq_iff_eq, missed?_eq_some]
  simp only [hmet, missing_eq]
  exact pairwise_eraseDups_filterMap _ _

/-! ### Failing -/

theorem resolve_of_missing_ne_nil {names : List String}
    (hm : g.missing (g.grammarOf roots) = names) (hne : names ≠ []) :
    g.resolve roots = (.error (.unresolved names), g) := by
  obtain ⟨n, names, rfl⟩ := List.exists_cons_of_ne_nil hne
  simp only [resolve, hm]

theorem missing_of_resolve_error {e : ResolveError} (h : (g.resolve roots).1 = .error e) :
    g.missing (g.grammarOf roots) ≠ [] := by
  intro hm
  simp only [resolve, hm] at h
  cases h

/-- A resolution fails if and only if it meets a dangling placeholder. Then it reports the names of
those that it meets, each once and in the order in which they are met, and leaves every binding and
every name as it was. -/
theorem resolve_fails (g : RuleGraph) (roots : List RuleId) :
    ((∃ e, (g.resolve roots).1 = .error e) ↔ ∃ p, g.Dangling roots p) ∧
    ∀ names g', g.resolve roots = (.error (.unresolved names), g') →
      (∀ n, n ∈ names ↔ ∃ p, g.Dangling roots p ∧ g.ownName p = n) ∧
      names.Nodup ∧
      (names.Pairwise fun n n' => g.firstMet roots n < g.firstMet roots n') ∧
      g' = g := by
  constructor
  · constructor
    · rintro ⟨e, he⟩
      obtain ⟨n, hn⟩ := List.exists_mem_of_ne_nil _ (missing_of_resolve_error he)
      obtain ⟨p, hp, -⟩ := (g.mem_missing_iff roots n).mp hn
      exact ⟨p, hp⟩
    · rintro ⟨p, hp⟩
      have hn := (g.mem_missing_iff roots (g.ownName p)).mpr ⟨p, hp, rfl⟩
      exact ⟨_, congrArg Prod.fst (resolve_of_missing_ne_nil rfl (List.ne_nil_of_mem hn))⟩
  · intro names g' h
    have hne := missing_of_resolve_error (congrArg Prod.fst h)
    have he := (resolve_of_missing_ne_nil rfl hne).symm.trans h
    obtain ⟨rfl, rfl⟩ : g.missing (g.grammarOf roots) = names ∧ g = g' := by simpa using he
    have hmet := g.pairwise_missing roots
    refine ⟨g.mem_missing_iff roots, hmet.imp ?_, hmet, rfl⟩
    rintro n n' hlt rfl
    exact Nat.lt_irrefl _ hlt

/-- A sequence of placeholders, of which two have no rule of their name. -/
def dangles : RuleGraph :=
  ⟨#[⟨"top", .sequence [1, 2, 3, 4, 5]⟩, ⟨"b", .placeholder none⟩, ⟨"x", .placeholder none⟩,
    ⟨"a", .placeholder none⟩, ⟨"b", .placeholder none⟩, ⟨"x", .literal [120]⟩]⟩

theorem resolve_fails_dangles :
    dangles.resolve [0] = (.error (.unresolved ["b", "a"]), dangles) ∧
    (∀ n, n ∈ ["b", "a"] ↔ ∃ p, dangles.Dangling [0] p ∧ dangles.ownName p = n) ∧
    ["b", "a"].Pairwise fun n n' => dangles.firstMet [0] n < dangles.firstMet [0] n' := by
  have h : dangles.resolve [0] = (.error (.unresolved ["b", "a"]), dangles) := by decide
  obtain ⟨hmem, -, hmet, -⟩ := (resolve_fails dangles [0]).2 _ _ h
  exact ⟨h, hmem, hmet⟩

end RuleGraph

end StreamPeg
