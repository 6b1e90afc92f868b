import StreamPeg.Proofs.Choice
import StreamPeg.Proofs.Returns

/-!
# How a choice mismatches

A choice mismatches if all of its alternatives do (`AllMismatch`), and `DeepestAt` tells which of
them gives its mismatch to the choice (`AllMismatch.choice_eq`). Otherwise one of them settles it
(`Settled`).
-/

namespace StreamPeg

variable {σ : Type}

/-! ### The deepest of a list -/

/-- The first of those that got furthest has `k` others before it. -/
structure DeepestAt (k : Nat) (d : Mismatch) (es : List Mismatch) : Prop where
  getElem? : es[k]? = some d
  le : ∀ e ∈ es, e.offset ≤ d.offset
  lt : ∀ e ∈ es.take k, e.offset < d.offset

theorem exists_firstDeepest {es : List Mismatch} (h : es ≠ []) : ∃ d, FirstDeepest d es := by
  induction es using List.reverseRecOn with
  | nil => exact absurd rfl h
  | append_singleton es e ih =>
    by_cases hes : es = []
    · rw [hes]
      exact ⟨e, .singleton e⟩
    · obtain ⟨d, hd⟩ := ih hes
      exact ⟨_, hd.deeper e⟩

theorem FirstDeepest.exists_deepestAt {d : Mismatch} {es : List Mismatch}
    (h : FirstDeepest d es) : ∃ k, DeepestAt k d es := by
  have hle {e : Mismatch} := h.offset_le (e := e)
  obtain @⟨before, after, hb, ha⟩ := h
  exact ⟨before.length, by simp, fun e => hle, by simpa using hb⟩

namespace DeepestAt

variable {k k' : Nat} {d d' : Mismatch} {es xs ys zs : List Mismatch}

theorem unique (h : DeepestAt k d es) (h' : DeepestAt k' d' es) : k = k' ∧ d = d' := by
  have hlt {k k' : Nat} {d d' : Mismatch} (h : DeepestAt k d es) (h' : DeepestAt k' d' es) :
      ¬ k < k' := by
    intro hk
    have hmem : d ∈ es.take k' := by
      rw [List.mem_iff_getElem?]
      exact ⟨k, by rw [List.getElem?_take_of_lt hk, h.getElem?]⟩
    have hd := h'.lt d hmem
    have hd' := h.le d' (List.mem_of_getElem? h'.getElem?)
    omega
  obtain rfl : k = k' := Nat.le_antisymm (Nat.le_of_not_lt (hlt h' h)) (Nat.le_of_not_lt (hlt h h'))
  exact ⟨rfl, Option.some.inj (h.getElem?.symm.trans h'.getElem?)⟩

/-- Only how far each of them got is of account. -/
theorem congr (h : DeepestAt k d es) {es' : List Mismatch}
    (ho : es'.map (·.offset) = es.map (·.offset)) (hk : es'[k]? = some d') :
    DeepestAt k d' es' := by
  have hd : d'.offset = d.offset := by
    have hget := congrArg (·[k]?) ho
    simpa [hk, h.getElem?] using hget
  refine ⟨hk, fun e he => ?_, fun e he => ?_⟩
  · have hmem := List.mem_map_of_mem (f := (·.offset)) he
    rw [ho] at hmem
    obtain ⟨x, hx, he'⟩ := List.mem_map.mp hmem
    exact hd ▸ he' ▸ h.le x hx
  · have hmem := List.mem_map_of_mem (f := (·.offset)) he
    rw [List.map_take, ho, ← List.map_take] at hmem
    obtain ⟨x, hx, he'⟩ := List.mem_map.mp hmem
    exact hd ▸ he' ▸ h.lt x hx

end DeepestAt

/-! ### Alternatives that are tried -/

namespace Parser

/-- All are tried in turn, and these are their mismatches. -/
inductive AllMismatch (id : CursorId) :
    List (Parser σ) → Manager σ → List Mismatch → Manager σ → Prop where
  | nil {m : Manager σ} : AllMismatch id [] m [] m
  | cons {p : Parser σ} {ps : List (Parser σ)} {m m' m'' : Manager σ} {e : Mismatch}
      {es : List Mismatch} : attempt p id m = (.error (.mismatch e), m') →
      AllMismatch id ps m' es m'' → AllMismatch id (p :: ps) m (e :: es) m''

/-- They are tried in turn until one of them does not mismatch, and this is what it returns. -/
inductive Settled (id : CursorId) :
    List (Parser σ) → Manager σ → Except ParseFailure Unit → Manager σ → Prop where
  | here {p : Parser σ} {ps : List (Parser σ)} {m m' : Manager σ}
      {result : Except ParseFailure Unit} : attempt p id m = (result, m') →
      (∀ d, result ≠ .error (.mismatch d)) → Settled id (p :: ps) m result m'
  | behind {p : Parser σ} {ps : List (Parser σ)} {m m' m'' : Manager σ} {e : Mismatch}
      {result : Except ParseFailure Unit} : attempt p id m = (.error (.mismatch e), m') →
      Settled id ps m' result m'' → Settled id (p :: ps) m result m''

variable {name : String} {id id' : CursorId} {pos : Nat} {ps qs : List (Parser σ)}
  {m m' n n' : Manager σ} {es es' : List Mismatch} {result : Except ParseFailure Unit}

namespace AllMismatch

theorem length_eq (h : AllMismatch id ps m es n) : es.length = ps.length := by
  induction h with
  | nil => rfl
  | cons _ _ ih => rw [List.length_cons, List.length_cons, ih]

theorem append (h : AllMismatch id ps m es n) (h' : AllMismatch id qs n es' n') :
    AllMismatch id (ps ++ qs) m (es ++ es') n' := by
  induction h with
  | nil => exact h'
  | cons ha _ ih => exact .cons ha (ih h')

theorem settled (h : AllMismatch id ps m es n) (h' : Settled id qs n result n') :
    Settled id (ps ++ qs) m result n' := by
  induction h with
  | nil => exact h'
  | cons ha _ ih => exact .behind ha (ih h')

theorem exists_remembered (name : String) (h : AllMismatch id ps m es n) {deepest : Option Mismatch}
    {earlier : List Mismatch} (hd : Mismatch.Remembered deepest earlier) :
    ∃ deepest', Mismatch.Remembered deepest' (earlier ++ es) ∧
      choiceFrom name deepest ps id m = choiceFrom name deepest' [] id n := by
  induction h generalizing deepest earlier with
  | nil => exact ⟨deepest, by rwa [List.append_nil], rfl⟩
  | @cons p ps m m' m'' e es ha _ ih =>
    obtain ⟨deepest', hd', he⟩ := ih (hd.deeper e)
    exact ⟨deepest', by simpa using hd', (choiceFrom_of_mismatch ha).trans he⟩

theorem choice_eq (h : AllMismatch id ps m es n) {k : Nat} {d : Mismatch} (hd : DeepestAt k d es) :
    choice name ps id m = (.error (.mismatch (d.within name)), n) := by
  obtain ⟨deepest, hdeepest, he⟩ :=
    h.exists_remembered name (show Mismatch.Remembered none [] from rfl)
  rw [choice, he]
  cases deepest with
  | none =>
    obtain rfl : es = [] := hdeepest
    cases hd.getElem?
  | some d' =>
    obtain ⟨k', hd'⟩ := FirstDeepest.exists_deepestAt hdeepest
    rw [(hd.unique hd').2]
    rfl

theorem exists_deepestAt (h : AllMismatch id ps m es n) (hne : ps ≠ []) :
    ∃ k d, DeepestAt k d es := by
  have hes : es ≠ [] := by
    rintro rfl
    exact hne (List.length_eq_zero_iff.mp h.length_eq.symm)
  obtain ⟨d, hd⟩ := exists_firstDeepest hes
  obtain ⟨k, hk⟩ := hd.exists_deepestAt
  exact ⟨k, d, hk⟩

end AllMismatch

namespace Settled

theorem ne_mismatch (h : Settled id ps m result n) (d : Mismatch) :
    result ≠ .error (.mismatch d) := by
  induction h with
  | here _ hne => exact hne d
  | behind _ _ ih => exact ih

theorem append (h : Settled id ps m result n) (qs : List (Parser σ)) :
    Settled id (ps ++ qs) m result n := by
  induction h with
  | here ha hne => exact .here ha hne
  | behind ha _ ih => exact .behind ha ih

theorem choice_eq (h : Settled id ps m result n) : choice name ps id m = (result, n) := by
  rw [choice]
  generalize none = deepest
  induction h generalizing deepest with
  | here ha hne => exact choiceFrom_of_settled ha hne
  | behind ha _ ih => exact (choiceFrom_of_mismatch ha).trans (ih _)

end Settled

end Parser

/-! ### Alternatives of a grammar -/

namespace RuleGraph

variable [ByteSource σ]

/-- Rules are tried in turn, each of them on a branch that is given up when it does not match, and
these are their mismatches. -/
inductive Declines (g : RuleGraph) (id : CursorId) :
    List RuleId → Manager σ → List Mismatch → Manager σ → Prop where
  | nil {m : Manager σ} : Declines g id [] m [] m
  | cons {r : RuleId} {rs : List RuleId} {m n n' m' : Manager σ} {branch : CursorId}
      {e : Mismatch} {es : List Mismatch} : m.branch id = (.ok branch, n) →
      g.Returns r branch n (.error (.mismatch e), n') → Declines g id rs (n'.release branch) es m' →
      Declines g id (r :: rs) m (e :: es) m'

variable {g : RuleGraph} {id : CursorId} {m n : Manager σ}

theorem declines_of_allMismatch (depth : Nat) {rs : List RuleId} {es : List Mismatch}
    (h : Parser.AllMismatch id (rs.map (g.parser depth)) m es n) : g.Declines id rs m es n := by
  induction rs generalizing m es with
  | nil =>
    cases h
    exact .nil
  | cons r rs ih =>
    cases h with
    | @cons _ _ _ m' _ e es ha h =>
      rcases hb : m.branch id with ⟨_ | branch, m₁⟩
      · simp [Parser.attempt, hb] at ha
      · rcases hr : g.parser depth r branch m₁ with ⟨f | _, m₂⟩
        · simp only [Parser.attempt, hb, hr, Prod.mk.injEq, Except.error.injEq] at ha
          obtain ⟨rfl, rfl⟩ := ha
          exact .cons hb (returns_of_eq hr (by simp)) (ih h)
        · simp only [Parser.attempt, hb, hr] at ha
          split at ha <;> simp at ha

end RuleGraph

end StreamPeg
