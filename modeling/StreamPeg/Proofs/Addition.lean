import StreamPeg.Proofs.Repetition
import StreamPeg.Proofs.Sequence

/-!
# Bounds add up

The required matches of a repetition are made in place, so the first `a` of them may as well be made
by something in front of it (`Required`): by a repetition of exactly `a`, or by the rule itself as
often in a row. What is left is a repetition whose bounds are lower by `a`. It goes through the same
managers, and only the names of the rules around a failure, and the name in the warning about a
match for nothing, tell which of them it has been (`InTwo`).
-/

namespace StreamPeg

/-- The failure as it is seen from outside of these rules, the outermost first. -/
def ParseFailure.through (names : List String) : ParseFailure → ParseFailure
  | .mismatch d => .mismatch { d with path := names ++ d.path }
  | e => e

namespace ParseFailure

theorem within_eq_through (e : ParseFailure) (name : String) :
    e.within name = e.through [name] := by
  cases e <;> rfl

theorem within_through (e : ParseFailure) (name : String) (names : List String) :
    (e.through names).within name = e.through (name :: names) := by
  cases e <;> rfl

theorem through_of_ne_mismatch {e : ParseFailure} (h : ∀ d, e ≠ .mismatch d)
    (names : List String) : e.through names = e := by
  cases e with
  | mismatch d => exact absurd rfl (h d)
  | source | unresolvedPlaceholder | tooDeep => rfl

theorem through_eq_tooDeep_iff (names : List String) (e : ParseFailure) :
    e.through names = .tooDeep ↔ e = .tooDeep := by
  cases e <;> simp [through]

end ParseFailure

variable {σ : Type}

namespace Parser

variable {p : Parser σ} {a b : Nat} {name outer one rest : String} {names : List String}

/-! ### Matches in two groups -/

theorem sequence_append (name : String) (ps qs : List (Parser σ)) :
    sequence name (ps ++ qs) = (sequence name ps).andThen (sequence name qs) := by
  funext id m
  induction ps generalizing m with
  | nil => rfl
  | cons p ps ih =>
    simp only [List.cons_append, sequence, andThen]
    rcases p id m with ⟨e | _, m'⟩
    · rfl
    · simp only [ih, andThen]

theorem times_add (name : String) (p : Parser σ) (a b : Nat) :
    times name p (a + b) = (times name p a).andThen (times name p b) := by
  simp only [times_eq_sequence, List.replicate_add, List.map_append, sequence_append]

/-- These parsers, one after another, do what `n` required matches do, seen from outside of rules of
these names. -/
def Requires (p : Parser σ) (n : Nat) (names : List String) (ps : List (Parser σ)) : Prop :=
  ∀ outer id m,
    (∃ k < n, (chain p id m).Matched k ∧ ∃ e, (chain p id m).result k = .error e ∧
      (∀ name, times name p n id m = (.error (e.within name), again p id m (k + 1))) ∧
      sequence outer ps id m = (.error (e.through (outer :: names)), again p id m (k + 1))) ∨
    (chain p id m).Matched n ∧ (∀ name, times name p n id m = (.ok (), again p id m n)) ∧
      sequence outer ps id m = (.ok (), again p id m n)

theorem requires_times (name : String) (p : Parser σ) (n : Nat) :
    Requires p n [name] [times name p n] := by
  intro outer id m
  rcases times_ends p n id m with ⟨k, hk, hm, e, hr, ht⟩ | ⟨hm, ht⟩
  · refine .inl ⟨k, hk, hm, e, hr, ht, ?_⟩
    simp only [sequence, ht, ParseFailure.within_eq_through e, ParseFailure.within_through]
  · refine .inr ⟨hm, ht, ?_⟩
    simp only [sequence, ht]

theorem requires_replicate (p : Parser σ) (n : Nat) :
    Requires p n [] (List.replicate n p) := by
  intro outer id m
  have hrow : sequence outer (List.replicate n p) = times outer p n := by
    rw [times_eq_sequence, List.map_replicate]
  rw [hrow]
  rcases times_ends p n id m with ⟨k, hk, hm, e, hr, ht⟩ | ⟨hm, ht⟩
  · refine .inl ⟨k, hk, hm, e, hr, ht, ?_⟩
    rw [ht, ParseFailure.within_eq_through]
  · exact .inr ⟨hm, ht, ht outer⟩

/-! ### Optional matches -/

/-- Optional matches never mismatch, and it is the same whatever the warning that they may end with
says. -/
inductive EndAsOne (noted noted' : Event) : Except ParseFailure Unit × Manager σ →
    Except ParseFailure Unit × Manager σ → Prop where
  | same {result : Except ParseFailure Unit} {m : Manager σ} :
      (∀ d, result ≠ .error (.mismatch d)) → EndAsOne noted noted' (result, m) (result, m)
  | stalled {m : Manager σ} : EndAsOne noted noted' (.ok (), m.note noted) (.ok (), m.note noted')

theorem endAsOne_upTo (noted noted' : Event) (p : Parser σ) (n : Nat) (id : CursorId)
    (m : Manager σ) : EndAsOne noted noted' (upTo p n id m) (upTo p n id m) := by
  induction n generalizing m with
  | zero => exact .same (by simp)
  | succ n ih =>
    simp only [upTo]
    rcases attempt p id m with ⟨e | _, m'⟩
    · cases e <;> exact .same (by simp)
    · exact ih m'

theorem endAsOne_whileMatching (noted noted' : Event) (p : Parser σ) (rounds : Nat)
    (id : CursorId) (m : Manager σ) :
    EndAsOne noted noted' (whileMatching noted p rounds id m)
      (whileMatching noted' p rounds id m) := by
  induction rounds generalizing m with
  | zero => exact .same (by simp)
  | succ rounds ih =>
    simp only [whileMatching]
    rcases m.offset id with _ | before
    · exact .same (by simp)
    · dsimp only
      rcases attempt p id m with ⟨e | _, m'⟩
      · cases e <;> exact .same (by simp)
      · dsimp only
        rcases m'.offset id with _ | after
        · exact .same (by simp)
        · dsimp only
          split
          · exact ih m'
          · exact .stalled

end Parser

/-! ### Repetitions of a grammar -/

namespace RuleGraph

/-- So many matches of a rule as rules in a sequence, and the names that a failure of them passes
through before that of the sequence: an exact repetition, or the rule in a row. -/
inductive Required (g : RuleGraph) (part : RuleId) (n : Nat) :
    List RuleId → List String → Prop where
  | exactly {r : RuleId} : g.kind r = .repetition part n (some n) →
      Required g part n [r] [g.name r]
  | inRow : Required g part n (List.replicate n part) []

variable [ByteSource σ]

/-- What a repetition of at least `a + b` matches returns, on the left in one, and on the right if
the first `a` of them are made in front of the rest. -/
inductive InTwo (g : RuleGraph) (part : RuleId) (a b : Nat) (one outer : String)
    (front : List String) (rest : String) (id : CursorId) (m : Manager σ) :
    Except ParseFailure Unit × Manager σ → Except ParseFailure Unit × Manager σ → Prop where
  | same {result : Except ParseFailure Unit} {m' : Manager σ} :
      (∀ d, result ≠ .error (.mismatch d)) →
      InTwo g part a b one outer front rest id m (result, m') (result, m')
  | stalled {m' : Manager σ} :
      InTwo g part a b one outer front rest id m
        (.ok (), m'.note (.stalled one (g.name part)))
        (.ok (), m'.note (.stalled rest (g.name part)))
  | inFront {k : Nat} {e : ParseFailure} {m' : Manager σ} :
      g.BreaksAt id (List.replicate (a + b) part) m k e m' → k < a →
      InTwo g part a b one outer front rest id m
        (.error (e.through [one]), m') (.error (e.through (outer :: front)), m')
  | inRest {k : Nat} {e : ParseFailure} {m' : Manager σ} :
      g.BreaksAt id (List.replicate (a + b) part) m k e m' → a ≤ k →
      InTwo g part a b one outer front rest id m
        (.error (e.through [one]), m') (.error (e.through [outer, rest]), m')

variable {g : RuleGraph} {part : RuleId} {a b depth : Nat} {one outer rest : String}
  {front : List RuleId} {names : List String} {id : CursorId} {m m' : Manager σ}

theorem breaksAt_of_chain {n k : Nat} {e : ParseFailure} (hk : k < n)
    (hm : (Parser.chain (g.parser depth part) id m).Matched k)
    (hr : (Parser.chain (g.parser depth part) id m).result k = .error e) (he : e ≠ .tooDeep) :
    g.BreaksAt id (List.replicate n part) m k e
      (Parser.again (g.parser depth part) id m (k + 1)) := by
  obtain ⟨n, rfl⟩ := Nat.exists_eq_add_of_lt hk
  induction k generalizing m with
  | zero =>
    rw [Nat.zero_add, List.replicate_succ]
    exact .here ⟨fun h => he (Except.error.inj h), depth, Prod.ext hr rfl⟩
  | succ k ih =>
    have hfirst : (g.parser depth part id m).1 = .ok () := hm 0 (Nat.succ_pos k)
    have hdrop : (Parser.chain (g.parser depth part) id m).drop 1 = _ := Parser.chain_drop 1
    rw [Nat.succ_add, Nat.succ_add, List.replicate_succ, Nat.add_comm (k + 1) 1, Parser.again_add]
    refine .behind ⟨by simp, depth, Prod.ext hfirst rfl⟩ (ih ?_ ?_ (by omega))
    · show Chain.Matched (Parser.chain _ id (Parser.again _ id m 1)) k
      rw [← hdrop]
      exact fun i hi => hm (1 + i) (by omega)
    · show (Parser.chain _ id (Parser.again _ id m 1)).result k = _
      rw [Nat.add_comm k 1] at hr
      rwa [← hdrop]

omit [ByteSource σ] in
theorem GivenUpOr.of_through
    {R : Except ParseFailure Unit × Manager σ → Except ParseFailure Unit × Manager σ → Prop}
    {e : ParseFailure} {names names' : List String} {n n' : Manager σ}
    (h : e ≠ .tooDeep → R (.error (e.through names), n) (.error (e.through names'), n')) :
    GivenUpOr R (.error (e.through names), n) (.error (e.through names'), n') := by
  simp only [GivenUpOr, ne_eq, Except.error.injEq, ParseFailure.through_eq_tooDeep_iff]
  by_cases he : e = .tooDeep
  · exact .inl ⟨he, he⟩
  · exact .inr ⟨he, he, h he⟩

/-- With the same depth for all matches. -/
theorem repetition_inTwo {ps : List (Parser σ)} {optional optional' : Parser σ}
    (hfront : Parser.Requires (g.parser depth part) a names ps)
    (hopt : ∀ m', Parser.EndAsOne (.stalled one (g.name part)) (.stalled rest (g.name part))
      (optional id m') (optional' id m')) :
    GivenUpOr (g.InTwo part a b one outer names rest id m)
      (((Parser.times one (g.parser depth part) (a + b)).andThen optional) id m)
      (Parser.sequence outer
        (ps ++ [(Parser.times rest (g.parser depth part) b).andThen optional']) id m) := by
  simp only [Parser.times_add, Parser.sequence_append, Parser.andThen]
  rcases hfront outer id m with ⟨k, hk, hm, e, hr, ht, hs⟩ | ⟨hm, ht, hs⟩
  · simp only [ht, hs, e.within_eq_through]
    exact .of_through fun he => .inFront (breaksAt_of_chain (Nat.lt_add_right b hk) hm hr he) hk
  simp only [ht, hs, Parser.sequence, Parser.andThen]
  rcases Parser.times_ends (g.parser depth part) b id
    (Parser.again (g.parser depth part) id m a) with ⟨k, hk, hm', e, hr, ht'⟩ | ⟨hm', ht'⟩
  · rw [← Parser.chain_drop] at hm' hr
    simp only [ht', e.within_eq_through, e.within_through, ← Parser.again_add]
    exact .of_through fun he => .inRest
      (breaksAt_of_chain (Nat.add_lt_add_left hk a) (hm.append hm') hr he) (Nat.le_add_right a k)
  · simp only [ht']
    generalize Parser.again (g.parser depth part) id
      (Parser.again (g.parser depth part) id m a) b = n
    have hends := hopt n
    rcases hx : optional id n with ⟨result, m₁⟩
    rcases hy : optional' id n with ⟨result', m₂⟩
    rw [hx, hy] at hends
    cases hends with
    | same hne =>
      cases result with
      | ok => exact .of_same fun _ => .same (by simp)
      | error e =>
        simp only [e.within_eq_through,
          ParseFailure.through_of_ne_mismatch fun d he => hne d (congrArg _ he)]
        exact .of_same fun _ => .same hne
    | stalled => exact .inr ⟨by simp, by simp, .stalled⟩

/-- What stands in front of the rest is approached by parsers that do the matches required. -/
theorem Required.exists_approaches (h : g.Required part a front names) :
    ∃ ps : List (Nat → Parser σ), List.Forall₂ g.Approaches front ps ∧
      ∀ depth, Parser.Requires (g.parser depth part) a names (ps.map (· depth)) := by
  cases h with
  | @exactly r hk =>
    refine ⟨[fun depth => g.parser (depth + 1) r], .cons (g.approaches_add r 1) .nil,
      fun depth => ?_⟩
    have htimes : g.parser (depth + 1) r =
        Parser.times (g.name r) (g.parser (σ := σ) depth part) a := by
      funext id m
      simp only [parser, hk, Nat.sub_self, Parser.andThen, Parser.upTo]
      rcases Parser.times (g.name r) (g.parser depth part) a id m with ⟨_ | _, m'⟩ <;> rfl
    show Parser.Requires _ a _ [g.parser (depth + 1) r]
    rw [htimes]
    exact Parser.requires_times _ _ a
  | inRow =>
    refine ⟨_, g.approaches_all (List.replicate a part), fun depth => ?_⟩
    rw [List.map_replicate, List.map_replicate]
    exact Parser.requires_replicate _ a

/-- A repetition of at least `a + b` matches, and the first `a` of them in front of a repetition of
at least `b`, whose upper bound, if there is one, is lower by `a`. With nothing left to require, `b`
is zero: one match or more is the rule itself in front of any number of it.

From any cursor in any manager that a run leads to, whatever its source, the one returns what the
other does: the same manager but for the name in a warning, and the same answer but for the names
that a mismatch has passed through. On a source that comes to an end, both return. -/
theorem repetition_add {g : RuleGraph} {whole split rest part : RuleId} {front : List RuleId}
    {names : List String} {a b : Nat} {max : Option Nat}
    (hwhole : g.kind whole = .repetition part (a + b) max)
    (hfront : g.Required part a front names)
    (hrest : g.kind rest = .repetition part b (max.map (· - a)))
    (hsplit : g.kind split = .sequence (front ++ [rest])) (options : StreamOptions)
    (actions : List Action) (id : CursorId) :
    (∀ {σ : Type} [ByteSource σ] (source : σ),
      let m := (Manager.ofSource options source).perform actions
      g.ReturnAlike whole split id m
        (g.InTwo part a b (g.name whole) (g.name split) names (g.name rest) id m)) ∧
    ∀ {σ : Type} [FiniteSource σ] (source : σ),
      let m := (Manager.ofSource options source).perform actions
      g.NonLeftRecursive whole → g.NonLeftRecursive split →
      g.InTwo part a b (g.name whole) (g.name split) names (g.name rest) id m
        (g.parse whole id m) (g.parse split id m) := by
  have halike {σ : Type} [ByteSource σ] (m : Manager σ) : g.ReturnAlike whole split id m
      (g.InTwo part a b (g.name whole) (g.name split) names (g.name rest) id m) := by
    obtain ⟨ps, happroach, hrequires⟩ := hfront.exists_approaches (σ := σ)
    have hseq := Approaches.sequence hsplit
      (List.rel_append happroach (.cons (g.approaches_add rest 1) .nil))
    refine (g.approaches_add whole 1).returnAlike hseq fun depth => ?_
    have hends {optional optional' : Parser σ}
        (hopt : ∀ m', Parser.EndAsOne (.stalled (g.name whole) (g.name part))
          (.stalled (g.name rest) (g.name part)) (optional id m') (optional' id m')) :
        GivenUpOr (g.InTwo part a b (g.name whole) (g.name split) names (g.name rest) id m) _ _ :=
      repetition_inTwo (hrequires depth) hopt
    cases max with
    | none =>
      simpa [parser, hwhole, hrest] using hends fun m' =>
        Parser.endAsOne_whileMatching _ _ (g.parser depth part) depth id m'
    | some max =>
      simpa [parser, hwhole, hrest, Nat.sub_sub] using hends fun m' =>
        Parser.endAsOne_upTo _ _ (g.parser depth part) (max - (a + b)) id m'
  refine ⟨fun source => halike _, fun source hr hr' => ?_⟩
  exact (halike _).parse (Manager.valid_perform (Manager.valid_ofSource options source) actions)
    hr hr'

/-- At least two times `ab`, and one time in front of at least one more, as a repetition and as the
rule itself. -/
def pairs : RuleGraph :=
  ⟨#[⟨"twice", .repetition 4 2 none⟩, ⟨"split", .sequence [2, 3]⟩,
    ⟨"once", .repetition 4 1 (some 1)⟩, ⟨"more", .repetition 4 1 none⟩, ⟨"ab", .literal [97, 98]⟩,
    ⟨"row", .sequence [4, 3]⟩]⟩

/-- The second match is lacking, and its first byte is there. -/
theorem repetition_add_pairs :
    let m := (Manager.ofSource {} (Script.ofPieces [.chunk [122, 97], .chunk [98, 97, 99]])).perform
      [.step (.branch 0), .step (.read 1 1)]
    pairs.kind 0 = .repetition 4 (1 + 1) none ∧ pairs.Required 4 1 [2] ["once"] ∧
    pairs.Required 4 1 [4] [] ∧ pairs.kind 3 = .repetition 4 1 none ∧
    pairs.kind 1 = .sequence [2, 3] ∧ pairs.kind 5 = .sequence [4, 3] ∧
    pairs.NonLeftRecursive 0 ∧ pairs.NonLeftRecursive 1 ∧ pairs.NonLeftRecursive 5 ∧
    pairs.InTwo 4 1 1 "twice" "split" ["once"] "more" 1 m (pairs.parse 0 1 m) (pairs.parse 1 1 m) ∧
    pairs.InTwo 4 1 1 "twice" "row" [] "more" 1 m (pairs.parse 0 1 m) (pairs.parse 5 1 m) ∧
    (pairs.parse 0 1 m).1 = .error (.mismatch ⟨4, ["twice", "ab"], .unexpected 98 99⟩) ∧
    (pairs.parse 1 1 m).1 = .error (.mismatch ⟨4, ["split", "more", "ab"], .unexpected 98 99⟩) ∧
    (pairs.parse 5 1 m).1 = .error (.mismatch ⟨4, ["row", "more", "ab"], .unexpected 98 99⟩) := by
  intro m
  have hr (r : RuleId) : pairs.NonLeftRecursive r :=
    nonLeftRecursive_of_falling (fun r => [1, 2, 1, 1, 0, 2].getD r 0) (by decide) r
  have h0 : pairs.kind 0 = .repetition 4 (1 + 1) none := rfl
  have h3 : pairs.kind 3 = .repetition 4 1 ((none : Option Nat).map (· - 1)) := rfl
  have honce : pairs.Required 4 1 [2] ["once"] := .exactly rfl
  have hrow : pairs.Required 4 1 [4] [] := .inRow
  have h1 : pairs.kind 1 = .sequence ([2] ++ [3]) := rfl
  have h5 : pairs.kind 5 = .sequence ([4] ++ [3]) := rfl
  obtain ⟨_, hsplit⟩ :=
    repetition_add h0 honce h3 h1 {} [.step (.branch 0), .step (.read 1 1)] 1
  obtain ⟨_, hrow'⟩ :=
    repetition_add h0 hrow h3 h5 {} [.step (.branch 0), .step (.read 1 1)] 1
  exact ⟨h0, honce, hrow, h3, rfl, rfl, hr 0, hr 1, hr 5, hsplit _ (hr 0) (hr 1),
    hrow' _ (hr 0) (hr 5), by decide +kernel, by decide +kernel, by decide +kernel⟩

end RuleGraph

end StreamPeg
