import StreamPeg.Proofs.Abreast

/-!
# Where a repetition stops

A `Chain` are consecutive matches of one rule in place, with what each of them comes to. A
repetition follows it: it needs the first `min` matches, and then goes on up to the first number of
matches that it `Stops` at (`RepetitionEnds`). The required matches are those of the chain
(`times_ends`); the optional ones are tried on branches, in managers that are abreast of it
(`upTo_ends`, `whileMatching_ends`).
-/

namespace StreamPeg

/-! ### Chains of matches -/

/-- How the match behind `k` others ends, and where those have brought the cursor. -/
structure Chain where
  result : Nat → Except ParseFailure Unit
  offset : Nat → Option Nat

namespace Chain

/-- What is left of a chain behind so many matches. -/
def drop (c : Chain) (j : Nat) : Chain := ⟨fun k => c.result (j + k), fun k => c.offset (j + k)⟩

def Matched (c : Chain) (k : Nat) : Prop := ∀ i < k, c.result i = .ok ()

/-- A repetition is content with so many matches: there have to be no more of them, the next one
fails, or the last one was for nothing and there is nothing else to end the repetition. -/
def Stops (c : Chain) (min : Nat) (max : Option Nat) (k : Nat) : Prop :=
  min ≤ k ∧ (max = some k ∨ (∃ d, c.result k = .error (.mismatch d)) ∨
    max = none ∧ min < k ∧ c.offset k = c.offset (k - 1))

variable {c : Chain} {j k : Nat}

theorem Matched.append (h : c.Matched j) (h' : (c.drop j).Matched k) : c.Matched (j + k) := by
  intro i hi
  by_cases hj : i < j
  · exact h i hj
  · have hr : c.result (j + (i - j)) = .ok () := h' (i - j) (by omega)
    rwa [Nat.add_sub_cancel' (Nat.le_of_not_lt hj)] at hr

theorem matched_zero (c : Chain) : c.Matched 0 := fun i hi => absurd hi (Nat.not_lt_zero i)

theorem matched_one (h : c.result 0 = .ok ()) : c.Matched 1 := by
  intro i hi
  rwa [Nat.lt_one_iff.mp hi]

theorem not_stops_zero {min : Nat} {max : Option Nat} (hmax : max ≠ some 0)
    (hr : ∀ d, c.result 0 ≠ .error (.mismatch d)) : ¬ c.Stops min max 0 := by
  rintro ⟨-, hm | ⟨d, hd⟩ | ⟨-, hlt, -⟩⟩
  · exact hmax hm
  · exact hr d hd
  · exact absurd hlt (Nat.not_lt_zero _)

/-- Behind the matches that have to be, and any more of them that were for something, all that are
left are optional. -/
theorem stops_drop {min : Nat} {max max' : Option Nat} (hmin : min ≤ j)
    (hmax : max = max'.map (j + ·))
    (hmoved : max = none → min < j → c.offset j ≠ c.offset (j - 1)) :
    (c.drop j).Stops 0 max' k ↔ c.Stops min max (j + k) := by
  have hbound : max' = some k ↔ max = some (j + k) := by
    rw [hmax]
    cases max' <;> simp
  have hnone : max' = none ↔ max = none := by
    rw [hmax]
    cases max' <;> simp
  have hstalled : max' = none ∧ 0 < k ∧ (c.drop j).offset k = (c.drop j).offset (k - 1) ↔
      max = none ∧ min < j + k ∧ c.offset (j + k) = c.offset (j + k - 1) := by
    rw [hnone]
    refine and_congr_right fun hn => ?_
    cases k with
    | zero =>
      refine iff_of_false (fun h => absurd h.1 (Nat.lt_irrefl 0)) ?_
      rintro ⟨hlt, he⟩
      exact hmoved hn hlt he
    | succ k =>
      have hlt : min < j + k + 1 := by omega
      simp only [Nat.zero_lt_succ, hlt, true_and, drop, Nat.add_sub_cancel, ← Nat.add_assoc]
  rw [Stops, Stops, hbound, hstalled]
  exact and_congr_left fun _ => iff_of_true (Nat.zero_le k) (by omega)

end Chain

/-- How a repetition ends. A required match that is lacking is the mismatch of the whole, seen from
outside; any other failure is passed on; and what was tried beyond the last match has left the
cursor where it was. -/
inductive RepetitionEnds (name : String) (min : Nat) (max : Option Nat) (c : Chain) :
    Ending → Prop where
  | lacking {k : Nat} {d : Mismatch} : k < min → c.Matched k →
      c.result k = .error (.mismatch d) →
      RepetitionEnds name min max c (.error (.mismatch (d.within name)), c.offset (k + 1))
  | broken {k : Nat} {failure : ParseFailure} : c.Matched k → (∀ i ≤ k, ¬ c.Stops min max i) →
      c.result k = .error failure → (∀ d, failure ≠ .mismatch d) →
      RepetitionEnds name min max c
        (.error failure, if k < min then c.offset (k + 1) else c.offset k)
  | stopped {k : Nat} : c.Matched k → (∀ i < k, ¬ c.Stops min max i) → c.Stops min max k →
      RepetitionEnds name min max c (.ok (), c.offset k)

namespace RepetitionEnds

variable {name : String} {min j : Nat} {max max' : Option Nat} {c : Chain} {out : Ending}

/-- If nothing ends it before these matches are there, it ends as the matches behind them do. -/
theorem after (hm : c.Matched j) (hbefore : ∀ i < j, ¬ c.Stops min max i) (hj : min ≤ j)
    (hmax : max = max'.map (j + ·))
    (hmoved : max = none → min < j → c.offset j ≠ c.offset (j - 1))
    (h : RepetitionEnds name 0 max' (c.drop j) out) : RepetitionEnds name min max c out := by
  have hstops {k i : Nat} (hi : i < j + k) (hk : ∀ i < k, ¬ (c.drop j).Stops 0 max' i) :
      ¬ c.Stops min max i := by
    by_cases hlt : i < j
    · exact hbefore i hlt
    · have hi' := hk (i - j) (by omega)
      rwa [Chain.stops_drop hj hmax hmoved, Nat.add_sub_cancel' (Nat.le_of_not_lt hlt)] at hi'
  cases h with
  | lacking hk => exact absurd hk (Nat.not_lt_zero _)
  | @broken k failure hk hi hr hf =>
    have hoffset : (if k < 0 then (c.drop j).offset (k + 1) else (c.drop j).offset k) =
        if j + k < min then c.offset (j + k + 1) else c.offset (j + k) := by
      rw [if_neg (Nat.not_lt_zero k), if_neg (by omega)]
      rfl
    rw [hoffset]
    refine .broken (hm.append hk) (fun i hle => ?_) hr hf
    exact hstops (Nat.lt_succ_of_le hle) fun i hlt => hi i (Nat.le_of_lt_succ hlt)
  | @stopped k hk hi hstop =>
    rw [Chain.stops_drop hj hmax hmoved] at hstop
    exact .stopped (hm.append hk) (fun i hlt => hstops hlt hi) hstop

/-- It mismatches with a required match that is lacking, and in no other way. -/
theorem mismatch_iff (h : RepetitionEnds name min max c out) (e : Mismatch) :
    out.1 = .error (.mismatch e) ↔
      ∃ k < min, ∃ d, c.Matched k ∧ c.result k = .error (.mismatch d) ∧ e = d.within name := by
  constructor
  · intro he
    cases h with
    | @lacking k d hk hm hr => exact ⟨k, hk, d, hm, hr, by simpa using he.symm⟩
    | broken _ _ _ hf => exact absurd (Except.error.inj he) (hf e)
    | stopped => cases he
  · rintro ⟨k, hk, d, hm, hr, rfl⟩
    -- A chain has one first failure, and this is it.
    have hfirst {k' : Nat} {failure : ParseFailure} (hm' : c.Matched k')
        (hr' : c.result k' = .error failure) : failure = .mismatch d := by
      have heq : k' = k := by
        rcases Nat.lt_trichotomy k' k with hlt | heq | hlt
        · simp [hm k' hlt] at hr'
        · exact heq
        · simp [hm' k hlt] at hr
      rw [heq, hr] at hr'
      exact (Except.error.inj hr').symm
    cases h with
    | lacking _ hm' hr' =>
      obtain rfl := ParseFailure.mismatch.inj (hfirst hm' hr')
      rfl
    | broken hm' _ hr' hf => exact absurd (hfirst hm' hr') (hf d)
    | stopped hm' _ hs =>
      have hok := hm' k (Nat.lt_of_lt_of_le hk hs.1)
      rw [hr] at hok
      cases hok

theorem of_mismatch {d : Mismatch} (hr : c.result 0 = .error (.mismatch d)) :
    RepetitionEnds name 0 max c (.ok (), c.offset 0) :=
  .stopped c.matched_zero (by simp) ⟨Nat.le_refl 0, .inr (.inl ⟨d, hr⟩)⟩

theorem of_failure {failure : ParseFailure} (hmax : max ≠ some 0)
    (hr : c.result 0 = .error failure) (hf : ∀ d, failure ≠ .mismatch d) :
    RepetitionEnds name 0 max c (.error failure, c.offset 0) := by
  refine .broken c.matched_zero (fun i hi => ?_) hr hf
  rw [Nat.le_zero.mp hi]
  refine Chain.not_stops_zero hmax fun d hd => hf d ?_
  rw [hr] at hd
  exact Except.error.inj hd

/-- One more match in front, which in an unbounded repetition has to be for something. -/
theorem cons (hmax : max = max'.map (1 + ·)) (hr : c.result 0 = .ok ())
    (hmoved : max = none → c.offset 1 ≠ c.offset 0)
    (h : RepetitionEnds name 0 max' (c.drop 1) out) : RepetitionEnds name 0 max c out := by
  have hne : max ≠ some 0 := by
    rw [hmax]
    cases max' with
    | none => simp
    | some n => simp
  refine after (Chain.matched_one hr) (fun i hi => ?_) (Nat.zero_le 1) hmax
    (fun hn _ => hmoved hn) h
  rw [Nat.lt_one_iff.mp hi]
  exact Chain.not_stops_zero hne (by simp [hr])

end RepetitionEnds

variable {σ : Type}

namespace Parser

/-- The manager behind so many parses in place. -/
def again (p : Parser σ) (id : CursorId) (m : Manager σ) (k : Nat) : Manager σ :=
  (fun m => (p id m).2)^[k] m

def chain (p : Parser σ) (id : CursorId) (m : Manager σ) : Chain where
  result k := (p id (again p id m k)).1
  offset k := (again p id m k).cursors.offset? id

variable {p : Parser σ} {name : String} {id : CursorId} {m : Manager σ}

theorem again_add (j k : Nat) : again p id m (j + k) = again p id (again p id m j) k := by
  rw [Nat.add_comm]
  exact Function.iterate_add_apply _ k j m

theorem again_succ (k : Nat) :
    again p id m (k + 1) = (p id (again p id m k)).2 :=
  Function.iterate_succ_apply' _ k m

theorem chain_drop (j : Nat) : (chain p id m).drop j = chain p id (again p id m j) := by
  simp only [Chain.drop, chain, again_add]

/-- Required matches follow the chain to its first failure, or as far as they need. -/
theorem times_ends (p : Parser σ) (n : Nat) (id : CursorId) (m : Manager σ) :
    (∃ k < n, (chain p id m).Matched k ∧ ∃ failure, (chain p id m).result k = .error failure ∧
        ∀ name, times name p n id m = (.error (failure.within name), again p id m (k + 1))) ∨
      (chain p id m).Matched n ∧ ∀ name, times name p n id m = (.ok (), again p id m n) := by
  induction n generalizing m with
  | zero => exact .inr ⟨Chain.matched_zero _, fun _ => rfl⟩
  | succ n ih =>
    simp only [times]
    rcases hp : p id m with ⟨failure | _, m'⟩
    · refine .inl ⟨0, Nat.succ_pos n, Chain.matched_zero _, failure, ?_, fun _ => ?_⟩
      · exact congrArg Prod.fst hp
      · exact congrArg _ (congrArg Prod.snd hp).symm
    · have hfirst : (chain p id m).Matched 1 := Chain.matched_one (congrArg Prod.fst hp)
      obtain rfl : again p id m 1 = m' := congrArg Prod.snd hp
      dsimp only
      have hdrop : (chain p id m).drop 1 = chain p id (again p id m 1) := chain_drop 1
      rcases ih (again p id m 1) with ⟨k, hk, hm, failure, hr, ht⟩ | ⟨hm, ht⟩
      · rw [← hdrop] at hm hr
        refine .inl ⟨1 + k, by omega, hfirst.append hm, failure, hr, fun name => ?_⟩
        rw [ht name, Nat.add_assoc, again_add 1]
      · rw [← hdrop] at hm
        refine .inr ⟨Nat.add_comm 1 n ▸ hfirst.append hm, fun name => ?_⟩
        rw [ht name, Nat.add_comm n 1, again_add]

/-- A required match is lacking, or it is left to the optional ones to end the repetition. -/
theorem andThen_ends (name : String) (p : Parser σ) (min : Nat) (max : Option Nat)
    (optional : Parser σ) (id : CursorId) (m : Manager σ) :
    RepetitionEnds name min max (chain p id m)
        (ending ((times name p min).andThen optional) id m) ∨
      (chain p id m).Matched min ∧ ending ((times name p min).andThen optional) id m =
        ending optional id (again p id m min) := by
  rcases times_ends p min id m with ⟨k, hk, hm, failure, hr, ht⟩ | ⟨hm, ht⟩
  · left
    have hstops : ∀ i ≤ k, ¬ (chain p id m).Stops min max i := by
      intro i hi hs
      have hle : min ≤ i := hs.1
      omega
    have hout : ending ((times name p min).andThen optional) id m =
        (.error (failure.within name), (chain p id m).offset (k + 1)) := by
      simp only [ending, andThen, ht]
      rfl
    rw [hout]
    cases failure with
    | mismatch d => exact .lacking hk hm hr
    | source | unresolvedPlaceholder | tooDeep =>
      have hb : RepetitionEnds name min max _ _ := .broken hm hstops hr (by simp)
      rwa [if_pos hk] at hb
  · refine .inr ⟨hm, ?_⟩
    simp only [ending, andThen, ht]

/-- The optional matches end it as they would have ended alone behind the required ones. -/
theorem andThen_ends_of_optional {min : Nat} {max max' : Option Nat} {optional : Parser σ}
    (hmax : max = max'.map (min + ·))
    (h : RepetitionEnds name 0 max' (chain p id (again p id m min))
      (ending optional id (again p id m min))) :
    RepetitionEnds name min max (chain p id m)
      (ending ((times name p min).andThen optional) id m) := by
  rcases andThen_ends name p min max optional id m with hends | ⟨hm, hends⟩
  · exact hends
  · rw [hends]
    rw [← chain_drop] at h
    refine .after hm (fun i hi hs => ?_) (Nat.le_refl min) hmax (fun _ hlt => ?_) h
    · exact absurd hs.1 (Nat.not_le_of_lt hi)
    · exact absurd hlt (Nat.lt_irrefl min)

/-! ### Optional matches -/

variable [ByteSource σ] {q : Plan} {pos : Nat} {m' : Manager σ}

/-- Bounded, in a manager abreast of that of the chain. -/
theorem upTo_ends (name : String) (hq : q.GivesUp) (n : Nat)
    (h : Beside Manager.Abreast m id m' id pos) :
    RepetitionEnds name 0 (some n) (chain q.run id m) (ending (upTo q.run n) id m') := by
  induction n generalizing m m' pos with
  | zero =>
    have hstop : (chain q.run id m).Stops 0 (some 0) 0 := ⟨Nat.le_refl 0, .inl rfl⟩
    have hout : ending (upTo q.run 0) id m' = (.ok (), (chain q.run id m).offset 0) :=
      congrArg (Prod.mk _) (h.offset_eq'.trans h.offset_eq.symm)
    rw [hout]
    exact .stopped (Chain.matched_zero _) (by simp) hstop
  | succ n ih =>
    rcases Plan.attempt_cases Manager.lockstep_abreast hq h with
      ⟨after, n', hp, ha, -, hb⟩ | ⟨failure, after, n', hp, ha, -, ho, -⟩
    · have hout : ending (upTo q.run (n + 1)) id m' = ending (upTo q.run n) id n' := by
        simp only [ending, upTo, ha]
      have htail := ih hb
      rw [show (q.run id m).2 = again q.run id m 1 from rfl, ← chain_drop] at htail
      rw [hout, Nat.add_comm n 1]
      exact .cons rfl (congrArg Prod.fst hp) (by simp) htail
    · have hr : (chain q.run id m).result 0 = .error failure := congrArg Prod.fst hp
      have hpos : (chain q.run id m).offset 0 = some pos := h.offset_eq
      simp only [ending, upTo, ha]
      cases failure with
      | mismatch d =>
        dsimp only
        rw [ho, ← hpos]
        exact .of_mismatch hr
      | source | unresolvedPlaceholder | tooDeep =>
        dsimp only
        rw [ho, ← hpos]
        exact .of_failure (by simp) hr (by simp)

/-- Unbounded, unless the rounds are used up, each of which has brought the cursor forward. -/
theorem whileMatching_ends (name : String) (stalled : Event) (hq : q.GivesUp) (rounds : Nat)
    (h : Beside Manager.Abreast m id m' id pos) :
    RepetitionEnds name 0 none (chain q.run id m)
        (ending (whileMatching stalled q.run rounds) id m') ∨
      (chain q.run id m).Matched rounds ∧ ∃ pos', pos + rounds ≤ pos' ∧
        ending (whileMatching stalled q.run rounds) id m' = (.error .tooDeep, some pos') := by
  -- A round that gets further leaves the end to the rounds behind it, which begin where it got to.
  induction rounds generalizing m m' pos with
  | zero => exact .inr ⟨Chain.matched_zero _, pos, Nat.le_refl _, congrArg _ h.offset_eq'⟩
  | succ rounds ih =>
    have hpos : (chain q.run id m).offset 0 = some pos := h.offset_eq
    rcases Plan.attempt_cases Manager.lockstep_abreast hq h with
      ⟨after, n', hp, ha, hle, hb⟩ | ⟨failure, after, n', hp, ha, -, ho, -⟩
    · have hr : (chain q.run id m).result 0 = .ok () := congrArg Prod.fst hp
      have hafter : (chain q.run id m).offset 1 = some after := congrArg Prod.snd hp
      have hdrop : chain q.run id (q.run id m).2 = (chain q.run id m).drop 1 := (chain_drop 1).symm
      simp only [ending, whileMatching, Manager.offset, h.offset_eq', ha, hb.offset_eq']
      by_cases hlt : pos < after
      · simp only [hlt, if_true]
        rcases ih hb with htail | ⟨hm, pos', hle', hout⟩
        · rw [hdrop] at htail
          refine .inl (.cons rfl hr (fun _ he => ?_) htail)
          rw [hafter, hpos] at he
          exact absurd (Option.some.inj he) (Nat.ne_of_gt hlt)
        · rw [hdrop] at hm
          have hall := (Chain.matched_one hr).append hm
          rw [Nat.add_comm] at hall
          exact .inr ⟨hall, pos', by omega, hout⟩
      · simp only [hlt, if_false]
        obtain rfl : after = pos := by omega
        have hstop : (chain q.run id m).Stops 0 none 1 :=
          ⟨Nat.zero_le 1, .inr (.inr ⟨rfl, Nat.one_pos, hafter.trans hpos.symm⟩)⟩
        rw [show (n'.note stalled).cursors.offset? id = some after from hb.offset_eq', ← hafter]
        refine .inl (.stopped (Chain.matched_one hr) (fun i hi => ?_) hstop)
        rw [Nat.lt_one_iff.mp hi]
        exact Chain.not_stops_zero (by simp) (by simp [hr])
    · have hr : (chain q.run id m).result 0 = .error failure := congrArg Prod.fst hp
      left
      simp only [ending, whileMatching, Manager.offset, h.offset_eq', ha]
      cases failure with
      | mismatch d =>
        dsimp only
        rw [ho, ← hpos]
        exact .of_mismatch hr
      | source | unresolvedPlaceholder | tooDeep =>
        dsimp only
        rw [ho, ← hpos]
        exact .of_failure (by simp) hr (by simp)

/-! ### Along the chain -/

theorem exists_again (h : m.Valid) (ho : m.cursors.offset? id = some pos) (k : Nat) :
    ∃ pos', (again q.run id m k).Valid ∧ (again q.run id m k).cursors.offset? id = some pos' ∧
      pos ≤ pos' := by
  induction k with
  | zero => exact ⟨pos, h, ho, Nat.le_refl pos⟩
  | succ k ih =>
    obtain ⟨pos', hv, ho', hle⟩ := ih
    obtain ⟨pos'', hle', hs⟩ := q.shifts_run hv ho'
    rw [again_succ]
    exact ⟨pos'', hs.valid, hs.offset_self, Nat.le_trans hle hle'⟩

theorem meets_again {f : Feed} (h : Meets f m id pos) (hq : q.GivesUp) {k : Nat}
    (hm : (chain q.run id m).Matched k) : ∃ pos', Meets f (again q.run id m k) id pos' := by
  induction k with
  | zero => exact ⟨pos, h⟩
  | succ k ih =>
    obtain ⟨pos', hk⟩ := ih fun i hi => hm i (Nat.lt_succ_of_lt hi)
    have hr : (q.run id (again q.run id m k)).1 = .ok () := hm k (Nat.lt_succ_self k)
    rw [again_succ]
    exact hk.run hq (by simp [hr])

/-- A repetition that ends before its upper bound would have got no further: what it has tried
already ends in the same way again. -/
theorem ending_beyond {f : Feed} (h : Meets f m id pos) (hq : q.GivesUp) {min : Nat}
    {max : Option Nat} {after : Nat}
    (hends : RepetitionEnds name min max (chain q.run id m) (.ok (), some after)) {n : Manager σ}
    (hn : Meets f n id after) :
    (∃ k, max = some k ∧ (chain q.run id m).Matched k ∧ some after = (chain q.run id m).offset k) ∨
      (∃ d, (ending q.run id n).1 = .error (.mismatch d)) ∨
        ending q.run id n = (.ok (), some after) := by
  generalize hout : ((.ok (), some after) : Ending) = out at hends
  cases hends with
  | lacking | broken => cases hout
  | @stopped k hm _ hs =>
    have hafter : some after = (chain q.run id m).offset k := congrArg Prod.snd hout
    have hsame {j pos' : Nat} (hj : Meets f (again q.run id m j) id pos') (hpos : pos' = after) :
        ending q.run id n = ((chain q.run id m).result j, (chain q.run id m).offset (j + 1)) := by
      subst hpos
      rw [hn.ending_run_eq hj hq, ending]
      simp only [chain, again_succ]
    rcases hs.2 with hmax | ⟨d, hd⟩ | ⟨_, hlt, hstalled⟩
    · exact .inl ⟨k, hmax, hm, hafter⟩
    · obtain ⟨pos', hj⟩ := meets_again h hq hm
      have hpos : pos' = after := Option.some.inj (hj.offset_eq.symm.trans hafter.symm)
      refine .inr (.inl ⟨d, ?_⟩)
      rw [hsame hj hpos]
      exact hd
    · obtain ⟨j, rfl⟩ : ∃ j, k = j + 1 := ⟨k - 1, by omega⟩
      obtain ⟨pos', hj⟩ := meets_again h hq fun i hi => hm i (Nat.lt_succ_of_lt hi)
      rw [Nat.add_sub_cancel] at hstalled
      have hpos : pos' = after :=
        Option.some.inj (hj.offset_eq.symm.trans (hstalled.symm.trans hafter.symm))
      refine .inr (.inr ?_)
      rw [hsame hj hpos, hm j (Nat.lt_succ_self j)]

end Parser

/-! ### Repetitions of a grammar -/

namespace RuleGraph

variable [ByteSource σ] {g : RuleGraph} {r part : RuleId} {min : Nat} {max : Option Nat}

/-- As the chain of matches from its cursor on tells. Where there is no upper bound, the rounds may
be used up before that, if they are fewer than the bytes that there are. -/
theorem repetition_ends (hk : g.kind r = .repetition part min max)
    (hmax : ∀ n, max = some n → min ≤ n) (depth : Nat) {m : Manager σ} (h : m.Valid)
    {id : CursorId} {pos : Nat} (ho : m.cursors.offset? id = some pos) :
    let c := Parser.chain (g.parser depth part) id m
    let out := Parser.ending (g.parser (depth + 1) r) id m
    RepetitionEnds (g.name r) min max c out ∨
      max = none ∧ c.Matched (min + depth) ∧
        ∃ pos', pos + depth ≤ pos' ∧ out = (.error .tooDeep, some pos') := by
  intro c out
  have hq := g.givesUp_plan depth part
  have hrun : (g.plan depth part).run = (g.parser depth part : Parser σ) := g.run_plan depth part
  obtain ⟨pos', hv, ho', hle⟩ := Parser.exists_again (q := g.plan depth part) h ho min
  rw [hrun] at hv ho'
  -- All that is optional is done from where the required matches have led.
  have hbeside : Beside Manager.Abreast _ id _ id pos' := ⟨hv, hv, ho', ho', .refl _⟩
  cases max with
  | none =>
    have hwhile := Parser.whileMatching_ends (g.name r) (.stalled (g.name r) (g.name part)) hq depth
      hbeside
    rw [hrun] at hwhile
    simp only [out, parser, hk]
    rcases hwhile with hopt | ⟨hm', after, hle', hopt⟩
    · exact .inl (Parser.andThen_ends_of_optional rfl hopt)
    · rcases Parser.andThen_ends (g.name r) (g.parser depth part) min none _ id m with
        hends | ⟨hm, hends⟩
      · exact .inl hends
      · rw [← Parser.chain_drop] at hm'
        exact .inr ⟨trivial, hm.append hm', after, by omega, hends.trans hopt⟩
  | some n =>
    have hopt := Parser.upTo_ends (g.name r) hq (n - min) hbeside
    rw [hrun] at hopt
    have hmin : some n = (some (n - min)).map (min + ·) := by
      rw [Option.map_some, Nat.add_sub_cancel' (hmax n rfl)]
    simp only [out, parser, hk]
    exact .inl (Parser.andThen_ends_of_optional hmin hopt)

/-- The rounds that a parse allows are more than the bytes that it can come by. -/
theorem repetition_ends_of_parse {σ : Type} [FiniteSource σ]
    (hk : g.kind r = .repetition part min max) (hmax : ∀ n, max = some n → min ≤ n)
    {m : Manager σ} (h : m.Valid) {id : CursorId} {pos : Nat}
    (ho : m.cursors.offset? id = some pos) :
    ∃ depth, g.depthLimit m.available = depth + 1 ∧
      RepetitionEnds (g.name r) min max (Parser.chain (g.parser depth part) id m)
        (Parser.ending (g.parse r) id m) := by
  refine ⟨(m.available + 1) * (g.size + 1), rfl, ?_⟩
  rcases repetition_ends hk hmax ((m.available + 1) * (g.size + 1)) h ho with
    hends | ⟨_, _, pos', hle, hout⟩
  · exact hends
  · obtain ⟨steps, hsteps⟩ := g.exists_steps ((m.available + 1) * (g.size + 1) + 1) r id m
    have ho' := congrArg Prod.snd hout
    simp only [Parser.ending, hsteps] at ho'
    have hrounds : m.available + 1 ≤ (m.available + 1) * (g.size + 1) :=
      Nat.le_mul_of_pos_right _ (Nat.succ_pos _)
    have hcome := (Manager.valid_run h steps).offset_le ho'
    have hstream : (m.run steps).stream = m.stream := (Manager.outlook_run h steps).1
    obtain ⟨bs, hbs, _⟩ := (m.run steps).stream_eq_received
    have hlen := congrArg List.length hbs
    rw [hstream, List.length_append] at hlen
    have hall := Manager.length_stream_le h.toSound
    have hbase := h.le_offset ho
    omega

/-- It mismatches if a required match does, and if not, then never. -/
theorem repetition_mismatch_iff (hk : g.kind r = .repetition part min max)
    (hmax : ∀ n, max = some n → min ≤ n) (depth : Nat) {m : Manager σ} (h : m.Valid)
    {id : CursorId} {pos : Nat} (ho : m.cursors.offset? id = some pos) (e : Mismatch) :
    let c := Parser.chain (g.parser depth part) id m
    (g.parser (depth + 1) r id m).1 = .error (.mismatch e) ↔ ∃ k < min, ∃ d, c.Matched k ∧
      c.result k = .error (.mismatch d) ∧ e = d.within (g.name r) := by
  intro c
  rcases repetition_ends hk hmax depth h ho with hends | ⟨_, hall, _, _, hout⟩
  · exact hends.mismatch_iff e
  · rw [show (g.parser (depth + 1) r id m).1 = .error .tooDeep from congrArg Prod.fst hout]
    refine iff_of_false (by simp) ?_
    rintro ⟨k, hlt, d, _, hr, _⟩
    have hok : c.result k = .ok () := hall k (by omega)
    rw [hr] at hok
    cases hok

/-- Where it has stopped, either it has had all the matches that it may have, or one more would not
have matched or have been for nothing. -/
theorem repetition_beyond (hk : g.kind r = .repetition part min max)
    (hmax : ∀ n, max = some n → min ≤ n) (depth : Nat) {m : Manager σ} {f : Feed} {id : CursorId}
    {pos : Nat} (h : Meets f m id pos) (hok : (g.parser (depth + 1) r id m).1 = .ok ()) :
    let c := Parser.chain (g.parser depth part) id m
    let after := (g.parser (depth + 1) r id m).2.cursors.offset? id
    let next := Parser.ending (g.parser depth part) id (g.parser (depth + 1) r id m).2
    (∃ n, max = some n ∧ c.Matched n ∧ after = c.offset n) ∨
      (∃ d, next.1 = .error (.mismatch d)) ∨ next = (.ok (), after) := by
  intro c after next
  have hend : ∃ pos', Meets f (g.parser (depth + 1) r id m).2 id pos' := by
    rw [← g.run_plan]
    refine h.run (g.givesUp_plan (depth + 1) r) fun e he => ?_
    rw [g.run_plan, hok] at he
    cases he
  obtain ⟨pos', hend⟩ := hend
  have hafter : after = some pos' := hend.offset_eq
  have hout : Parser.ending (g.parser (depth + 1) r) id m = (.ok (), some pos') :=
    Prod.ext hok hafter
  rcases repetition_ends hk hmax depth h.valid h.offset_eq with hends | ⟨_, _, _, _, hdeep⟩
  · rw [hout, ← g.run_plan] at hends
    have hbeyond := Parser.ending_beyond h (g.givesUp_plan depth part) hends hend
    rwa [g.run_plan, ← hafter] at hbeyond
  · rw [hout] at hdeep
    cases hdeep

/-- A repetition, at any place that a run has brought a cursor to, against the chain of matches that
begins there.

It mismatches if and only if a required match does, with its error, so never if none is required.
Any other failure is passed on as it is, and otherwise it stops at the first number of matches that
is enough. Only one without an upper bound can do neither, and that has then gone on for as many
rounds as the depth allows. If it stops before its upper bound, the next match from there would not
have matched or have been for nothing.

The depth that a parse chooses allows for more rounds than there are bytes, so it always ends as the
chain tells. -/
theorem repetition_exact (hk : g.kind r = .repetition part min max)
    (hmax : ∀ n, max = some n → min ≤ n) (options : StreamOptions) (actions : List Action)
    {id : CursorId} {pos : Nat} :
    (∀ {σ : Type} [ByteSource σ] (source : σ) (depth : Nat),
      let m := (Manager.ofSource options source).perform actions
      let c := Parser.chain (g.parser depth part) id m
      let out := Parser.ending (g.parser (depth + 1) r) id m
      m.cursors.offset? id = some pos →
      (RepetitionEnds (g.name r) min max c out ∨
        max = none ∧ c.Matched (min + depth) ∧
          ∃ pos', pos + depth ≤ pos' ∧ out = (.error .tooDeep, some pos')) ∧
      (∀ e, out.1 = .error (.mismatch e) ↔ ∃ k < min, ∃ d, c.Matched k ∧
        c.result k = .error (.mismatch d) ∧ e = d.within (g.name r)) ∧
      (min = 0 → ∀ e, out.1 ≠ .error (.mismatch e)) ∧
      ∀ f, m.Offers f → out.1 = .ok () →
        let next := Parser.ending (g.parser depth part) id (g.parser (depth + 1) r id m).2
        (∃ n, max = some n ∧ c.Matched n ∧ out.2 = c.offset n) ∨
          (∃ d, next.1 = .error (.mismatch d)) ∨ next = (.ok (), out.2)) ∧
    ∀ {σ : Type} [FiniteSource σ] (source : σ),
      let m := (Manager.ofSource options source).perform actions
      m.cursors.offset? id = some pos →
      ∃ depth, g.depthLimit m.available = depth + 1 ∧
        RepetitionEnds (g.name r) min max (Parser.chain (g.parser depth part) id m)
          (Parser.ending (g.parse r) id m) := by
  have hvalid {σ : Type} [ByteSource σ] (source : σ) :
      ((Manager.ofSource options source).perform actions).Valid :=
    Manager.valid_perform (Manager.valid_ofSource options source) actions
  constructor
  · intro σ _ source depth m c out ho
    have hiff := repetition_mismatch_iff hk hmax depth (hvalid source) ho
    refine ⟨repetition_ends hk hmax depth (hvalid source) ho, hiff, fun hz e he => ?_,
      fun f hf hok => repetition_beyond hk hmax depth ⟨hvalid source, ho, hf⟩ hok⟩
    obtain ⟨k, hlt, _⟩ := (hiff e).mp he
    omega
  · intro σ _ source m ho
    exact repetition_ends_of_parse hk hmax (hvalid source) ho

/-- Up to two bytes at a time, and the last time none. -/
def runs : RuleGraph :=
  ⟨#[⟨"runs", .repetition 1 1 none⟩, ⟨"as", .repetition 2 0 (some 2)⟩, ⟨"a", .literal [97]⟩]⟩

/-- Three matches, the first of which is required and the last of which is for nothing. -/
theorem repetition_exact_runs :
    let source := Script.ofPieces [.chunk [122, 97, 97], .chunk [97, 98]]
    let m := (Manager.ofSource {} source).perform [.step (.branch 0), .step (.read 1 1)]
    let p : Parser Script := runs.parser 3 1
    let out := Parser.ending (runs.parser 4 0) 1 m
    m.cursors.offset? 1 = some 1 ∧ runs.kind 0 = .repetition 1 1 none ∧
    RepetitionEnds "runs" 1 none (Parser.chain p 1 m) out ∧
    (List.range 4).map (Parser.chain p 1 m).offset = [some 1, some 3, some 4, some 4] ∧
    out = (.ok (), some 4) ∧
    Parser.ending p 1 (runs.parser 4 0 1 m).2 = (.ok (), some 4) ∧
    ∃ depth, runs.depthLimit m.available = depth + 1 ∧
      RepetitionEnds "runs" 1 none (Parser.chain (runs.parser depth 1) 1 m)
        (Parser.ending (runs.parse 0) 1 m) := by
  intro source m p out
  have ho : m.cursors.offset? 1 = some 1 := by decide +kernel
  have hout : out = (.ok (), some 4) := by decide +kernel
  have hk : runs.kind 0 = .repetition 1 1 none := by decide
  obtain ⟨hany, hparse⟩ :=
    repetition_exact hk (by simp) {} [.step (.branch 0), .step (.read 1 1)]
  refine ⟨ho, hk, ?_, by decide +kernel, hout, by decide +kernel, hparse source ho⟩
  rcases (hany source 3 ho).1 with hends | ⟨_, _, _, _, hdeep⟩
  · exact hends
  · rw [show Parser.ending (runs.parser 4 0) 1 m = (.ok (), some 4) from hout] at hdeep
    cases hdeep

end RuleGraph

end StreamPeg
