import StreamPeg.Parse.Rule
import StreamPeg.Proofs.Positions

/-!
# How deep a match goes

A failure that is no mismatch passes through every rule, so it has come from a part of the rule that
it ends (`exists_cause`), and from one that can be tried first if nothing had been consumed before.
Where such steps can be numbered downwards, as they can without left recursion, a depth that counts
ranks and bytes is therefore never exhausted (`Ranked.matcher_settles`), and more depth than that
changes nothing (`matcher_extends`).
-/

namespace StreamPeg

theorem ParseFailure.eq_of_within {e f : ParseFailure} {name : String}
    (he : ∀ d, e ≠ .mismatch d) (h : f.within name = e) : f = e := by
  cases f with
  | mismatch d => exact absurd h.symm (he _)
  | source | unresolvedPlaceholder | tooDeep => exact h

namespace Matcher

variable {size : Nat} {name : String} {α : Type} {e : ParseFailure} {pos : Nat}

/-! ### Where a failure comes from -/

theorem sequence_cause {q : α → Matcher} (hq : ∀ a, (q a).Advances size)
    (he : ∀ d, e ≠ .mismatch d) {parts : List α}
    (h : (sequence name (parts.map q) pos).1 = .error e) :
    ∃ before a after pos', parts = before ++ a :: after ∧ Onward size pos pos' ∧
      (q a pos').1 = .error e ∧ (pos' = pos → ∀ b ∈ before, q b pos = (.ok (), pos)) := by
  induction parts generalizing pos with
  | nil => cases h
  | cons a parts ih =>
    have ha := hq a pos
    simp only [List.map_cons, sequence] at h
    rcases hqa : q a pos with ⟨f | _, pos₁⟩
    · simp only [hqa] at h
      have hf := ParseFailure.eq_of_within he (Except.error.inj h)
      exact ⟨[], a, parts, pos, rfl, .refl _ _, by rw [hqa, hf],
        fun _ b hb => absurd hb List.not_mem_nil⟩
    · simp only [hqa] at h ha
      obtain ⟨before, b, after, pos', rfl, hon, hb, hstay⟩ := ih h
      refine ⟨a :: before, b, after, pos', rfl, ha.trans hon, hb, fun hp => ?_⟩
      obtain rfl : pos₁ = pos := Nat.le_antisymm (hp ▸ hon.le) ha.le
      rw [List.forall_mem_cons]
      exact ⟨hqa, hstay hp⟩

theorem choiceFrom_cause {q : α → Matcher} (he : ∀ d, e ≠ .mismatch d) {deepest : Option Mismatch}
    {alternatives : List α}
    (h : (choiceFrom name deepest (alternatives.map q) pos).1 = .error e) :
    ∃ a ∈ alternatives, (q a pos).1 = .error e := by
  induction alternatives generalizing deepest with
  | nil => cases deepest <;> exact absurd (Except.error.inj h).symm (he _)
  | cons a alternatives ih =>
    simp only [List.map_cons, choiceFrom] at h
    rcases hqa : q a pos with ⟨f | _, pos'⟩
    · simp only [hqa] at h
      cases f with
      | mismatch d =>
        obtain ⟨b, hb, hqb⟩ := ih h
        exact ⟨b, List.mem_cons_of_mem a hb, hqb⟩
      | source | unresolvedPlaceholder | tooDeep =>
        exact ⟨a, List.mem_cons_self, by rw [hqa, ← h]⟩
    · simp only [hqa] at h
      cases h

theorem times_cause {q : Matcher} (hq : q.Advances size) (he : ∀ d, e ≠ .mismatch d) {n : Nat}
    (h : (times name q n pos).1 = .error e) :
    ∃ pos', Onward size pos pos' ∧ (q pos').1 = .error e := by
  rw [times_eq_sequence] at h
  obtain ⟨_, _, _, pos', _, hon, hq', _⟩ := sequence_cause (fun _ => hq) he h
  exact ⟨pos', hon, hq'⟩

theorem upTo_cause {q : Matcher} (hq : q.Advances size) {n : Nat}
    (h : (upTo q n pos).1 = .error e) :
    ∃ pos', Onward size pos pos' ∧ (q pos').1 = .error e := by
  induction n generalizing pos with
  | zero => cases h
  | succ n ih =>
    have ha := hq pos
    simp only [upTo] at h
    rcases hqp : q pos with ⟨f | _, pos₁⟩
    · simp only [hqp] at h
      cases f with
      | mismatch d => cases h
      | source | unresolvedPlaceholder | tooDeep => exact ⟨pos, .refl _ _, by rw [hqp, ← h]⟩
    · simp only [hqp] at h ha
      obtain ⟨pos', hon, hq'⟩ := ih h
      exact ⟨pos', ha.trans hon, hq'⟩

/-- Every round consumes something, so a repetition is only given up when there is more to consume
than there are rounds. -/
theorem whileMatching_cause {q : Matcher} (hq : q.Advances size) {rounds : Nat}
    (h : (whileMatching q rounds pos).1 = .error e) :
    (∃ pos', Onward size pos pos' ∧ (q pos').1 = .error e) ∨
      e = .tooDeep ∧ rounds ≤ size - pos := by
  induction rounds generalizing pos with
  | zero => exact .inr ⟨(Except.error.inj h).symm, Nat.zero_le _⟩
  | succ rounds ih =>
    have ha := hq pos
    simp only [whileMatching] at h
    rcases hqp : q pos with ⟨f | _, pos₁⟩
    · simp only [hqp] at h
      cases f with
      | mismatch d => cases h
      | source | unresolvedPlaceholder | tooDeep => exact .inl ⟨pos, .refl _ _, by rw [hqp, ← h]⟩
    · simp only [hqp] at h ha
      split at h
      · next hlt =>
        rcases ih h with ⟨pos', hon, hq'⟩ | ⟨he, hle⟩
        · exact .inl ⟨pos', ha.trans hon, hq'⟩
        · have := ha.left_lt (Nat.ne_of_gt hlt)
          exact .inr ⟨he, by omega⟩
      · cases h

theorem rest_cause {q : Matcher} (hq : q.Advances size) {rounds min : Nat} {max : Option Nat}
    (h : (rest q rounds min max pos).1 = .error e) :
    (∃ pos', Onward size pos pos' ∧ (q pos').1 = .error e) ∨
      e = .tooDeep ∧ rounds ≤ size - pos := by
  cases max with
  | none => exact whileMatching_cause hq h
  | some max => exact .inl (upTo_cause hq h)

theorem andThen_cause {q q' : Matcher} (h : (andThen q q' pos).1 = .error e) :
    (q pos).1 = .error e ∨ ∃ pos', q pos = (.ok (), pos') ∧ (q' pos').1 = .error e := by
  simp only [andThen] at h
  rcases hqp : q pos with ⟨_ | _, pos'⟩
  · simp only [hqp] at h
    exact .inl h
  · simp only [hqp] at h
    exact .inr ⟨pos', rfl, h⟩

/-! ### More depth -/

/-- Where the one is not given up as too deep, the other does the same. -/
def Extends (q q' : Matcher) : Prop := ∀ pos, (q pos).1 ≠ .error .tooDeep → q' pos = q pos

theorem Extends.refl (q : Matcher) : q.Extends q := fun _ _ => rfl

theorem extends_sequence {q q' : α → Matcher} (h : ∀ a, (q a).Extends (q' a)) (parts : List α) :
    (sequence name (parts.map q)).Extends (sequence name (parts.map q')) := by
  intro pos hne
  induction parts generalizing pos with
  | nil => rfl
  | cons a parts ih =>
    have ha := h a pos
    simp only [List.map_cons, sequence] at hne ⊢
    rcases hqa : q a pos with ⟨e | _, pos'⟩
    · simp only [hqa] at ha hne ⊢
      rw [ha]
      intro h
      cases h
      exact hne rfl
    · simp only [hqa] at ha hne ⊢
      rw [ha (by simp)]
      exact ih pos' hne

theorem extends_choiceFrom {q q' : α → Matcher} (h : ∀ a, (q a).Extends (q' a))
    (deepest : Option Mismatch) (alternatives : List α) :
    (choiceFrom name deepest (alternatives.map q)).Extends
      (choiceFrom name deepest (alternatives.map q')) := by
  intro pos hne
  induction alternatives generalizing deepest with
  | nil => rfl
  | cons a alternatives ih =>
    have ha := h a pos
    simp only [List.map_cons, choiceFrom] at hne ⊢
    rcases hqa : q a pos with ⟨e | _, pos'⟩
    · cases e with
      | mismatch d =>
        simp only [hqa] at ha hne ⊢
        rw [ha (by simp)]
        exact ih _ hne
      | source e =>
        simp only [hqa] at ha ⊢
        rw [ha (by simp)]
      | unresolvedPlaceholder n =>
        simp only [hqa] at ha ⊢
        rw [ha (by simp)]
      | tooDeep =>
        simp only [hqa] at hne
        exact absurd rfl hne
    · simp only [hqa] at ha ⊢
      rw [ha (by simp)]

theorem extends_times {q q' : Matcher} (h : q.Extends q') (n : Nat) :
    (times name q n).Extends (times name q' n) := by
  rw [times_eq_sequence, times_eq_sequence]
  exact extends_sequence (fun _ => h) _

theorem extends_upTo {q q' : Matcher} (h : q.Extends q') (n : Nat) :
    (upTo q n).Extends (upTo q' n) := by
  intro pos hne
  induction n generalizing pos with
  | zero => rfl
  | succ n ih =>
    have ha := h pos
    simp only [upTo] at hne ⊢
    rcases hqp : q pos with ⟨e | _, pos'⟩
    · cases e with
      | mismatch | source | unresolvedPlaceholder =>
        simp only [hqp] at ha ⊢
        rw [ha (by simp)]
      | tooDeep =>
        simp only [hqp] at hne
        exact absurd rfl hne
    · simp only [hqp] at ha hne ⊢
      rw [ha (by simp)]
      exact ih pos' hne

theorem extends_whileMatching {q q' : Matcher} (h : q.Extends q') {rounds rounds' : Nat}
    (hr : rounds ≤ rounds') : (whileMatching q rounds).Extends (whileMatching q' rounds') := by
  intro pos hne
  induction rounds generalizing rounds' pos with
  | zero => exact absurd rfl hne
  | succ rounds ih =>
    obtain ⟨rounds', rfl⟩ : ∃ k, rounds' = k + 1 := ⟨rounds' - 1, by omega⟩
    have ha := h pos
    simp only [whileMatching] at hne ⊢
    rcases hqp : q pos with ⟨e | _, pos'⟩
    · cases e with
      | mismatch | source | unresolvedPlaceholder =>
        simp only [hqp] at ha ⊢
        rw [ha (by simp)]
      | tooDeep =>
        simp only [hqp] at hne
        exact absurd rfl hne
    · simp only [hqp] at ha hne ⊢
      rw [ha (by simp)]
      by_cases hlt : pos < pos'
      · simp only [hlt, if_true] at hne ⊢
        exact ih (Nat.le_of_succ_le_succ hr) pos' hne
      · simp only [hlt, if_false]

theorem extends_rest {q q' : Matcher} (h : q.Extends q') {rounds rounds' : Nat}
    (hr : rounds ≤ rounds') (min : Nat) (max : Option Nat) :
    (rest q rounds min max).Extends (rest q' rounds' min max) := by
  cases max with
  | none => exact extends_whileMatching h hr
  | some max => exact extends_upTo h (max - min)

theorem extends_andThen {p p' q q' : Matcher} (hp : p.Extends p') (hq : q.Extends q') :
    (andThen p q).Extends (andThen p' q') := by
  intro pos hne
  have ha := hp pos
  simp only [andThen] at hne ⊢
  rcases hpp : p pos with ⟨e | _, pos'⟩
  · simp only [hpp] at ha hne ⊢
    rw [ha hne]
  · simp only [hpp] at ha hne ⊢
    rw [ha (by simp)]
    exact hq pos' hne

end Matcher

namespace RuleGraph

variable {g : RuleGraph} {data : List UInt8}

/-! ### What a rule tries first -/

/-- Rules that match without consuming anything, on some data and somewhere in it. -/
def CanStay (g : RuleGraph) (r : RuleId) : Prop :=
  ∃ data depth pos, g.matcher data depth r pos = (.ok (), pos)

/-- What a rule can come to before anything has been consumed: as a left part, but in a sequence
only behind rules that can indeed stay where they are. -/
inductive TriedFirst (g : RuleGraph) : RuleId → RuleId → Prop where
  | sequence {r p : RuleId} {before after : List RuleId} :
      g.kind r = .sequence (before ++ p :: after) → (∀ q ∈ before, g.CanStay q) → TriedFirst g r p
  | choice {r p : RuleId} {alternatives : List RuleId} : g.kind r = .choice alternatives →
      p ∈ alternatives → TriedFirst g r p
  | repeated {r p : RuleId} {min : Nat} {max : Option Nat} : g.kind r = .repetition p min max →
      TriedFirst g r p
  | target {r p : RuleId} : g.kind r = .placeholder (some p) → TriedFirst g r p

theorem TriedFirst.leftPart {r p : RuleId} (h : g.TriedFirst r p) : g.LeftPart r p := by
  cases h with
  | sequence hk hs =>
    refine .sequence hk fun q hq => ?_
    obtain ⟨_, _, _, hm⟩ := hs q hq
    exact nullable_of_stays hm
  | choice hk hp => exact .choice hk hp
  | repeated hk => exact .repeated hk
  | target hk => exact .target hk

/-- What ends a rule other than a mismatch is its own only if it is an unbound placeholder, or if
it is given up as too deep; else it is that of a rule it uses. -/
theorem exists_cause {depth : Nat} {r : RuleId} {pos : Nat} {e : ParseFailure}
    (he : ∀ d, e ≠ .mismatch d) (h : (g.matcher data (depth + 1) r pos).1 = .error e) :
    (∃ p pos', g.Uses r p ∧ Onward data.length pos pos' ∧ (pos' = pos → g.TriedFirst r p) ∧
        (g.matcher data depth p pos').1 = .error e) ∨
      e = .tooDeep ∧ r < g.size ∧ depth ≤ data.length - pos ∨
      e = .unresolvedPlaceholder (g.ownName r) ∧ g.kind r = .placeholder none := by
  have hon := g.matcher_onward data depth
  cases hk : g.kind r with
  | literal bytes =>
    simp only [matcher, hk, Matcher.literal] at h
    split at h
    · cases h
    · exact absurd (Except.error.inj h).symm (he _)
    · exact absurd (Except.error.inj h).symm (he _)
  | sequence parts =>
    simp only [matcher, hk] at h
    obtain ⟨before, p, after, pos', rfl, hp, hm, hstay⟩ := Matcher.sequence_cause hon he h
    refine .inl ⟨p, pos', .inl (by simp [hk, RuleKind.parts]), hp, fun heq => ?_, hm⟩
    exact .sequence hk fun q hq => ⟨data, depth, pos, hstay heq q hq⟩
  | choice alternatives =>
    simp only [matcher, hk] at h
    obtain ⟨p, hp, hm⟩ := Matcher.choiceFrom_cause he h
    have hl : g.TriedFirst r p := .choice hk hp
    exact .inl ⟨p, pos, hl.leftPart.uses, .refl _ _, fun _ => hl, hm⟩
  | repetition part min max =>
    have hl : g.TriedFirst r part := .repeated hk
    have hu := hl.leftPart.uses
    rw [matcher_repetition hk] at h
    rcases Matcher.andThen_cause h with h | ⟨pos₁, h₁, h⟩
    · obtain ⟨pos', hp, hm⟩ := Matcher.times_cause (hon part) he h
      exact .inl ⟨part, pos', hu, hp, fun _ => hl, hm⟩
    · have hp₁ : Onward data.length pos
          (Matcher.times (g.name r) (g.matcher data depth part) min pos).2 :=
        Matcher.advances_times (hon part) min pos
      rw [h₁] at hp₁
      rcases Matcher.rest_cause (hon part) h with ⟨pos', hp, hm⟩ | ⟨rfl, hle⟩
      · exact .inl ⟨part, pos', hu, hp₁.trans hp, fun _ => hl, hm⟩
      · exact .inr (.inl ⟨rfl, hl.leftPart.lt_size, Nat.le_trans hle hp₁.left_le⟩)
  | placeholder target =>
    cases target with
    | none =>
      simp only [matcher, hk] at h
      exact .inr (.inr ⟨(Except.error.inj h).symm, rfl⟩)
    | some p =>
      simp only [matcher, hk] at h
      have hl : g.TriedFirst r p := .target hk
      exact .inl ⟨p, pos, hl.leftPart.uses, .refl _ _, fun _ => hl, h⟩

/-- There is no source that could fail. -/
theorem matcher_ne_source (g : RuleGraph) (data : List UInt8) (depth : Nat) (r : RuleId) (pos : Nat)
    (e : StreamError) : (g.matcher data depth r pos).1 ≠ .error (.source e) := by
  induction depth generalizing r pos with
  | zero => exact nofun
  | succ depth ih =>
    intro h
    rcases exists_cause (e := .source e) nofun h with ⟨p, pos', _, _, _, hm⟩ | ⟨he, _⟩ | ⟨he, _⟩
    · exact ih p pos' hm
    · cases he
    · cases he

/-- More depth is of no use where it was enough. -/
theorem matcher_extends (g : RuleGraph) (data : List UInt8) {depth depth' : Nat}
    (hd : depth ≤ depth') (r : RuleId) :
    (g.matcher data depth r).Extends (g.matcher data depth' r) := by
  induction depth generalizing depth' r with
  | zero => exact fun pos hne => absurd rfl hne
  | succ depth ih =>
    obtain ⟨depth', rfl⟩ : ∃ k, depth' = k + 1 := ⟨depth' - 1, by omega⟩
    have hd := Nat.le_of_succ_le_succ hd
    cases hk : g.kind r with
    | literal bytes =>
      simp only [matcher, hk]
      exact .refl _
    | sequence parts =>
      simp only [matcher, hk]
      exact Matcher.extends_sequence (ih hd) parts
    | choice alternatives =>
      simp only [matcher, hk]
      exact Matcher.extends_choiceFrom (ih hd) none alternatives
    | repetition part min max =>
      rw [matcher_repetition hk, matcher_repetition hk]
      exact Matcher.extends_andThen (Matcher.extends_times (ih hd part) min)
        (Matcher.extends_rest (ih hd part) hd min max)
    | placeholder target =>
      cases target with
      | none =>
        simp only [matcher, hk]
        exact .refl _
      | some target =>
        simp only [matcher, hk]
        exact ih hd target

theorem depthLimit_mono (g : RuleGraph) {n n' : Nat} (h : n ≤ n') :
    g.depthLimit n ≤ g.depthLimit n' :=
  Nat.succ_le_succ (Nat.mul_le_mul_right (g.size + 1) (Nat.succ_le_succ h))

/-! ### Sufficient depth -/

/-- A numbering, by no more numbers than there are rules, that falls wherever a rule that `r` leads
to comes to another one before anything has been consumed. -/
structure Ranked (g : RuleGraph) (r : RuleId) (rank : RuleId → Nat) : Prop where
  falls : ∀ {s p}, g.Reaches r s → g.TriedFirst s p → rank p < rank s
  le_size : ∀ s, rank s ≤ g.size
  pos : ∀ {s}, s < g.size → 0 < rank s

theorem NonLeftRecursive.ranked {r : RuleId} (h : g.NonLeftRecursive r) :
    g.Ranked r g.leftRank where
  falls hs hp := leftRank_lt hp.leftPart (h _ hs)
  le_size := g.leftRank_le_size
  pos := leftRank_pos

namespace Ranked

variable {r : RuleId} {rank : RuleId → Nat}

/-- What is tried first has a smaller rank, and a byte that is consumed outweighs all ranks. -/
theorem matcher_settles (hr : g.Ranked r rank) {depth : Nat} {s : RuleId} (hs : g.Reaches r s)
    {pos : Nat} (hd : rank s + (data.length - pos) * (g.size + 1) < depth) :
    (g.matcher data depth s pos).1 ≠ .error .tooDeep := by
  induction depth generalizing s pos with
  | zero => exact absurd hd (Nat.not_lt_zero _)
  | succ depth ih =>
    intro h
    rcases exists_cause (e := .tooDeep) nofun h with
      ⟨p, pos', hu, hon, hl, hm⟩ | ⟨_, hlt, hle⟩ | ⟨he, _⟩
    · refine ih (hs.tail hu) ?_ hm
      by_cases hp : pos' = pos
      · have hrank := hr.falls hs (hl hp)
        rw [hp]
        omega
      · have hrank := hr.le_size p
        have hleft := Nat.mul_le_mul_right (g.size + 1) (hon.left_lt hp)
        rw [Nat.succ_mul] at hleft
        omega
    · have hrank := hr.pos hlt
      have hleft : data.length - pos ≤ (data.length - pos) * (g.size + 1) :=
        Nat.le_mul_of_pos_right _ (Nat.succ_pos g.size)
      omega
    · cases he

theorem matcher_ne_tooDeep (hr : g.Ranked r rank) {pos depth : Nat}
    (hd : g.depthLimit (data.length - pos) ≤ depth) :
    (g.matcher data depth r pos).1 ≠ .error .tooDeep := by
  refine hr.matcher_settles .refl (Nat.lt_of_lt_of_le ?_ hd)
  have hrank := hr.le_size r
  rw [depthLimit, Nat.succ_mul]
  omega

end Ranked

theorem matcher_ne_tooDeep {r : RuleId} (hr : g.NonLeftRecursive r) {pos depth : Nat}
    (hd : g.depthLimit (data.length - pos) ≤ depth) :
    (g.matcher data depth r pos).1 ≠ .error .tooDeep :=
  hr.ranked.matcher_ne_tooDeep hd

/-- The depth that `depthLimit` allows for what is left of the data is as good as any greater. -/
theorem matcher_eq {r : RuleId} (hr : g.NonLeftRecursive r) {pos depth depth' : Nat}
    (hd : g.depthLimit (data.length - pos) ≤ depth)
    (hd' : g.depthLimit (data.length - pos) ≤ depth') :
    g.matcher data depth r pos = g.matcher data depth' r pos := by
  have hne := matcher_ne_tooDeep hr (Nat.le_refl (g.depthLimit (data.length - pos)))
  rw [g.matcher_extends data hd r pos hne, g.matcher_extends data hd' r pos hne]

end RuleGraph

end StreamPeg
