import StreamPeg.Proofs.LeftRecursion
import StreamPeg.Proofs.Literal

/-!
# Where a match ends

A matcher never goes back and never beyond the data (`matcher_onward`), and a rule that has matched
without leaving its place is nullable (`nullable_of_stays`). Both go through the combinators one by
one.
-/

namespace StreamPeg

/-- From a position one may go on up to the end of the data. -/
structure Onward (size pos pos' : Nat) : Prop where
  le : pos ≤ pos'
  le_max : pos' ≤ max pos size

namespace Onward

variable {size pos pos' pos'' : Nat}

theorem refl (size pos : Nat) : Onward size pos pos := ⟨Nat.le_refl pos, Nat.le_max_left _ _⟩

theorem trans (h : Onward size pos pos') (h' : Onward size pos' pos'') : Onward size pos pos'' :=
  ⟨Nat.le_trans h.le h'.le, by have := h.le; have := h.le_max; have := h'.le_max; omega⟩

/-- What consumes something consumes data. -/
theorem left_lt (h : Onward size pos pos') (hne : pos' ≠ pos) : size - pos' < size - pos := by
  have := h.le
  have := h.le_max
  omega

theorem left_le (h : Onward size pos pos') : size - pos' ≤ size - pos := by
  have := h.le
  omega

end Onward

namespace Matcher

variable {size : Nat} {name : String} {α : Type}

def Advances (size : Nat) (q : Matcher) : Prop := ∀ pos, Onward size pos (q pos).2

theorem literal_snd (data : List UInt8) (name : String) (bytes : List UInt8) (pos : Nat) :
    (literal data name bytes pos).2 = pos + ((data.drop pos).take bytes.length).length := by
  unfold literal
  dsimp only
  split <;> rfl

theorem advances_literal (data : List UInt8) (bytes : List UInt8) :
    (literal data name bytes).Advances data.length := by
  intro pos
  rw [literal_snd, List.length_take, List.length_drop]
  constructor <;> omega

theorem advances_sequence {q : α → Matcher} (hq : ∀ a, (q a).Advances size) (parts : List α) :
    (sequence name (parts.map q)).Advances size := by
  intro pos
  induction parts generalizing pos with
  | nil => exact .refl size pos
  | cons a parts ih =>
    have ha := hq a pos
    simp only [List.map_cons, sequence]
    revert ha
    rcases q a pos with ⟨_ | _, pos'⟩ <;> intro ha
    · exact ha
    · exact ha.trans (ih pos')

theorem advances_choiceFrom {q : α → Matcher} (hq : ∀ a, (q a).Advances size)
    (deepest : Option Mismatch) (alternatives : List α) :
    (choiceFrom name deepest (alternatives.map q)).Advances size := by
  intro pos
  induction alternatives generalizing deepest with
  | nil => cases deepest <;> exact .refl size pos
  | cons a alternatives ih =>
    have ha := hq a pos
    simp only [List.map_cons, choiceFrom]
    revert ha
    rcases q a pos with ⟨_ | _, pos'⟩ <;> intro ha
    · next e =>
      cases e with
      | mismatch d => exact ih _
      | source | unresolvedPlaceholder | tooDeep => exact .refl size pos
    · exact ha

theorem advances_times {q : Matcher} (hq : q.Advances size) (n : Nat) :
    (times name q n).Advances size := by
  rw [times_eq_sequence]
  exact advances_sequence (fun _ => hq) _

theorem advances_upTo {q : Matcher} (hq : q.Advances size) (n : Nat) :
    (upTo q n).Advances size := by
  intro pos
  induction n generalizing pos with
  | zero => exact .refl size pos
  | succ n ih =>
    have ha := hq pos
    simp only [upTo]
    revert ha
    rcases q pos with ⟨_ | _, pos'⟩ <;> intro ha
    · next e => cases e <;> exact .refl size pos
    · exact ha.trans (ih pos')

theorem advances_whileMatching {q : Matcher} (hq : q.Advances size) (rounds : Nat) :
    (whileMatching q rounds).Advances size := by
  intro pos
  induction rounds generalizing pos with
  | zero => exact .refl size pos
  | succ rounds ih =>
    have ha := hq pos
    simp only [whileMatching]
    revert ha
    rcases q pos with ⟨_ | _, pos'⟩ <;> intro ha
    · next e => cases e <;> exact .refl size pos
    · dsimp only
      split
      · exact ha.trans (ih pos')
      · exact ha

/-- What comes behind the required part of a repetition. -/
def rest (q : Matcher) (rounds min : Nat) : Option Nat → Matcher
  | none => whileMatching q rounds
  | some max => upTo q (max - min)

theorem advances_rest {q : Matcher} (hq : q.Advances size) (rounds min : Nat) (max : Option Nat) :
    (rest q rounds min max).Advances size := by
  cases max with
  | none => exact advances_whileMatching hq rounds
  | some max => exact advances_upTo hq (max - min)

theorem advances_andThen {q q' : Matcher} (hq : q.Advances size) (hq' : q'.Advances size) :
    (andThen q q').Advances size := by
  intro pos
  have ha := hq pos
  simp only [andThen]
  revert ha
  rcases q pos with ⟨_ | _, pos'⟩ <;> intro ha
  · exact ha
  · exact ha.trans (hq' pos')

/-! ### Matches that consume nothing -/

theorem literal_of_stays {data bytes : List UInt8} {pos : Nat}
    (h : literal data name bytes pos = (.ok (), pos)) : bytes = [] := by
  have hnil : (data.drop pos).take bytes.length = [] := by
    have hs := congrArg Prod.snd h
    rw [literal_snd] at hs
    exact List.eq_nil_of_length_eq_zero (by simpa using hs)
  cases bytes with
  | nil => rfl
  | cons b bytes =>
    have he : literal data name ([] ++ b :: bytes) pos = _ :=
      literal_of_end (List.cons_ne_nil b bytes) hnil
    cases he.symm.trans h

theorem sequence_of_stays {q : α → Matcher} (hq : ∀ a, (q a).Advances size) {parts : List α}
    {pos : Nat} (h : sequence name (parts.map q) pos = (.ok (), pos)) :
    ∀ a ∈ parts, q a pos = (.ok (), pos) := by
  induction parts with
  | nil => exact nofun
  | cons a parts ih =>
    have ha := hq a pos
    simp only [List.map_cons, sequence] at h
    rcases hqa : q a pos with ⟨_ | _, pos'⟩
    · simp only [hqa] at h
      cases h
    · simp only [hqa] at h ha
      have hrest : Onward size pos' (sequence name (parts.map q) pos').2 :=
        advances_sequence hq parts pos'
      rw [h] at hrest
      obtain rfl := Nat.le_antisymm hrest.le ha.le
      rw [List.forall_mem_cons]
      exact ⟨hqa, ih h⟩

theorem choiceFrom_of_ok {q : α → Matcher} {deepest : Option Mismatch} {alternatives : List α}
    {pos pos' : Nat} (h : choiceFrom name deepest (alternatives.map q) pos = (.ok (), pos')) :
    ∃ a ∈ alternatives, q a pos = (.ok (), pos') := by
  induction alternatives generalizing deepest with
  | nil => cases deepest <;> cases h
  | cons a alternatives ih =>
    simp only [List.map_cons, choiceFrom] at h
    rcases hqa : q a pos with ⟨e | _, _⟩
    · simp only [hqa] at h
      cases e with
      | mismatch d =>
        obtain ⟨b, hb, hqb⟩ := ih h
        exact ⟨b, List.mem_cons_of_mem a hb, hqb⟩
      | source | unresolvedPlaceholder | tooDeep => cases h
    · simp only [hqa] at h
      exact ⟨a, List.mem_cons_self, hqa.trans h⟩

theorem andThen_of_stays {q q' : Matcher} (hq : q.Advances size) (hq' : q'.Advances size)
    {pos : Nat} (h : andThen q q' pos = (.ok (), pos)) : q pos = (.ok (), pos) := by
  have ha := hq pos
  simp only [andThen] at h
  rcases hqp : q pos with ⟨_ | _, pos'⟩
  · simp only [hqp] at h
    cases h
  · simp only [hqp] at h ha
    have hrest := hq' pos'
    rw [h] at hrest
    obtain rfl := Nat.le_antisymm hrest.le ha.le
    rfl

theorem times_of_stays {q : Matcher} (hq : q.Advances size) {n pos : Nat}
    (h : times name q (n + 1) pos = (.ok (), pos)) : q pos = (.ok (), pos) := by
  rw [times_eq_sequence] at h
  exact sequence_of_stays (fun _ => hq) h () List.mem_cons_self

end Matcher

/-! ### Rules -/

namespace RuleGraph

theorem matcher_repetition {g : RuleGraph} {r part : RuleId} {min : Nat} {max : Option Nat}
    (hk : g.kind r = .repetition part min max) (data : List UInt8) (depth : Nat) :
    g.matcher data (depth + 1) r =
      (Matcher.times (g.name r) (g.matcher data depth part) min).andThen
        (.rest (g.matcher data depth part) depth min max) := by
  cases max <;> simp only [matcher, hk, Matcher.rest]

theorem matcher_onward (g : RuleGraph) (data : List UInt8) (depth : Nat) (r : RuleId) :
    (g.matcher data depth r).Advances data.length := by
  induction depth generalizing r with
  | zero => exact fun pos => .refl _ pos
  | succ depth ih =>
    cases hk : g.kind r with
    | literal bytes =>
      simp only [matcher, hk]
      exact Matcher.advances_literal data bytes
    | sequence parts =>
      simp only [matcher, hk]
      exact Matcher.advances_sequence ih parts
    | choice alternatives =>
      simp only [matcher, hk]
      exact Matcher.advances_choiceFrom ih none alternatives
    | repetition part min max =>
      rw [matcher_repetition hk]
      exact Matcher.advances_andThen (Matcher.advances_times (ih part) min)
        (Matcher.advances_rest (ih part) depth min max)
    | placeholder target =>
      simp only [matcher, hk]
      cases target with
      | none => exact fun pos => .refl _ pos
      | some target => exact ih target

/-- A rule that has matched without consuming anything is nullable. -/
theorem nullable_of_stays {g : RuleGraph} {data : List UInt8} {depth : Nat} {r : RuleId} {pos : Nat}
    (h : g.matcher data depth r pos = (.ok (), pos)) : g.Nullable r := by
  induction depth generalizing r with
  | zero => cases h
  | succ depth ih =>
    cases hk : g.kind r with
    | literal bytes =>
      simp only [matcher, hk] at h
      obtain rfl := Matcher.literal_of_stays h
      exact .literal hk
    | sequence parts =>
      simp only [matcher, hk] at h
      have hs := Matcher.sequence_of_stays (g.matcher_onward data depth) h
      exact .sequence hk fun p hp => ih (hs p hp)
    | choice alternatives =>
      simp only [matcher, hk] at h
      obtain ⟨p, hp, hm⟩ := Matcher.choiceFrom_of_ok h
      exact .choice hk hp (ih hm)
    | repetition part min max =>
      cases min with
      | zero => exact .optional hk
      | succ min =>
        have hp := g.matcher_onward data depth part
        rw [matcher_repetition hk] at h
        have ht := Matcher.andThen_of_stays (Matcher.advances_times hp _)
          (Matcher.advances_rest hp _ _ _) h
        exact .repeated hk (ih (Matcher.times_of_stays hp ht))
    | placeholder target =>
      cases target with
      | none =>
        simp only [matcher, hk] at h
        cases h
      | some target =>
        simp only [matcher, hk] at h
        exact .target hk (ih h)

end RuleGraph

end StreamPeg
