import StreamPeg.Proofs.Parsing
import StreamPeg.Source.Memory

/-!
# Parsing is matching by position

Over a source in memory a parse by a rule without left recursion is nothing but matching by position
(`parse_eq_matcher`): the window, the branches and the order in which cursors are moved and removed
leave no trace in the answer or in the place where the cursor stands afterwards.
-/

namespace StreamPeg

namespace Memory

theorem bytesOf_upcoming (data : List UInt8) :
    bytesOf (FiniteSource.upcoming (⟨data⟩ : Memory)) = data := by
  have h := bytesOf_append_bytes data []
  rwa [List.append_nil, bytesOf, List.append_nil] at h

theorem failuresOf_upcoming (data : List UInt8) :
    failuresOf (FiniteSource.upcoming (⟨data⟩ : Memory)) = [] := by
  have h := failuresOf_append_bytes data []
  rwa [List.append_nil] at h

end Memory

namespace RuleGraph

/-- The answer of a parse over data in memory is that of the matcher, and the cursor stands where
the matcher stops, whether or not it succeeds. The source is never blamed, the depth never runs out,
and no other cursor has come, gone or moved. -/
theorem parse_eq_matcher {g : RuleGraph} {r : RuleId} (hr : g.NonLeftRecursive r)
    {data : List UInt8} {options : StreamOptions} {m : Manager Memory}
    (hm : Reached options ⟨data⟩ m) {id : CursorId} {o : Nat} (ho : m.offset id = .ok o)
    {depth : Nat} (hd : g.depthLimit data.length ≤ depth) :
    (g.parse r id m).1 = (g.matcher data depth r o).1 ∧
      (g.parse r id m).2.offset id = .ok (g.matcher data depth r o).2 ∧
      (∀ i, i ≠ id → (g.parse r id m).2.offset i = m.offset i) ∧
      (∀ e, (g.parse r id m).1 ≠ .error (.source e)) ∧ (g.parse r id m).1 ≠ .error .tooDeep := by
  have hs := hm.stands ho
  rw [Memory.bytesOf_upcoming] at hs
  have hnone : m.failuresLeft = [] := by
    have hsuf := hm.failuresLeft_suffix
    rwa [Memory.failuresOf_upcoming, List.suffix_nil] at hsuf
  have hd' := Nat.le_trans (g.depthLimit_mono (Nat.sub_le data.length o)) hd
  have hsource := g.matcher_ne_source data depth r o
  have hdeep := matcher_ne_tooDeep hr hd'
  have hout := hs.parse_outcome hr hd'
  revert hout hsource hdeep
  generalize g.matcher data depth r o = expected
  generalize g.parse r id m = actual
  intro hsource hdeep hout
  have hother : ∀ {pos : Nat} {m' : Manager Memory}, m.Moved id pos m' →
      ∀ i, i ≠ id → m'.offset i = m.offset i := fun hm i hi => by
    rw [Manager.offset, Manager.offset, hm.offset_of_ne i hi]
  cases hout with
  | ok hm' _ =>
    exact ⟨rfl, Manager.offset_eq_ok_iff.mpr hm'.offset_self, hother hm', hsource, hdeep⟩
  | failed hm' _ hstop =>
    obtain rfl := hstop hnone
    exact ⟨rfl, Manager.offset_eq_ok_iff.mpr hm'.offset_self, hother hm', hsource, hdeep⟩
  | source _ he => rw [hnone] at he; cases he

/-- A grammar that comes back to itself, over a read-ahead and with a second cursor that holds the
start of the data. -/
theorem parse_eq_matcher_nested :
    let m := ((Manager.ofSource { readAhead := 1 } (⟨[40, 40, 120, 41, 41]⟩ : Memory)).step
      (.branch 0)).step (.read 0 1)
    nested.NonLeftRecursive 0 ∧ m.offset 0 = .ok 1 ∧ (nested.parse 0 0 m).1 = .ok () ∧
      (nested.parse 0 0 m).2.offset 0 = .ok 4 ∧ (nested.parse 0 0 m).2.offset 1 = .ok 0 := by
  intro m
  have hm : Reached { readAhead := 1 } ⟨[40, 40, 120, 41, 41]⟩ m := .step _ (.step _ .opened)
  have ho : m.offset 0 = .ok 1 := rfl
  have hd : nested.depthLimit [40, 40, 120, 41, 41].length ≤ 43 := by decide
  obtain ⟨hr, hs, hi, _⟩ := parse_eq_matcher nonLeftRecursive_nested hm ho hd
  exact ⟨nonLeftRecursive_nested, ho, hr, hs, hi 1 (by decide)⟩

end RuleGraph

end StreamPeg
