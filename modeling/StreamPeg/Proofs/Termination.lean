import StreamPeg.Proofs.Settled
import StreamPeg.Source.Script

/-!
# Every parse returns

What bounds a parse is there to make it a function, and is never in the way. If the rules of a graph
can be numbered so that the number falls with every step that a rule can take where it began, then
no more numbers are needed than there are rules (`ranked_fitted`), and so no parse is given up as
too deep. The optional matches of an unbounded repetition, counted by `Repeats`, end with the first
one that consumes nothing.
-/

namespace StreamPeg

variable {σ : Type}

/-! ### Fitting ranks to the graph -/

namespace RuleGraph

variable {g : RuleGraph} {rank : RuleId → Nat} {r p : RuleId}

/-- The rules of the graph that have a smaller number. -/
def belowRank (g : RuleGraph) (rank : RuleId → Nat) (r : RuleId) : Finset RuleId :=
  (Finset.range g.size).filter (rank · < rank r)

/-- The same order with small numbers. -/
def fitted (g : RuleGraph) (rank : RuleId → Nat) (r : RuleId) : Nat :=
  if r < g.size then (g.belowRank rank r).card + 1 else 0

theorem card_belowRank_lt (hr : r < g.size) : (g.belowRank rank r).card < g.size := by
  have hsub : g.belowRank rank r ⊂ Finset.range g.size := by
    refine (Finset.ssubset_iff_of_subset (Finset.filter_subset _ _)).mpr
      ⟨r, Finset.mem_range.mpr hr, ?_⟩
    simp
  have hcard := Finset.card_lt_card hsub
  rwa [Finset.card_range] at hcard

theorem fitted_lt (hr : r < g.size) (h : rank p < rank r) : g.fitted rank p < g.fitted rank r := by
  rw [fitted, fitted, if_pos hr]
  split
  · next hp =>
    -- What is below `p` is below `r` too, and so is `p` itself.
    refine Nat.succ_lt_succ (Finset.card_lt_card ?_)
    refine (Finset.ssubset_iff_of_subset fun s hs => ?_).mpr ⟨p, ?_, ?_⟩
    · simp only [belowRank, Finset.mem_filter] at hs ⊢
      exact ⟨hs.1, hs.2.trans h⟩
    · simpa [belowRank] using ⟨hp, h⟩
    · simp [belowRank]
  · exact Nat.succ_pos _

theorem ranked_fitted (h : ∀ r p, g.TriedFirst r p → rank p < rank r) (r : RuleId) :
    g.Ranked r (g.fitted rank) where
  falls _ hp := fitted_lt hp.leftPart.lt_size (h _ _ hp)
  le_size s := by
    rw [fitted]
    split
    · next hs => exact card_belowRank_lt hs
    · exact Nat.zero_le _
  pos hs := by
    rw [fitted, if_pos hs]
    exact Nat.succ_pos _

end RuleGraph

/-! ### Drawing bytes -/

/-- More tries are of no use, since every answer that goes on brings a byte. -/
theorem Manager.draw_eq [ByteSource σ] {tries tries' needed : Nat} (ht : needed ≤ tries)
    (ht' : needed ≤ tries') (wanted : Nat) (m : Manager σ) :
    draw tries needed wanted m = draw tries' needed wanted m := by
  induction tries generalizing tries' needed wanted m with
  | zero =>
    obtain rfl := Nat.le_zero.mp ht
    cases tries' <;> rfl
  | succ tries ih =>
    cases needed with
    | zero => cases tries' <;> rfl
    | succ needed =>
      obtain ⟨tries', rfl⟩ : ∃ k, tries' = k + 1 := ⟨tries' - 1, by omega⟩
      simp only [draw]
      rcases ByteSource.fill m.source wanted with ⟨(_ | ⟨b, bs⟩) | e, s'⟩
      · rfl
      · exact ih (by simp; omega) (by simp; omega) _ _
      · rfl

/-! ### Optional repetitions -/

namespace Parser

/-- Optional matches of `p` one after the other, so many of them, with nothing to bound the rounds:
they go on until an attempt does not match or has not brought the cursor forward. -/
inductive Repeats (stalled : Event) (p : Parser σ) (id : CursorId) :
    Nat → Manager σ → Except ParseFailure Unit × Manager σ → Prop where
  | lost {m : Manager σ} {e : StreamError} : m.offset id = .error e →
      Repeats stalled p id 0 m (.error (.source e), m)
  | fails {m m' : Manager σ} {before : Nat} {d : Mismatch} : m.offset id = .ok before →
      attempt p id m = (.error (.mismatch d), m') → Repeats stalled p id 0 m (.ok (), m')
  | broken {m m' : Manager σ} {before : Nat} {e : ParseFailure} : m.offset id = .ok before →
      attempt p id m = (.error e, m') → (∀ d, e ≠ .mismatch d) →
      Repeats stalled p id 0 m (.error e, m')
  | vanished {m m' : Manager σ} {before : Nat} {e : StreamError} : m.offset id = .ok before →
      attempt p id m = (.ok (), m') → m'.offset id = .error e →
      Repeats stalled p id 1 m (.error (.source e), m')
  | stalls {m m' : Manager σ} {before after : Nat} : m.offset id = .ok before →
      attempt p id m = (.ok (), m') → m'.offset id = .ok after → after ≤ before →
      Repeats stalled p id 1 m (.ok (), m'.note stalled)
  | more {m m' : Manager σ} {before after n : Nat} {out : Except ParseFailure Unit × Manager σ} :
      m.offset id = .ok before → attempt p id m = (.ok (), m') → m'.offset id = .ok after →
      before < after → Repeats stalled p id n m' out → Repeats stalled p id (n + 1) m out

variable {stalled : Event} {p : Parser σ} {id : CursorId}

/-- The loop does these matches, unless it runs out of rounds. -/
theorem exists_repeats {rounds : Nat} {m : Manager σ}
    (h : (whileMatching stalled p rounds id m).1 ≠ .error .tooDeep) :
    ∃ n, Repeats stalled p id n m (whileMatching stalled p rounds id m) := by
  induction rounds generalizing m with
  | zero => exact absurd rfl h
  | succ rounds ih =>
    simp only [whileMatching] at h ⊢
    rcases hb : m.offset id with e | before
    · exact ⟨0, .lost hb⟩
    simp only [hb] at h ⊢
    rcases hp : attempt p id m with ⟨e | _, m'⟩
    · cases e with
      | mismatch d => exact ⟨0, .fails hb hp⟩
      | source | unresolvedPlaceholder | tooDeep => exact ⟨0, .broken hb hp (by simp)⟩
    · simp only [hp] at h ⊢
      rcases ha : m'.offset id with e | after
      · exact ⟨1, .vanished hb hp ha⟩
      · simp only [ha] at h ⊢
        split at h
        · next hlt =>
          obtain ⟨n, hn⟩ := ih h
          rw [if_pos hlt]
          exact ⟨n + 1, .more hb hp ha hlt hn⟩
        · next hge =>
          rw [if_neg hge]
          exact ⟨1, .stalls hb hp ha (Nat.le_of_not_lt hge)⟩

/-- Each match but the last has brought the cursor forward. -/
theorem Repeats.le [ByteSource σ] {n o : Nat} {m : Manager σ}
    {out : Except ParseFailure Unit × Manager σ} (h : Repeats stalled p id n m out)
    (hp : p.Shifts) (hm : m.Valid) (ho : m.cursors.offset? id = some o) :
    ∃ o', out.2.cursors.offset? id = some o' ∧ o ≤ o' ∧ o + n ≤ o' + 1 := by
  induction h generalizing o with
  | lost he =>
    rw [Manager.offset_eq_ok_iff.mpr ho] at he
    cases he
  | fails _ ha | broken _ ha =>
    obtain ⟨o', hle, hs⟩ := shifts_attempt hp hm ho
    rw [ha] at hs
    exact ⟨o', hs.offset_self, hle, by omega⟩
  | vanished _ ha he =>
    obtain ⟨o', hle, hs⟩ := shifts_attempt hp hm ho
    rw [ha] at hs
    rw [Manager.offset_eq_ok_iff.mpr hs.offset_self] at he
    cases he
  | stalls _ ha =>
    obtain ⟨o', hle, hs⟩ := shifts_attempt hp hm ho
    rw [ha] at hs
    exact ⟨o', hs.offset_self, hle, by omega⟩
  | @more m m' before after n out hb ha hafter hlt _ ih =>
    obtain ⟨o', hle, hs⟩ := shifts_attempt hp hm ho
    rw [ha] at hs
    obtain rfl : before = o := Except.ok.inj (hb.symm.trans (Manager.offset_eq_ok_iff.mpr ho))
    obtain ⟨o'', ho'', hle', hn⟩ := ih hs.valid (Manager.offset_eq_ok_iff.mp hafter)
    exact ⟨o'', ho'', by omega, by omega⟩

end Parser

/-! ### Rules -/

namespace RuleGraph

variable [FiniteSource σ] {g : RuleGraph} {rank : RuleId → Nat}

/-- If the required matches of a repetition without a maximum have been made, a parse by it goes on
to make optional ones, and of these all but one have consumed something. -/
theorem repeats_of_parse {r part : RuleId} {min : Nat} (hk : g.kind r = .repetition part min none)
    (hr : g.Ranked r rank) {m m₀ : Manager σ} (hm : m.Valid) {id : CursorId} {depth : Nat}
    (hd : g.depthLimit m.available ≤ depth)
    (ht : Parser.times (g.name r) (g.parser depth part) min id m = (.ok (), m₀)) :
    ∃ n, Parser.Repeats (.stalled (g.name r) (g.name part)) (g.parser depth part) id n m₀
        (g.parse r id m) ∧
      ∀ o, m₀.offset id = .ok o →
        ∃ o', (g.parse r id m).2.offset id = .ok o' ∧ o ≤ o' ∧ n ≤ o' - o + 1 := by
  have hvalid : m₀.Valid := by
    have hrequired :=
      (Plan.sequence (g.name r) (List.replicate min (g.plan depth part))).valid_run hm id
    have ht' := ht
    rw [Parser.times_eq_sequence, List.map_replicate] at ht'
    rwa [Plan.run_sequence, List.map_replicate, g.run_plan, ht'] at hrequired
  have hparse := hr.parser_eq_parse hm (Nat.le_succ_of_le hd) id
  have hne := hr.parser_settles hm (Nat.le_succ_of_le hd) id
  simp only [parser, hk, Parser.andThen, ht] at hparse hne
  obtain ⟨n, hn⟩ := Parser.exists_repeats hne
  rw [hparse] at hn
  refine ⟨n, hn, fun o ho => ?_⟩
  rw [Manager.offset_eq_ok_iff] at ho
  obtain ⟨o', ho', hle, hbound⟩ := hn.le (g.parser_shifts depth part) hvalid ho
  exact ⟨o', Manager.offset_eq_ok_iff.mpr ho', hle, by omega⟩

/-- Whatever a manager has been through, a parse of it by any rule returns: it is neither given up
as too deep nor cut short anywhere, be it in nesting rules, in repeating one or in asking the
source. If it repeats a rule without an upper bound, it makes at most one optional match more than
these matches consume bytes. -/
theorem parse_returns (hrank : ∀ r p, g.TriedFirst r p → rank p < rank r)
    {options : StreamOptions} {source : σ} {m : Manager σ} (hm : Reached options source m)
    (r : RuleId) (id : CursorId) :
    (g.parse r id m).1 ≠ .error .tooDeep ∧
    (∀ depth, g.depthLimit m.available ≤ depth → g.parser depth r id m = g.parse r id m) ∧
    (∀ (m' : Manager σ) tries needed wanted, needed ≤ tries →
      Manager.draw tries needed wanted m' = Manager.draw needed needed wanted m') ∧
    ∀ part min, g.kind r = .repetition part min none → ∀ depth m₀,
      g.depthLimit m.available ≤ depth →
      Parser.times (g.name r) (g.parser depth part) min id m = (.ok (), m₀) →
      ∃ n, Parser.Repeats (.stalled (g.name r) (g.name part)) (g.parser depth part) id n m₀
          (g.parse r id m) ∧
        ∀ o, m₀.offset id = .ok o →
          ∃ o', (g.parse r id m).2.offset id = .ok o' ∧ o ≤ o' ∧ n ≤ o' - o + 1 := by
  have hr := ranked_fitted hrank r
  exact ⟨hr.parser_settles hm.valid (Nat.le_refl _) id,
    fun depth hd => hr.parser_eq_parse hm.valid hd id,
    fun m' tries needed wanted ht => Manager.draw_eq ht (Nat.le_refl needed) wanted m',
    fun part min hk depth m₀ hd ht => repeats_of_parse hk hr hm.valid hd ht⟩

/-- Any number of `x` and of groups in parentheses, in which there are any number of them again. -/
def groups : RuleGraph :=
  ⟨#[⟨"groups", .repetition 1 0 none⟩, ⟨"item", .choice [2, 4]⟩, ⟨"group", .sequence [3, 6, 5]⟩,
    ⟨"open", .literal [40]⟩, ⟨"x", .literal [120]⟩, ⟨"close", .literal [41]⟩,
    ⟨"groups", .placeholder (some 0)⟩]⟩

def groupsRank (r : RuleId) : Nat := [3, 2, 1, 0, 0, 0, 4].getD r 0

theorem groupsRank_lt (r p : RuleId) (h : groups.TriedFirst r p) :
    groupsRank p < groupsRank r := by
  have hlt : r < 7 := h.leftPart.lt_size
  have h0 : groups.kind 0 = .repetition 1 0 none := rfl
  have h1 : groups.kind 1 = .choice [2, 4] := rfl
  have h2 : groups.kind 2 = .sequence [3, 6, 5] := rfl
  have h3 : groups.kind 3 = .literal [40] := rfl
  have h4 : groups.kind 4 = .literal [120] := rfl
  have h5 : groups.kind 5 = .literal [41] := rfl
  have h6 : groups.kind 6 = .placeholder (some 0) := rfl
  have hopen : ¬ groups.CanStay 3 := fun ⟨_, _, _, hm⟩ =>
    not_nullable_literal h3 (nullable_of_stays hm)
  interval_cases r <;> cases h <;> simp_all
  · decide
  · next h => rcases h with rfl | rfl <;> decide
  · next before _ _ _ => cases before <;> simp_all [groupsRank]
  · decide

/-- Three matches of three bytes together: the last of the items is a group that has nothing in
it. -/
theorem parse_returns_groups :
    let source := Script.ofPieces [.chunk [120, 40], .chunk [41]]
    let m := Manager.ofSource {} source
    (groups.parse 0 0 m).1 = .ok () ∧
      ∃ n, Parser.Repeats (.stalled "groups" "item") (groups.parser 33 1) 0 n m
          (groups.parse 0 0 m) ∧ n ≤ 4 := by
  intro source m
  have hm : Reached {} source m := .opened
  obtain ⟨-, -, -, hrepeats⟩ := parse_returns groupsRank_lt hm 0 0
  obtain ⟨n, hn, hle⟩ := hrepeats 1 0 rfl 33 m (by decide) rfl
  obtain ⟨o', ho', -, hbound⟩ := hle 0 rfl
  have hend : (groups.parse 0 0 m).2.offset 0 = .ok 3 := by decide +kernel
  obtain rfl : o' = 3 := Except.ok.inj (ho'.symm.trans hend)
  exact ⟨by decide +kernel, n, hn, hbound⟩

end RuleGraph

end StreamPeg
