import StreamPeg.Proofs.Parsing
import StreamPeg.Source.Script

/-!
# Failing sources and second attempts

A source that fails on the way takes nothing from a parse and adds nothing to it: each parse either
raises the first of the failures left, or answers as if the source had none. A choice that has met a
failure can be tried again from where it was, and every attempt uses up a failure, so after as many
as there are left it has its answer (`parse_despite_failures`).
-/

namespace StreamPeg

/-! ### Scripts without their failures -/

namespace Piece

/-- The pieces with the failures taken out. -/
def sound (pieces : List Piece) : List Piece :=
  pieces.filter fun
    | .chunk _ => true
    | .failure _ => false

@[simp] theorem sound_chunk (bs : List UInt8) (pieces : List Piece) :
    sound (.chunk bs :: pieces) = .chunk bs :: sound pieces := rfl

theorem bytesOf_sound (pieces : List Piece) :
    bytesOf ((sound pieces).flatMap deliveries) = bytesOf (pieces.flatMap deliveries) := by
  induction pieces with
  | nil => rfl
  | cons piece pieces ih =>
    cases piece with
    | failure e => exact ih
    | chunk bs =>
      by_cases hb : bs = []
      · subst hb
        rfl
      · rw [sound_chunk, List.flatMap_cons, List.flatMap_cons, deliveries_chunk hb,
          bytesOf_append_bytes, bytesOf_append_bytes, ih]

theorem mem_of_mem_failuresOf {pieces : List Piece} {e : SourceFailure}
    (h : e ∈ failuresOf (pieces.flatMap deliveries)) : .failure e ∈ pieces := by
  induction pieces with
  | nil => cases h
  | cons piece pieces ih =>
    cases piece with
    | failure f =>
      rcases List.mem_cons.mp h with rfl | h
      · exact List.mem_cons_self
      · exact List.mem_cons_of_mem _ (ih h)
    | chunk bs =>
      refine List.mem_cons_of_mem _ (ih ?_)
      by_cases hb : bs = []
      · subst hb
        exact h
      · rwa [List.flatMap_cons, deliveries_chunk hb, failuresOf_append_bytes] at h

theorem failuresOf_sound (pieces : List Piece) :
    failuresOf ((sound pieces).flatMap deliveries) = [] := by
  rw [List.eq_nil_iff_forall_not_mem]
  intro e he
  have hm := mem_of_mem_failuresOf he
  simp [sound] at hm

end Piece

/-! ### One parse -/

variable {σ : Type}

/-- An answer as expected, and for a match also the place of the cursor. -/
structure Answered (expected : Except ParseFailure Unit × Nat) (id : CursorId)
    (actual : Except ParseFailure Unit × Manager σ) : Prop where
  answer : actual.1 = expected.1
  offset : actual.1 = .ok () → actual.2.offset id = .ok expected.2

/-- The same answer, and for a match the same place of the cursor. -/
structure SameResult (id id' : CursorId) (a b : Except ParseFailure Unit × Manager σ) : Prop where
  answer : a.1 = b.1
  offset : a.1 = .ok () → a.2.offset id = b.2.offset id'

theorem Answered.same {id id' : CursorId} {expected : Except ParseFailure Unit × Nat}
    {a b : Except ParseFailure Unit × Manager σ} (ha : Answered expected id a)
    (hb : Answered expected id' b) : SameResult id id' a b where
  answer := ha.answer.trans hb.answer.symm
  offset ho := (ha.offset ho).trans (hb.offset (hb.answer.trans (ha.answer.symm.trans ho))).symm

variable [FiniteSource σ]

/-- The first of the failures left comes up, or the answer is the expected one. -/
theorem Outcome.raised_or_answered {m : Manager σ} {id : CursorId}
    {expected : Except ParseFailure Unit × Nat} {actual : Except ParseFailure Unit × Manager σ}
    (h : Outcome m id expected actual) :
    (∃ e, actual.1 = .error (.source (.source e)) ∧
        m.failuresLeft = e :: actual.2.failuresLeft) ∨
      Answered expected id actual := by
  cases h with
  | ok hm _ => exact .inr ⟨rfl, fun _ => Manager.offset_eq_ok_iff.mpr hm.offset_self⟩
  | failed => exact .inr ⟨rfl, nofun⟩
  | source _ he => exact .inl ⟨_, rfl, he⟩

/-! ### One after the other -/

namespace RuleGraph

variable {g : RuleGraph} {r : RuleId}

/-- The manager after so many parses by the same rule with the same cursor. -/
def parseAgain (g : RuleGraph) (r : RuleId) (id : CursorId) : Nat → Manager σ → Manager σ
  | 0, m => m
  | n + 1, m => g.parseAgain r id n (g.parse r id m).2

/-- Attempt by attempt the failures left get fewer, while the cursor waits in its place. -/
theorem exists_answered (hr : g.NonLeftRecursive r) {alternatives : List RuleId}
    (hk : g.kind r = .choice alternatives) {data : List UInt8} {pos depth : Nat}
    (hd : g.depthLimit (data.length - pos) ≤ depth) {m : Manager σ} {id : CursorId}
    (h : Stands data m id pos) :
    ∃ k ≤ m.failuresLeft.length,
      (∀ j < k, ∃ e ∈ m.failuresLeft,
        (g.parse r id (g.parseAgain r id j m)).1 = .error (.source (.source e))) ∧
      Answered (g.matcher data depth r pos) id (g.parse r id (g.parseAgain r id k m)) := by
  induction hn : m.failuresLeft.length using Nat.strong_induction_on generalizing m with
  | _ n ih =>
    rcases (h.parse_outcome hr hd).raised_or_answered with ⟨e, hraised, he⟩ | ha
    · have hstays : Stands data (g.parse r id m).2 id pos :=
        ((h.parse_tried hr hk hd).moved_of_error hraised).stands h
      rw [he, List.length_cons] at hn
      obtain ⟨k, hk', hfail, ha⟩ := ih _ (by omega) hstays rfl
      refine ⟨k + 1, by omega, fun j hj => ?_, ha⟩
      rw [he]
      cases j with
      | zero => exact ⟨e, List.mem_cons_self, hraised⟩
      | succ j =>
        obtain ⟨f, hf, hj'⟩ := hfail j (Nat.lt_of_succ_lt_succ hj)
        exact ⟨f, List.mem_cons_of_mem e hf, hj'⟩
    · exact ⟨0, Nat.zero_le n, nofun, ha⟩

/-- Whatever failures a scripted source has among its bytes, a parse raises one of them or gives the
same result as over the script without them. For a choice a failure leaves the cursor in its place,
and of the attempts that follow no more fail in this way than there are failures left. -/
theorem parse_despite_failures (hr : g.NonLeftRecursive r) {pieces : List Piece}
    {options options' : StreamOptions} {m m' : Manager Script}
    (hm : Reached options (.ofPieces pieces) m)
    (hm' : Reached options' (.ofPieces (Piece.sound pieces)) m') {id id' : CursorId} {o : Nat}
    (ho : m.offset id = .ok o) (ho' : m'.offset id' = .ok o) :
    ((∃ e, .failure e ∈ pieces ∧ (g.parse r id m).1 = .error (.source (.source e))) ∨
        SameResult id id' (g.parse r id m) (g.parse r id' m')) ∧
      (∀ e, (g.parse r id' m').1 ≠ .error (.source e)) ∧
      (g.parse r id' m').1 ≠ .error .tooDeep ∧
      ∀ alternatives, g.kind r = .choice alternatives →
        (∀ e, (g.parse r id m).1 = .error (.source e) → (g.parse r id m).2.offset id = .ok o) ∧
        ∃ k ≤ m.failuresLeft.length,
          (∀ j < k, ∃ e, .failure e ∈ pieces ∧
            (g.parse r id (g.parseAgain r id j m)).1 = .error (.source (.source e))) ∧
          SameResult id id' (g.parse r id (g.parseAgain r id k m)) (g.parse r id' m') := by
  have hbytes : bytesOf (FiniteSource.upcoming (Script.ofPieces (Piece.sound pieces))) =
      bytesOf (FiniteSource.upcoming (Script.ofPieces pieces)) := Piece.bytesOf_sound pieces
  have hnone : m'.failuresLeft = [] := by
    have hsuf := hm'.failuresLeft_suffix
    rwa [show failuresOf (FiniteSource.upcoming (Script.ofPieces (Piece.sound pieces))) = [] from
      Piece.failuresOf_sound pieces, List.suffix_nil] at hsuf
  have hmem : ∀ e ∈ m.failuresLeft, .failure e ∈ pieces := fun e he =>
    Piece.mem_of_mem_failuresOf (hm.failuresLeft_suffix.subset he)
  have hs := hm.stands ho
  have hs' := hm'.stands ho'
  rw [hbytes] at hs'
  generalize bytesOf (FiniteSource.upcoming (Script.ofPieces pieces)) = data at hs hs'
  have hd := Nat.le_refl (g.depthLimit (data.length - o))
  have hsound : Answered (g.matcher data _ r o) id' (g.parse r id' m') :=
    (hs'.parse_outcome hr hd).raised_or_answered.resolve_left fun ⟨e, _, he⟩ => by
      rw [hnone] at he
      cases he
  refine ⟨?_, fun e => ?_, ?_, fun alternatives hk => ⟨fun e he => ?_, ?_⟩⟩
  · rcases (hs.parse_outcome hr hd).raised_or_answered with ⟨e, hraised, he⟩ | ha
    · exact .inl ⟨e, hmem e (he ▸ List.mem_cons_self), hraised⟩
    · exact .inr (ha.same hsound)
  · rw [hsound.answer]
    exact g.matcher_ne_source data _ r o e
  · rw [hsound.answer]
    exact matcher_ne_tooDeep hr hd
  · have hmoved := (hs.parse_tried hr hk hd).moved_of_error he
    exact Manager.offset_eq_ok_iff.mpr hmoved.offset_self
  · obtain ⟨k, hk', hfail, ha⟩ := exists_answered hr hk hd hs
    refine ⟨k, hk', fun j hj => ?_, ha.same hsound⟩
    obtain ⟨e, he, hj'⟩ := hfail j hj
    exact ⟨e, hmem e he, hj'⟩

/-- Five bytes with two failures among them. -/
def rough : List Piece :=
  [.chunk [40, 40], .failure ⟨.other, "first"⟩, .chunk [120], .failure ⟨.wouldBlock, "second"⟩,
    .chunk [41, 41]]

/-- Two attempts may fail at most, and then the whole is matched. -/
theorem parse_despite_failures_rough :
    let m := Manager.ofSource {} (Script.ofPieces rough)
    let m' := (Manager.ofSource { readAhead := 2 } (Script.ofPieces (Piece.sound rough))).step
      (.branch 0)
    nested.NonLeftRecursive 0 ∧ nested.kind 0 = .choice [1, 4] ∧ m.offset 0 = .ok 0 ∧
      m'.offset 1 = .ok 0 ∧ m.failuresLeft.length = 2 ∧ (nested.parse 0 1 m').1 = .ok () ∧
      (nested.parse 0 0 m).1 = .error (.source (.source ⟨.other, "first"⟩)) ∧
      (nested.parse 0 0 m).2.offset 0 = .ok 0 ∧
      ∃ k ≤ 2, (∀ j < k, ∃ e, .failure e ∈ rough ∧
          (nested.parse 0 0 (nested.parseAgain 0 0 j m)).1 = .error (.source (.source e))) ∧
        (nested.parse 0 0 (nested.parseAgain 0 0 k m)).1 = .ok () := by
  have hm : Reached {} (Script.ofPieces rough) (.ofSource {} (Script.ofPieces rough)) := .opened
  have hm' : Reached { readAhead := 2 } (Script.ofPieces (Piece.sound rough))
      ((Manager.ofSource { readAhead := 2 } (Script.ofPieces (Piece.sound rough))).step
        (.branch 0)) := .step _ .opened
  have hfirst : (nested.parse 0 0 (.ofSource {} (Script.ofPieces rough))).1 =
      .error (.source (.source ⟨.other, "first"⟩)) := by decide +kernel
  have hsound : (nested.parse 0 1
      ((Manager.ofSource { readAhead := 2 } (Script.ofPieces (Piece.sound rough))).step
        (.branch 0))).1 = .ok () := by decide +kernel
  have ho : (Manager.ofSource {} (Script.ofPieces rough)).offset 0 = .ok 0 := rfl
  have ho' : ((Manager.ofSource { readAhead := 2 } (Script.ofPieces (Piece.sound rough))).step
      (.branch 0)).offset 1 = .ok 0 := rfl
  obtain ⟨_, _, _, hc⟩ := parse_despite_failures nonLeftRecursive_nested hm hm' ho ho'
  obtain ⟨hstays, k, hk, hfail, hsame⟩ := hc [1, 4] rfl
  exact ⟨nonLeftRecursive_nested, rfl, ho, ho', rfl, hsound, hfirst, hstays _ hfirst, k, hk, hfail,
    hsame.answer.trans hsound⟩

end RuleGraph

end StreamPeg
