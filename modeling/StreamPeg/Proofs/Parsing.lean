import StreamPeg.Proofs.Depth
import StreamPeg.Proofs.Follows
import StreamPeg.Proofs.Reached

/-!
# A parse and its matcher

In every manager that steps and parses can lead to, a parse by a rule without left recursion does
what the matcher of that rule does on the stream of the source, at whatever depth is enough for the
bytes that are left (`Stands.parse_outcome`). The depth that the parse chooses for itself always is.
-/

namespace StreamPeg

variable {σ : Type}

variable [FiniteSource σ]

/-- A match tells the answer of its parse and where the parse has left the cursor. -/
theorem RuleGraph.matchSource_congr {σ' : Type} [FiniteSource σ'] {g : RuleGraph} {r : RuleId}
    {source : σ} {source' : σ'}
    (ha : (g.parse r .root (.ofSource {} source)).1 = (g.parse r .root (.ofSource {} source')).1)
    (ho : (g.parse r .root (.ofSource {} source)).2.offset .root =
      (g.parse r .root (.ofSource {} source')).2.offset .root) :
    (g.matchSource r source).1 = (g.matchSource r source').1 := by
  revert ha ho
  unfold matchSource
  rcases g.parse r .root (.ofSource {} source) with ⟨result, m⟩
  rcases g.parse r .root (.ofSource {} source') with ⟨result', m'⟩
  rintro rfl ho
  cases result with
  | error e => rfl
  | ok =>
    dsimp only at ho ⊢
    rw [ho]
    cases m'.offset .root <;> rfl

/-! ### What a reached manager has before it -/

namespace Reached

variable {options : StreamOptions} {source : σ} {m : Manager σ}

theorem valid (h : Reached options source m) : m.Valid := by
  obtain ⟨steps, rfl⟩ := h.exists_run
  exact Manager.valid_run (Manager.valid_ofSource options source) steps

theorem stream_eq (h : Reached options source m) :
    m.stream = bytesOf (FiniteSource.upcoming source) := by
  obtain ⟨steps, rfl⟩ := h.exists_run
  exact (Manager.outlook_run (Manager.valid_ofSource options source) steps).1

/-- The failures left are the last of those that the source had at first. -/
theorem failuresLeft_suffix (h : Reached options source m) :
    m.failuresLeft <:+ failuresOf (FiniteSource.upcoming source) := by
  obtain ⟨steps, rfl⟩ := h.exists_run
  exact (Manager.outlook_run (Manager.valid_ofSource options source) steps).2

theorem stands (h : Reached options source m) {id : CursorId} {pos : Nat}
    (ho : m.offset id = .ok pos) :
    Stands (bytesOf (FiniteSource.upcoming source)) m id pos :=
  ⟨h.valid, h.stream_eq, Manager.offset_eq_ok_iff.mp ho⟩

end Reached

/-! ### Depth -/

namespace Stands

variable {data : List UInt8} {m : Manager σ} {id : CursorId} {pos : Nat}

theorem left_le_available (h : Stands data m id pos) : data.length - pos ≤ m.available := by
  have hl := Manager.length_stream_le h.valid.toSound
  have hb := h.valid.le_offset h.offset_eq
  rw [h.stream_eq] at hl
  omega

theorem matcher_eq_available (h : Stands data m id pos) {g : RuleGraph} {r : RuleId}
    (hr : g.NonLeftRecursive r) {depth : Nat} (hd : g.depthLimit (data.length - pos) ≤ depth) :
    g.matcher data depth r pos = g.matcher data (g.depthLimit m.available) r pos :=
  g.matcher_eq hr hd (g.depthLimit_mono h.left_le_available)

theorem parse_outcome (h : Stands data m id pos) {g : RuleGraph} {r : RuleId}
    (hr : g.NonLeftRecursive r) {depth : Nat} (hd : g.depthLimit (data.length - pos) ≤ depth) :
    Outcome m id (g.matcher data depth r pos) (g.parse r id m) := by
  rw [h.matcher_eq_available hr hd]
  exact g.parser_follows data (g.depthLimit m.available) r h

/-- A choice, moreover, is taken back whenever it fails. -/
theorem parse_tried (h : Stands data m id pos) {g : RuleGraph} {r : RuleId}
    (hr : g.NonLeftRecursive r) {alternatives : List RuleId}
    (hk : g.kind r = .choice alternatives) {depth : Nat}
    (hd : g.depthLimit (data.length - pos) ≤ depth) :
    Tried m id pos (g.matcher data depth r pos) (g.parse r id m) := by
  rw [h.matcher_eq_available hr hd]
  exact g.tried_of_choice _ hk h

end Stands

end StreamPeg
