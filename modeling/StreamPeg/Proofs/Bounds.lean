import StreamPeg.Cursor.Checked
import StreamPeg.Proofs.Run

/-!
# The window and its bounds

In every run the window is a section of what the source has handed out: it starts where the slowest
live cursor stands and ends with the last byte that has come (`window_run`). So no step ever leaves
a bound: the checked operations of a valid manager do what the unchecked ones do (`step?_eq`).
-/

namespace StreamPeg

theorem checkedSub_eq {a b : Nat} (h : b ≤ a) : checkedSub a b = some (a - b) := if_pos h

theorem slice?_eq {window : Array UInt8} {start stop : Nat} (h : start ≤ stop)
    (h' : stop ≤ window.size) :
    slice? window start stop = some ((window.toList.drop start).take (stop - start)) := by
  rw [slice?, if_pos ⟨h, h'⟩, Array.toList_extract, List.extract_eq_take_drop]

namespace Manager

variable {σ : Type}

/-! ### The two slices of a read -/

theorem Sound.serve_eq {m : Manager σ} (h : m.Sound) {offset : Nat} (hb : m.base ≤ offset)
    (hl : offset ≤ (received m.journal).length) (count : Nat) :
    slice? m.window (offset - m.base) (min (offset - m.base + count) m.window.size) =
      some (m.buffered offset count) := by
  have hs := h.base_add_size
  rw [slice?_eq (by omega) (by omega), buffered, Array.toList_extract, List.extract_eq_take_drop,
    Option.some.injEq, List.take_eq_take_iff, List.length_drop, Array.length_toList]
  omega

end Manager

section

variable {σ : Type} [ByteSource σ] {m m' : Manager σ} {offset count : Nat} {cs : List Call}
  {out : Pulled}

/-- The bytes that a pull has brought are those behind the old end of the window. -/
theorem Pull.take_eq {needed : Nat} (hp : Pull m needed cs out m') (missing : Nat) :
    slice? m'.window m.window.size
        (m.window.size + min (m'.window.size - m.window.size) missing) =
      some ((given cs).take missing) := by
  have hs : m'.window.size = m.window.size + (given cs).length := by
    rw [← Array.length_toList, hp.window, List.length_append, Array.length_toList]
  have hd : m'.window.toList.drop m.window.size = given cs := by
    rw [hp.window, ← Array.length_toList, List.drop_left]
  rw [slice?_eq (by omega) (by omega), hd, Option.some.injEq, List.take_eq_take_iff]
  omega

/-- What is served at once and what the pull adds to it make up what is buffered afterwards. -/
theorem Pull.buffered_eq {needed : Nat} (hp : Pull m needed cs out m') (h : m.Valid)
    (hb : m.base ≤ offset) (hl : offset ≤ (received m.journal).length) (count : Nat) :
    m'.buffered offset count = m.buffered offset count ++
      (given cs).take (count - (m.buffered offset count).length) := by
  have hc : count - (m.buffered offset count).length =
      count - ((received m.journal).drop offset).length := by
    rw [h.length_buffered hb, List.length_drop]
    omega
  rw [hc, (hp.valid h).buffered_eq (hp.base ▸ hb), h.buffered_eq hb, hp.received_eq,
    List.drop_append_of_le_length hl, List.take_append]

end

namespace Manager

variable {σ : Type}

/-! ### Every bound is kept -/

theorem shrink?_eq {m : Manager σ} (h : m.Sound) : m.shrink? = some m.shrink := by
  unfold shrink? shrink
  cases hf : m.cursors.floor? with
  | none => rfl
  | some floor =>
    have hs := h.base_add_size
    obtain ⟨hb, hl⟩ := h.floor_le hf
    by_cases hlt : m.base < floor
    · have hd : drain? m.window (floor - m.base) =
          some (m.window.extract (floor - m.base) m.window.size) := if_pos (by omega)
      simp [hlt, checkedSub_eq hb, hd]
    · simp [hlt]

theorem advance?_eq {m : Manager σ} (h : m.Sound) {id : CursorId} {offset : Nat}
    (hb : m.base ≤ offset) (hl : offset ≤ (received m.journal).length) (hid : id < m.nextId) :
    m.advance? id offset = some (m.advance id offset) :=
  shrink?_eq (h.put rfl hb hl hid)

theorem read?_eq [ByteSource σ] {m : Manager σ} (h : m.Valid) (id : CursorId) (count : Nat) :
    m.read? id count = some (m.read id count) := by
  cases ho : m.cursors.offset? id with
  | none => simp [read?, read, ho]
  | some offset =>
    have hb := h.le_offset ho
    have hl := h.offset_le ho
    have hn := h.note (.requested id count) rfl
    obtain ⟨cs, out, m', hq, hp, hr⟩ := exists_read h ho count
    have hv := hp.valid hn
    have ho' : m'.cursors.offset? id = some offset := by rw [hp.cursors]; exact ho
    have hw : slice? m'.window m.window.size (m.window.size +
        min (m'.window.size - m.window.size) (count - (m.buffered offset count).length)) =
        some ((given cs).take (count - (m.buffered offset count).length)) := hp.take_eq _
    have hbuf : m.buffered offset count ++
        (given cs).take (count - (m.buffered offset count).length) = m'.buffered offset count :=
      (hp.buffered_eq hn hb hl count).symm
    have hlen : (m.buffered offset count).length ≤ count := by
      rw [h.length_buffered hb]
      omega
    have hsz : m.window.size ≤ m'.window.size := by
      rw [← Array.length_toList, ← Array.length_toList, hp.window, List.length_append]
      exact Nat.le_add_right _ _
    have hadv : (m'.defer (m'.buffered offset count).length out).advance? id
        (offset + (m'.buffered offset count).length) =
        some ((m'.defer (m'.buffered offset count).length out).advance id
          (offset + (m'.buffered offset count).length)) := by
      obtain ⟨_, hdb, hdn, _, _, _, hdc⟩ :=
        defer_fields m' (m'.buffered offset count).length out
      refine advance?_eq (hv.defer _ (hp.deferrable h rfl)) ?_ ?_ (hdn ▸ hv.lt_nextId ho')
      · rw [hdb]
        exact Nat.le_trans (hv.le_offset ho') (Nat.le_add_right _ _)
      · have := hv.offset_le ho'
        rw [received, hdc, ← received, hv.length_buffered (hv.le_offset ho')]
        omega
    unfold read?
    simp only [ho, checkedSub_eq hb, h.serve_eq hb hl, Option.bind_eq_bind, Option.bind_some,
      checkedSub_eq hlen, hq, checkedSub_eq hsz, hw, hbuf]
    rcases hr with ⟨e, rfl, hnil, hr⟩ | ⟨hne, hr⟩
    · simp [hr, hnil]
    · rw [hr]
      cases out with
      | satisfied =>
        simp only [defer] at hadv
        simp [hadv, defer]
      | ended =>
        simp only [defer] at hadv
        simp [hadv, defer]
      | failed e =>
        cases hx : m'.buffered offset count with
        | nil => exact absurd hx (hne e rfl)
        | cons b bs =>
          simp only [hx, defer] at hadv
          simp only [hadv, defer, Option.bind_some]
          rfl

/-- No step of a valid manager leaves a bound. -/
theorem step?_eq [ByteSource σ] {m : Manager σ} (h : m.Valid) (s : Step) :
    m.step? s = some (m.step s) := by
  cases s with
  | branch id => rfl
  | read id count => simp [step?, step, read?_eq h]
  | offset id => rfl
  | commit target branch =>
    simp only [step?, step, commit?, commit]
    cases ht : m.cursors.offset? target with
    | none => rfl
    | some o =>
      cases hb : m.cursors.offset? branch with
      | none => rfl
      | some offset => exact shrink?_eq (h.commit ht hb)
  | dispose id =>
    simp only [step?, step, dispose?, dispose]
    cases m.cursors.offset? id with
    | none => rfl
    | some o => exact shrink?_eq (h.erase id rfl)
  | release id =>
    simp only [step?, step, release?, release]
    cases m.cursors.offset? id with
    | none => rfl
    | some o => exact shrink?_eq (h.erase id rfl)
  | stall rule part => rfl

/-- The window after any run, and what any more steps can make of it. -/
theorem window_run [ByteSource σ] (options : StreamOptions) (source : σ) (steps : List Step) :
    let m := (ofSource options source).run steps
    let handedOut := received m.journal
    Answers source (calls m.journal) m.source ∧
      m.base + m.window.size = handedOut.length ∧
      m.window.toList = (handedOut.drop m.base).take m.window.size ∧
      (m.cursors.size ≠ 0 → m.cursors.floor? = some m.base) ∧
      (∀ i o, m.cursors.offset? i = some o → o ≤ m.base + m.window.size) ∧
      (∀ more, m.base ≤ (m.run more).base) ∧
      (m.cursors.size = 0 →
        ∀ more, (m.run more).window = m.window ∧ (m.run more).base = m.base) ∧
      ∀ s, m.step? s = some (m.step s) := by
  intro m handedOut
  have h : m.Valid := valid_run (valid_ofSource options source) steps
  have hs : m.base + m.window.size = handedOut.length := h.base_add_size
  refine ⟨answers_run options source steps, hs, ?_, fun hn => ?_, fun i o ho => ?_,
    fun more => (later_run h more).base_le, fun hn more => ((later_run h more).frozen hn).2,
    step?_eq h⟩
  · rw [List.take_of_length_le (by rw [List.length_drop]; omega)]
    exact h.window
  · rw [Ne, CursorTable.size_eq_zero_iff] at hn
    obtain ⟨i, hi⟩ := Classical.not_forall.mp hn
    obtain ⟨o, ho⟩ := Option.ne_none_iff_exists'.mp hi
    exact h.floor?_eq ho
  · rw [hs]
    exact h.offset_le ho

end Manager

end StreamPeg
