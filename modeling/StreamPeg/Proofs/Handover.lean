import StreamPeg.Proofs.Branch
import StreamPeg.Proofs.Commit

/-!
# Branches handed over

Whoever commits a branch hands it over for good. If it is of the same stream as the target and both
are live, the target takes its place (`commit_of_live`). If not, the commit is refused, and all that
it does is to release the branch (`commit_refused`). What is done is done in the stream that a
cursor is of, and a cursor of another stream that has the same number stays where it is
(`place?_release`).
-/

namespace StreamPeg

variable {σ : Type}

/-! ### Taking over in one stream -/

namespace Manager

variable {m : Manager σ} {target branch : CursorId} {o offset : Nat}

/-- The commit has removed the branch already. -/
theorem adopt_of_live (ht : m.cursors.offset? target = some o)
    (hb : m.cursors.offset? branch = some offset) (hne : target ≠ branch) :
    m.adopt target branch = (.ok (), (m.commit target branch).2) := by
  have hok : (m.commit target branch).1 = .ok () := by simp only [commit, ht, hb]
  have hgone : (m.commit target branch).2.cursors.offset? branch = none := by
    rw [offset?_commit ht hb, if_neg hne.symm, if_pos rfl]
  show ((m.commit target branch).1, (m.commit target branch).2.release branch) = _
  rw [hok, release_of_dead hgone]

theorem adopt_of_dead_target (ht : m.cursors.offset? target = none) :
    m.adopt target branch = (.error (.unknownCursor target), m.release branch) := by
  simp only [adopt, commit, ht]

theorem adopt_of_dead_branch (ht : m.cursors.offset? target = some o)
    (hb : m.cursors.offset? branch = none) :
    m.adopt target branch = (.error (.unknownCursor branch), m.release branch) := by
  simp only [adopt, commit, ht, hb]

end Manager

/-! ### Several streams -/

namespace Streams

/-- Where a cursor stands in its own stream, if it is live there. -/
def place? (s : Streams σ) (c : Cursor) : Option Nat :=
  s.managers[c.stream]?.bind (·.cursors.offset? c.id)

def Live (s : Streams σ) (c : Cursor) : Prop := ∃ offset, s.offset c = .ok offset

variable {s s' : Streams σ} {target branch c : Cursor} {o offset : Nat}

theorem offset_eq (s : Streams σ) (c : Cursor) :
    s.offset c = (s.place? c).elim (.error (.unknownCursor c.id)) .ok := by
  unfold Streams.offset place?
  cases s.managers[c.stream]? with
  | none => rfl
  | some m =>
    show m.offset c.id = (m.cursors.offset? c.id).elim _ _
    unfold Manager.offset
    cases m.cursors.offset? c.id <;> rfl

theorem offset_congr (h : s.place? c = s'.place? c) : s.offset c = s'.offset c := by
  rw [offset_eq, offset_eq, h]

theorem live_iff : s.Live c ↔ s.place? c ≠ none := by
  unfold Live
  rw [offset_eq]
  cases s.place? c <;> simp

instance (s : Streams σ) (c : Cursor) : Decidable (s.Live c) :=
  decidable_of_iff _ live_iff.symm

theorem place?_onStream {α : Type} (s : Streams σ) (stream : Nat) (absent : α)
    (act : Manager σ → α × Manager σ) (c : Cursor) :
    (s.onStream stream absent act).2.place? c =
      if c.stream = stream then
        s.managers[stream]?.bind fun m => (act m).2.cursors.offset? c.id
      else s.place? c := by
  unfold onStream place?
  cases hm : s.managers[stream]? with
  | none =>
    by_cases hc : c.stream = stream
    · simp [hc, hm]
    · simp [hc]
  | some m =>
    have hlt : stream < s.managers.size := (Array.getElem?_eq_some_iff.mp hm).1
    by_cases hc : c.stream = stream
    · simp [hc, hlt]
    · simp [hc, Ne.symm hc]

/-- Cursors of other streams are not touched, even if they have the same number. -/
theorem place?_release (s : Streams σ) (branch c : Cursor) :
    (s.release branch).place? c = if c = branch then none else s.place? c := by
  obtain ⟨stream, id⟩ := branch
  obtain ⟨stream', id'⟩ := c
  rw [release, place?_onStream]
  simp only [Manager.offset?_release, Cursor.mk.injEq]
  by_cases hs : stream' = stream
  · subst hs
    by_cases hi : id' = id
    · simp [hi]
    · simp [hi, place?]
  · simp [hs]

/-! ### Commits -/

theorem commit_of_live (hs : target.stream = branch.stream) (hne : target ≠ branch)
    (ht : s.place? target = some o) (hb : s.place? branch = some offset) :
    (s.commit target branch).1 = .ok () ∧ ∀ c, (s.commit target branch).2.place? c =
      if c = target then some offset else if c = branch then none else s.place? c := by
  obtain ⟨stream, id⟩ := target
  obtain ⟨_, id'⟩ := branch
  cases hs
  have hid : id ≠ id' := fun h => hne (h ▸ rfl)
  obtain ⟨m, hm, ht⟩ := Option.bind_eq_some_iff.mp ht
  obtain ⟨m', hm', hb⟩ := Option.bind_eq_some_iff.mp hb
  obtain rfl : m = m' := Option.some.inj (hm.symm.trans hm')
  have hadopt := Manager.adopt_of_live ht hb hid
  rw [commit, if_pos rfl, withCursor]
  refine ⟨by simp only [onStream, hm, hadopt], fun c => ?_⟩
  rw [place?_onStream, hm]
  obtain ⟨stream', i⟩ := c
  by_cases hs : stream' = stream
  · subst hs
    simp only [if_true, Option.bind_some, hadopt, Manager.offset?_commit ht hb, place?, hm,
      Cursor.mk.injEq, true_and]
  · simp [hs]

/-- The cursor that is to blame if it cannot be done: the branch if it is of another stream, else
the target if it is not live. -/
def unknown (s : Streams σ) (target branch : Cursor) : CursorId :=
  if target.stream = branch.stream ∧ ¬ s.Live target then target.id else branch.id

theorem commit_refused
    (h : ¬ (target.stream = branch.stream ∧ s.Live target ∧ s.Live branch)) :
    s.commit target branch =
      (.error (.unknownCursor (s.unknown target branch)), s.release branch) := by
  obtain ⟨stream, id⟩ := target
  obtain ⟨stream', id'⟩ := branch
  unfold unknown commit
  by_cases hs : stream = stream'
  · subst hs
    have hlive (i : CursorId) (m : Manager σ) (hm : s.managers[stream]? = some m) :
        s.Live ⟨stream, i⟩ ↔ m.cursors.offset? i ≠ none := by
      simp [live_iff, place?, hm]
    simp only [true_and, if_true, withCursor, release, onStream] at h ⊢
    cases hm : s.managers[stream]? with
    | none =>
      have hdead : ¬ s.Live ⟨stream, id⟩ := by simp [live_iff, place?, hm]
      simp only [hdead, not_false_eq_true, if_true]
    | some m =>
      simp only [hlive _ m hm] at h ⊢
      cases ht : m.cursors.offset? id with
      | none => simp [Manager.adopt_of_dead_target ht]
      | some o =>
        cases hb : m.cursors.offset? id' with
        | none => simp [Manager.adopt_of_dead_branch ht hb]
        | some offset => simp [ht, hb] at h
  · simp only [hs, false_and, if_false]

/-- Two different cursors, of the same stream or of two, live or not, and one of them committed into
the other.

The branch is gone afterwards, and no third cursor has moved. The commit succeeds exactly if both
are cursors of one stream and live, and then the target stands where the branch stood. If not, it
tells which cursor is unknown, and has done nothing but to release the branch; the target is as live
as before, and where it was. -/
theorem commit_hands_over (s : Streams σ) {target branch : Cursor} (hne : target ≠ branch) :
    let result := (s.commit target branch).1
    let after := (s.commit target branch).2
    after.offset branch = .error (.unknownCursor branch.id) ∧
    (∀ c, c ≠ target → c ≠ branch → after.offset c = s.offset c) ∧
    (result = .ok () ↔ target.stream = branch.stream ∧ s.Live target ∧ s.Live branch) ∧
    (result = .ok () → after.offset target = s.offset branch) ∧
    (result ≠ .ok () →
      after = s.release branch ∧ after.offset target = s.offset target ∧
      result = .error (.unknownCursor
        (if target.stream ≠ branch.stream then branch.id
          else if ¬ s.Live target then target.id else branch.id))) := by
  intro result after
  by_cases h : target.stream = branch.stream ∧ s.Live target ∧ s.Live branch
  · obtain ⟨hs, ht, hb⟩ := id h
    rw [live_iff, Option.ne_none_iff_exists'] at ht hb
    obtain ⟨o, ht⟩ := ht
    obtain ⟨offset, hb⟩ := hb
    obtain ⟨hok, hplaces⟩ := commit_of_live hs hne ht hb
    refine ⟨?_, fun c hc hc' => ?_, iff_of_true hok h, fun _ => ?_, fun hno => absurd hok hno⟩
    · rw [offset_eq, hplaces, if_neg hne.symm, if_pos rfl]
      rfl
    · exact offset_congr (by rw [hplaces, if_neg hc, if_neg hc'])
    · rw [offset_eq, offset_eq, hplaces, if_pos rfl, hb]
      rfl
  · have hrefused := commit_refused h
    have hresult : result = .error (.unknownCursor (s.unknown target branch)) :=
      congrArg Prod.fst hrefused
    have hafter : after = s.release branch := congrArg Prod.snd hrefused
    have hno : result ≠ .ok () := by simp [hresult]
    refine ⟨?_, fun c _ hc => ?_, iff_of_false hno h, fun hok => absurd hok hno, fun _ =>
      ⟨hafter, ?_, ?_⟩⟩
    · rw [hafter, offset_eq, place?_release, if_pos rfl]
      rfl
    · exact offset_congr (by rw [hafter, place?_release, if_neg hc])
    · exact offset_congr (by rw [hafter, place?_release, if_neg hne])
    · rw [hresult, unknown]
      by_cases hs : target.stream = branch.stream <;> simp [hs]

/-- Two streams, in each of which the cursor with the number 1 is live. Only the one that is handed
over is released. -/
theorem commit_hands_over_foreign :
    let s : Streams Memory :=
      ⟨#[(Manager.ofSource {} ⟨[97, 98]⟩).run [.branch 0, .read 1 1],
        (Manager.ofSource {} ⟨[120, 121, 122]⟩).run [.branch 0, .read 1 2]]⟩
    let after := (s.commit ⟨0, 1⟩ ⟨1, 1⟩).2
    (⟨0, 1⟩ : Cursor) ≠ ⟨1, 1⟩ ∧ s.offset ⟨0, 1⟩ = .ok 1 ∧ s.offset ⟨1, 1⟩ = .ok 2 ∧
    (s.commit ⟨0, 1⟩ ⟨1, 1⟩).1 = .error (.unknownCursor 1) ∧ after = s.release ⟨1, 1⟩ ∧
    after.offset ⟨0, 1⟩ = .ok 1 ∧ after.offset ⟨1, 1⟩ = .error (.unknownCursor 1) ∧
    after.offset ⟨1, 0⟩ = .ok 0 := by
  intro s after
  have hne : (⟨0, 1⟩ : Cursor) ≠ ⟨1, 1⟩ := by decide
  obtain ⟨hgone, hothers, hiff, _, hfails⟩ := commit_hands_over s hne
  obtain ⟨hafter, hstays, hresult⟩ := hfails fun hok => by simpa using (hiff.mp hok).1
  exact ⟨hne, rfl, rfl, hresult, hafter, hstays, hgone, hothers ⟨1, 0⟩ (by decide) (by decide)⟩

end Streams

end StreamPeg
