import StreamPeg.Cursor.Trace
import StreamPeg.Parse.Action
import StreamPeg.Proofs.Branch
import StreamPeg.Proofs.Demand
import StreamPeg.Proofs.LeftRecursion

/-!
# What the log tells of a run

`Tells m m' written`: between `m` and `m'` these lines have come into the log, to replay them makes
live and not live whatever has come to be so, and they have the window shrink from where it started
in `m` to where it starts in `m'`. Every step tells of itself in this way, and the offsets that it
writes down are true (`exists_tells_step`); so does every run (`exists_tells_run`), and a fresh
manager has told of its first cursor.
-/

namespace StreamPeg

/-- The same cursors are live, wherever they stand. The log has no line for a cursor that goes on,
so it does not tell more. -/
def CursorTable.LiveAlike (t t' : CursorTable) : Prop :=
  ∀ i, (t.offset? i).isSome = (t'.offset? i).isSome

/-- Stretches that go from one offset to the other: each starts where the one before it has ended,
and ends further on. -/
inductive Chained : Nat → List (Nat × Nat) → Nat → Prop
  | nil (offset : Nat) : Chained offset [] offset
  | cons {old new stop : Nat} {stretches : List (Nat × Nat)} :
    old < new → Chained new stretches stop → Chained old ((old, new) :: stretches) stop

/-- What an event says of offsets is true if it leads from `m` to `m'`. -/
def Event.HoldsFor {σ : Type} (m m' : Manager σ) : Event → Prop
  | .branched id parent offset => m.offset parent = .ok offset ∧ m'.offset id = .ok offset
  | .committed branch target offset => m.offset branch = .ok offset ∧ m'.offset target = .ok offset
  | _ => True

namespace CursorTable

theorem LiveAlike.refl (t : CursorTable) : LiveAlike t t := fun _ => rfl

theorem LiveAlike.trans {t t' t'' : CursorTable} (h : LiveAlike t t') (h' : LiveAlike t' t'') :
    LiveAlike t t'' := fun i => (h i).trans (h' i)

theorem LiveAlike.apply {t t' : CursorTable} (h : LiveAlike t t') (event : Event) :
    LiveAlike (event.apply t) (event.apply t') := by
  intro i
  cases event with
  | opened | branched | advanced =>
    simp only [Event.apply, offset?_put]
    split
    · rfl
    · exact h i
  | disposed | released =>
    simp only [Event.apply, offset?_erase]
    split
    · rfl
    · exact h i
  | committed =>
    simp only [Event.apply, offset?_put, offset?_erase]
    split
    · rfl
    · split
      · rfl
      · exact h i
  | _ => exact h i

theorem LiveAlike.put {t : CursorTable} {id : CursorId} {o : Nat} (ho : t.offset? id = some o)
    (offset : Nat) : LiveAlike t (t.put id offset) := by
  intro i
  rw [offset?_put]
  split
  · next hi => rw [hi, ho]; rfl
  · rfl

end CursorTable

theorem Chained.append {a b c : Nat} {xs ys : List (Nat × Nat)} (h : Chained a xs b)
    (h' : Chained b ys c) : Chained a (xs ++ ys) c := by
  induction h with
  | nil => exact h'
  | cons hlt _ ih => exact .cons hlt (ih h')

theorem Event.holdsFor_of_shrunk {σ : Type} {event : Event} (h : event.shrunk? ≠ none)
    (m m' : Manager σ) : event.HoldsFor m m' := by
  cases event with
  | shrunk => trivial
  | _ => exact absurd rfl h

namespace Manager

variable {σ : Type} {m m' m'' : Manager σ}

structure Tells (m m' : Manager σ) (written : List Record) : Prop where
  log_eq : m'.log = m.log ++ written
  live : ∀ t : CursorTable, t.LiveAlike m.cursors →
    ((told written).foldl Event.apply t).LiveAlike m'.cursors
  chained : Chained m.base (shrinks written) m'.base

namespace Tells

variable {written written' : List Record}

theorem trans (h : Tells m m' written) (h' : Tells m' m'' written') :
    Tells m m'' (written ++ written') where
  log_eq := by rw [h'.log_eq, h.log_eq, List.append_assoc]
  live t ht := by
    rw [told_append, List.foldl_append]
    exact h'.live _ (h.live t ht)
  chained := by
    rw [shrinks_append]
    exact h.chained.append h'.chained

/-- An event that is told of, with a table that has changed just as it says. -/
theorem enter {event : Event} (hw : event.words ≠ []) (hs : event.shrunk? = none)
    (hj : m'.journal = event :: m.journal) (hc : m'.cursors = event.apply m.cursors)
    (hb : m'.base = m.base) : Tells m m' event.record?.toList where
  log_eq := by rw [log, hj, logOf_cons, log]
  live t ht := by
    rw [told_of_words_ne_nil hw, hc]
    exact ht.apply event
  chained := by
    rw [shrinks, told_of_words_ne_nil hw, List.filterMap_cons_none hs, hb]
    exact .nil m.base

end Tells

/-! ### What is told of the window alone -/

/-- Whatever the log tells between `m` and `m'`, no cursor comes or goes, and none is committed. -/
def TellsOfWindow (m m' : Manager σ) : Prop :=
  ∃ written, Tells m m' written ∧ ∀ event ∈ told written, event.shrunk? ≠ none

namespace TellsOfWindow

theorem trans (h : TellsOfWindow m m') (h' : TellsOfWindow m' m'') : TellsOfWindow m m'' := by
  obtain ⟨written, ht, hs⟩ := h
  obtain ⟨written', ht', hs'⟩ := h'
  refine ⟨written ++ written', ht.trans ht', fun event he => ?_⟩
  rw [told_append, List.mem_append] at he
  exact he.elim (hs event) (hs' event)

/-- The lines tell nothing, and there is nothing to tell. -/
theorem untold {written : List Record} (hl : m'.log = m.log ++ written) (ht : told written = [])
    (hc : m.cursors.LiveAlike m'.cursors) (hb : m'.base = m.base) : TellsOfWindow m m' := by
  refine ⟨written, ⟨hl, fun t h => ?_, ?_⟩, by simp [ht]⟩
  · rw [ht]
    exact h.trans hc
  · rw [shrinks, ht, hb]
    exact .nil m.base

theorem refl (m : Manager σ) : TellsOfWindow m m :=
  untold (List.append_nil _).symm rfl (.refl _) rfl

/-- An event without words may move a cursor, if it is live. -/
theorem silent {event : Event} (hw : event.words = []) (hj : m'.journal = event :: m.journal)
    (hc : m.cursors.LiveAlike m'.cursors) (hb : m'.base = m.base) : TellsOfWindow m m' := by
  have hl : m'.log = m.log ++ event.record?.toList := by rw [log, hj, logOf_cons, log]
  exact untold hl (told_of_words_eq_nil hw) hc hb

theorem shrink (m : Manager σ) : TellsOfWindow m m.shrink := by
  unfold Manager.shrink
  split
  · exact .refl m
  · next floor _ =>
    split
    · next hlt =>
      have ht : told (Event.shrunk m.base floor).record?.toList = [.shrunk m.base floor] :=
        told_of_words_ne_nil (List.cons_ne_nil _ _)
      refine ⟨_, ⟨logOf_cons (.shrunk m.base floor) m.journal, ?_, ?_⟩, ?_⟩
      · rw [ht]
        exact fun t h => h
      · rw [shrinks, ht]
        exact .cons hlt (.nil floor)
      · simp [ht, Event.shrunk?]
    · exact .refl m

theorem advance {id : CursorId} {o : Nat} (ho : m.cursors.offset? id = some o) (offset : Nat) :
    TellsOfWindow m (m.advance id offset) := by
  have hput : TellsOfWindow m
      { m with cursors := m.cursors.put id offset, journal := .advanced id offset :: m.journal } :=
    .silent rfl rfl (.put ho offset) rfl
  exact hput.trans (.shrink _)

theorem defer (m : Manager σ) (available : Nat) (out : Pulled) :
    TellsOfWindow m (m.defer available out) := by
  cases out with
  | satisfied | ended => exact .refl m
  | failed e =>
    have hw : (Event.deferred available).words = [] := rfl
    exact .silent hw rfl (.refl _) rfl

theorem drawn (m : Manager σ) (cs : List Call) (out : Pulled) (source : σ) :
    TellsOfWindow m (m.drawn cs out source) := by
  -- What has been read has no line, and that for the end of the source tells of no cursor.
  by_cases ho : out = .ended
  · have hlog : (m.drawn cs out source).log = m.log ++
        (Event.exhausted (m.base + m.window.size + (given cs).length)).record?.toList := by
      simp only [log, Manager.drawn, if_pos ho, List.singleton_append, logOf_cons, logOf_filled]
    exact .untold hlog (told_of_words_eq_nil rfl) (.refl _) rfl
  · have hlog : (m.drawn cs out source).log = m.log ++ [] := by
      simp only [log, Manager.drawn, if_neg ho, List.nil_append, logOf_filled, List.append_nil]
    exact .untold hlog rfl (.refl _) rfl

theorem goesAlongReads : GoesAlongReads (@TellsOfWindow σ) where
  refl := .refl
  trans := .trans
  requested _ _ _ := .silent rfl rfl (.refl _) rfl
  held _ _ := .untold (List.append_nil _).symm rfl (.refl _) rfl
  drawn := .drawn
  defer := .defer
  advance := .advance

theorem holds (h : TellsOfWindow m m') :
    ∃ written, Tells m m' written ∧ ∀ event ∈ told written, event.HoldsFor m m' := by
  obtain ⟨written, ht, hs⟩ := h
  exact ⟨written, ht, fun event he => Event.holdsFor_of_shrunk (hs event he) m m'⟩

end TellsOfWindow

/-! ### Steps -/

/-- An event that is told of changes the table, and then the window shrinks. -/
theorem exists_tells_shrink {event : Event} (hw : event.words ≠ []) (hs : event.shrunk? = none)
    (hj : m'.journal = event :: m.journal) (hc : m'.cursors = event.apply m.cursors)
    (hb : m'.base = m.base) (hh : event.HoldsFor m m'.shrink) :
    ∃ written, Tells m m'.shrink written ∧ ∀ e ∈ told written, e.HoldsFor m m'.shrink := by
  obtain ⟨written, ht, hshrunk⟩ := TellsOfWindow.shrink m'
  refine ⟨_, (Tells.enter hw hs hj hc hb).trans ht, fun e he => ?_⟩
  rw [told_append, told_of_words_ne_nil hw, List.mem_append, List.mem_singleton] at he
  rcases he with rfl | he
  · exact hh
  · exact Event.holdsFor_of_shrunk (hshrunk e he) m m'.shrink

theorem exists_tells_branch (m : Manager σ) (id : CursorId) :
    ∃ written, Tells m (m.branch id).2 written ∧
      ∀ event ∈ told written, event.HoldsFor m (m.branch id).2 := by
  unfold branch
  split
  · exact (TellsOfWindow.refl m).holds
  · next offset ho =>
    have hw : (Event.branched m.nextId id offset).words ≠ [] := List.cons_ne_nil _ _
    refine ⟨_, Tells.enter hw rfl rfl rfl rfl, fun event he => ?_⟩
    rw [told_of_words_ne_nil hw, List.mem_singleton] at he
    subst he
    refine ⟨by rw [Manager.offset, ho], ?_⟩
    simp only [Manager.offset, CursorTable.offset?_put, if_true]

theorem exists_tells_commit (m : Manager σ) (target branch : CursorId) :
    ∃ written, Tells m (m.commit target branch).2 written ∧
      ∀ event ∈ told written, event.HoldsFor m (m.commit target branch).2 := by
  unfold commit
  split
  · exact (TellsOfWindow.refl m).holds
  · split
    · exact (TellsOfWindow.refl m).holds
    · next offset ho =>
      have hw : (Event.committed branch target offset).words ≠ [] := List.cons_ne_nil _ _
      refine exists_tells_shrink hw rfl rfl rfl rfl ⟨by rw [Manager.offset, ho], ?_⟩
      simp only [Manager.offset, shrink_cursors, CursorTable.offset?_put, if_true]

section

variable [ByteSource σ]

theorem exists_tells_step (h : m.Valid) (s : Step) :
    ∃ written, Tells m (m.step s) written ∧
      ∀ event ∈ told written, event.HoldsFor m (m.step s) := by
  cases s with
  | branch id => exact exists_tells_branch m id
  | read id count => exact (TellsOfWindow.goesAlongReads.read h id count).holds
  | offset id => exact (TellsOfWindow.refl m).holds
  | commit target branch => exact exists_tells_commit m target branch
  | dispose id =>
    simp only [step, dispose]
    split
    · exact (TellsOfWindow.refl m).holds
    · have hw : (Event.disposed id).words ≠ [] := List.cons_ne_nil _ _
      exact exists_tells_shrink hw rfl rfl rfl rfl trivial
  | release id =>
    simp only [step, release]
    split
    · exact (TellsOfWindow.refl m).holds
    · have hw : (Event.released id).words ≠ [] := List.cons_ne_nil _ _
      exact exists_tells_shrink hw rfl rfl rfl rfl trivial
  | stall rule part =>
    have hnote : TellsOfWindow m (m.note (.stalled rule part)) := .silent rfl rfl (.refl _) rfl
    exact hnote.holds

theorem exists_tells_run (h : m.Valid) (steps : List Step) :
    ∃ written, Tells m (m.run steps) written := by
  induction steps generalizing m with
  | nil =>
    obtain ⟨written, ht, _⟩ := TellsOfWindow.refl m
    exact ⟨written, ht⟩
  | cons s steps ih =>
    obtain ⟨written, ht, _⟩ := exists_tells_step h s
    obtain ⟨written', ht'⟩ := ih (valid_step h s)
    exact ⟨written ++ written', ht.trans ht'⟩

/-! ### Answers that a cursor is unknown -/

/-- The step asks for a cursor that is not live, and the answer says so. -/
def AnswersUnknown (m : Manager σ) : Step → Prop
  | .branch id => ∃ i, (m.branch id).1 = .error (.unknownCursor i)
  | .read id count => ∃ i, (m.read id count).1 = .error (.unknownCursor i)
  | .offset id => ∃ i, m.offset id = .error (.unknownCursor i)
  | .commit target branch => ∃ i, (m.commit target branch).1 = .error (.unknownCursor i)
  | .dispose id => ∃ i, (m.dispose id).1 = .error (.unknownCursor i)
  | .release _ | .stall .. => False

theorem step_of_answersUnknown (h : m.Valid) {s : Step} (hs : m.AnswersUnknown s) :
    m.step s = m := by
  cases s with
  | branch id =>
    obtain ⟨i, hi⟩ := hs
    revert hi
    simp only [step, branch]
    split
    · exact fun _ => rfl
    · intro hi
      cases hi
  | read id count =>
    obtain ⟨i, hi⟩ := hs
    cases ho : m.cursors.offset? id with
    | none => rw [step, read_of_dead ho]
    | some o =>
      obtain ⟨_, hknown⟩ := shifted_of_read h ho (rfl : m.read id count = _)
      exact absurd hi (hknown i)
  | offset id => rfl
  | commit target branch =>
    obtain ⟨i, hi⟩ := hs
    revert hi
    simp only [step, commit]
    split
    · exact fun _ => rfl
    · split
      · exact fun _ => rfl
      · intro hi
        cases hi
  | dispose id =>
    obtain ⟨i, hi⟩ := hs
    revert hi
    simp only [step, dispose]
    split
    · exact fun _ => rfl
    · intro hi
      cases hi
  | release id => cases hs
  | stall rule part => cases hs

/-! ### The log of a run -/

/-- The log at every moment of a run with any parses in it, also in the midst of a parse.

To replay it from its first line on gives the cursors that are live. The window has shrunk from the
start of the data to where it starts now, without a gap. Whatever is done next, the offset that a
branch or a commit writes down is where the cursors stand then, and a step that is answered that a
cursor is unknown writes nothing. -/
theorem log_run (options : StreamOptions) (source : σ) (actions : List Action) :
    let start := ofSource options source
    let steps := start.steps actions
    start.run steps = start.perform actions ∧
      ∀ before, before <+: steps →
        let m := start.run before
        (∀ i, ((replayLog m.log).offset? i).isSome = (m.cursors.offset? i).isSome) ∧
          Chained 0 (shrinks m.log) m.base ∧
          ∀ s, ∃ written, (m.step s).log = m.log ++ written ∧
            (∀ record ∈ written, ∀ event, record.event? = some event →
              event.HoldsFor m (m.step s)) ∧
            (m.AnswersUnknown s → written = []) := by
  intro start steps
  refine ⟨start.run_steps actions, fun before _ => ?_⟩
  intro m
  have hstart : start.Valid := valid_ofSource options source
  have h : m.Valid := valid_run hstart before
  have hw : (Event.opened .root 0).words ≠ [] := List.cons_ne_nil _ _
  have hopened : told start.log = [.opened .root 0] := told_of_words_ne_nil hw
  -- The log is the line for the first cursor, and then whatever the run has told.
  obtain ⟨written, ht⟩ := exists_tells_run hstart before
  refine ⟨fun i => ?_, ?_, fun s => ?_⟩
  · rw [replayLog, ht.log_eq, told_append, hopened]
    exact ht.live start.cursors (.refl _) i
  · rw [ht.log_eq, shrinks_append, shrinks, hopened]
    exact ht.chained
  · obtain ⟨written, ht, hh⟩ := exists_tells_step h s
    refine ⟨written, ht.log_eq, fun record hr event he => ?_, fun hs => ?_⟩
    · exact hh event (List.mem_filterMap.mpr ⟨record, hr, he⟩)
    · have hlog := ht.log_eq
      rw [step_of_answersUnknown h hs] at hlog
      exact List.self_eq_append_right.mp hlog

/-- A moment in the midst of the second parse of a run, where a match inside the group is about to
be committed. The cursor that is disposed of has been committed by the first parse, and the source
fails later on. -/
theorem log_run_nested :
    let source := Script.ofPieces [.chunk [120, 40, 120], .failure ⟨.other, "lost"⟩]
    let actions : List Action := [.parse .nested 20 0 0, .parse .nested 20 0 0]
    let before : List Step :=
      [.branch 0, .read 1 1, .release 1, .branch 0, .read 2 1, .commit 0 2, .release 2,
        .branch 0, .read 3 1, .branch 3, .read 4 1, .release 4, .branch 3, .read 5 1]
    let m := (ofSource {} source).run before
    before <+: (ofSource {} source).steps actions ∧
      (∀ i, ((replayLog m.log).offset? i).isSome = (m.cursors.offset? i).isSome) ∧
      shrinks m.log = [(0, 1)] ∧ Chained 0 (shrinks m.log) m.base ∧
      (m.step (.commit 3 5)).log =
        m.log ++ [⟨.trace, "committed cursor #5 into #3 at offset 3"⟩] ∧
      m.offset 5 = .ok 3 ∧ (m.step (.commit 3 5)).offset 3 = .ok 3 ∧
      m.AnswersUnknown (.dispose 2) ∧ (m.step (.dispose 2)).log = m.log := by
  intro source actions before m
  have hbefore : before <+: (ofSource {} source).steps actions := by decide +kernel
  have hshrinks : shrinks m.log = [(0, 1)] := by decide +kernel
  have hcommit : (m.step (.commit 3 5)).log =
      m.log ++ [⟨.trace, "committed cursor #5 into #3 at offset 3"⟩] := by decide +kernel
  have hevent : Record.event? ⟨.trace, "committed cursor #5 into #3 at offset 3"⟩ =
      some (.committed 5 3 3) := by decide +kernel
  have hdead : m.cursors.offset? 2 = none := by decide +kernel
  have hunknown : m.AnswersUnknown (.dispose 2) := ⟨2, by rw [dispose, hdead]⟩
  obtain ⟨_, hmoment⟩ := log_run {} source actions
  obtain ⟨hlive, hchained, hstep⟩ := hmoment before hbefore
  obtain ⟨written, hlog, hholds, _⟩ := hstep (.commit 3 5)
  obtain ⟨written', hlog', _, hnone⟩ := hstep (.dispose 2)
  obtain rfl := List.append_cancel_left (hcommit.symm.trans hlog)
  obtain ⟨hbranch, htarget⟩ := hholds _ List.mem_cons_self _ hevent
  rw [hnone hunknown, List.append_nil] at hlog'
  exact ⟨hbefore, hlive, hshrinks, hchained, hcommit, hbranch, htarget, hunknown, hlog'⟩

end

end Manager

end StreamPeg
