import StreamPeg.Proofs.Demand
import StreamPeg.Proofs.LeftRecursion
import StreamPeg.Proofs.Reached

/-!
# Ids

A manager numbers its cursors one after the other, and a cursor comes into the table under the next
number only. So the ids issued are the numbers below the next one, and one that has left the table
never comes back: every step keeps this (`Numbers`), and so does every run (`numbers_perform`). An
id that is not live is unknown to every operation, with nothing done (`unknown_of_dead`).
-/

namespace StreamPeg

def Event.issued? : Event → Option CursorId
  | .opened id _ => some id
  | .branched id _ _ => some id
  | _ => none

/-- The ids that a journal tells of, the oldest first. -/
def issued (journal : List Event) : List CursorId := (journal.filterMap Event.issued?).reverse

theorem issued_cons {event : Event} (h : event.issued? = none) (journal : List Event) :
    issued (event :: journal) = issued journal := by
  simp [issued, h]

theorem issued_branched (id parent : CursorId) (offset : Nat) (journal : List Event) :
    issued (.branched id parent offset :: journal) = issued journal ++ [id] := by
  simp [issued, Event.issued?]

theorem issued_filled (cs : List Call) (journal : List Event) :
    issued ((cs.map .filled).reverse ++ journal) = issued journal := by
  rw [issued, filterMap_filled fun _ => rfl, issued]

namespace Manager

variable {σ : Type} {m m' m'' : Manager σ} {id : CursorId}

/-! ### Unknown ids -/

/-- Whatever is asked of a cursor with this id, the answer is that there is none, and nothing has
been done. Of two cursors of a commit the target is looked for first. -/
structure Unknown [ByteSource σ] (m : Manager σ) (id : CursorId) : Prop where
  branch : m.branch id = (.error (.unknownCursor id), m)
  read : ∀ count, m.read id count = (.error (.unknownCursor id), m)
  offset : m.offset id = .error (.unknownCursor id)
  dispose : m.dispose id = (.error (.unknownCursor id), m)
  commitInto : ∀ branch, m.commit id branch = (.error (.unknownCursor id), m)
  commitFrom : ∀ target o, m.cursors.offset? target = some o →
    m.commit target id = (.error (.unknownCursor id), m)

theorem unknown_of_dead [ByteSource σ] (ho : m.cursors.offset? id = none) : m.Unknown id where
  branch := branch_of_dead ho
  read := read_of_dead ho
  offset := offset_of_dead ho
  dispose := by rw [Manager.dispose, ho]
  commitInto branch := by rw [commit, ho]
  commitFrom target o ht := by simp only [commit, ht, ho]

/-! ### Numbers -/

/-- If the ids issued so far were the numbers below the next one, then they are still, and none of
them that was not live has come to be live. -/
structure Numbers (m m' : Manager σ) : Prop where
  next_le : m.nextId ≤ m'.nextId
  inOrder : issued m.journal = List.range m.nextId → issued m'.journal = List.range m'.nextId
  dead : ∀ i < m.nextId, m.cursors.offset? i = none → m'.cursors.offset? i = none

namespace Numbers

theorem refl (m : Manager σ) : Numbers m m := ⟨Nat.le_refl _, id, fun _ _ => id⟩

theorem trans (h : Numbers m m') (h' : Numbers m' m'') : Numbers m m'' where
  next_le := Nat.le_trans h.next_le h'.next_le
  inOrder hi := h'.inOrder (h.inOrder hi)
  dead i hi ho := h'.dead i (Nat.lt_of_lt_of_le hi h.next_le) (h.dead i hi ho)

/-- Nothing is issued. -/
theorem same (hn : m'.nextId = m.nextId) (hj : issued m'.journal = issued m.journal)
    (hd : ∀ i, m.cursors.offset? i = none → m'.cursors.offset? i = none) : Numbers m m' where
  next_le := Nat.le_of_eq hn.symm
  inOrder hi := by rw [hj, hn, hi]
  dead i _ := hd i

theorem note (m : Manager σ) {event : Event} (he : event.issued? = none) :
    Numbers m (m.note event) :=
  .same rfl (issued_cons he m.journal) fun _ h => h

theorem shrink (m : Manager σ) : Numbers m m.shrink := by
  refine .same (shrink_nextId m) ?_ fun i h => by rwa [shrink_cursors]
  unfold Manager.shrink
  split
  · rfl
  · split
    · exact issued_cons rfl _
    · rfl

/-- The table may change in any way that makes no cursor live. -/
theorem update (m : Manager σ) {t : CursorTable} {event : Event} (he : event.issued? = none)
    (ht : ∀ i, m.cursors.offset? i = none → t.offset? i = none) :
    Numbers m ({ m with cursors := t, journal := event :: m.journal } : Manager σ).shrink := by
  have hs : Numbers m { m with cursors := t, journal := event :: m.journal } :=
    .same rfl (issued_cons he m.journal) ht
  exact hs.trans (.shrink _)

theorem advance (ho : m.cursors.offset? id ≠ none) (offset : Nat) :
    Numbers m (m.advance id offset) := by
  refine .update m rfl fun i hi => ?_
  have hne : i ≠ id := fun h => ho (by rw [← h, hi])
  rw [CursorTable.offset?_put, if_neg hne, hi]

theorem defer (m : Manager σ) (available : Nat) (out : Pulled) :
    Numbers m (m.defer available out) := by
  cases out with
  | satisfied | ended => exact .refl m
  | failed e => exact .same rfl (issued_cons rfl m.journal) fun _ h => h

theorem drawn (m : Manager σ) (cs : List Call) (out : Pulled) (source : σ) :
    Numbers m (m.drawn cs out source) := by
  refine .same rfl ?_ fun _ h => h
  simp only [Manager.drawn]
  split
  · rw [List.singleton_append, issued_cons rfl, issued_filled]
  · rw [List.nil_append, issued_filled]

theorem goesAlongReads : GoesAlongReads (@Numbers σ) where
  refl := .refl
  trans := .trans
  requested m _ _ := .note m rfl
  held _ _ := .same rfl rfl fun _ h => h
  drawn := .drawn
  defer := .defer
  advance ho := .advance (by simp [ho])

end Numbers

/-! ### Steps and runs -/

theorem numbers_branch (m : Manager σ) (id : CursorId) : Numbers m (m.branch id).2 := by
  unfold branch
  split
  · exact .refl m
  · refine ⟨Nat.le_succ _, fun hissued => ?_, fun i hi ho => ?_⟩
    · rw [issued_branched, hissued, List.range_succ]
    · rw [CursorTable.offset?_put, if_neg (Nat.ne_of_lt hi), ho]

theorem numbers_erase (m : Manager σ) (id : CursorId) {event : Event}
    (he : event.issued? = none) :
    Numbers m
      ({ m with cursors := m.cursors.erase id, journal := event :: m.journal } :
        Manager σ).shrink := by
  refine .update m he fun i hi => ?_
  rw [CursorTable.offset?_erase, hi, ite_self]

/-- The commit puts its target into the table again, which is why it has to be live. -/
theorem numbers_commit (m : Manager σ) (target branch : CursorId) :
    Numbers m (m.commit target branch).2 := by
  unfold commit
  split
  · exact .refl m
  · next ht =>
    split
    · exact .refl m
    · refine .update m rfl fun i hi => ?_
      have hne : i ≠ target := by
        rintro rfl
        rw [hi] at ht
        cases ht
      rw [CursorTable.offset?_put, if_neg hne, CursorTable.offset?_erase, hi, ite_self]

section

variable [ByteSource σ]

theorem numbers_step (h : m.Valid) (s : Step) : Numbers m (m.step s) := by
  cases s with
  | branch id => exact numbers_branch m id
  | read id count => exact Numbers.goesAlongReads.read h id count
  | offset id => exact .refl m
  | commit target branch => exact numbers_commit m target branch
  | dispose id =>
    simp only [step, dispose]
    split
    · exact .refl m
    · exact numbers_erase m id rfl
  | release id =>
    simp only [step, release]
    split
    · exact .refl m
    · exact numbers_erase m id rfl
  | stall rule part => exact .note m rfl

theorem numbers_run (h : m.Valid) (steps : List Step) : Numbers m (m.run steps) := by
  induction steps generalizing m with
  | nil => exact .refl m
  | cons s steps ih => exact (numbers_step h s).trans (ih (valid_step h s))

theorem numbers_perform (h : m.Valid) (actions : List Action) : Numbers m (m.perform actions) := by
  rw [← m.run_steps]
  exact numbers_run h _

/-- The ids of any run, whatever the parses in between.

No id is issued twice, every live one has been issued, and the answer of a branch is an id that has
not been issued before and is live from then on. An id that was issued and is not live has left the
table, and stays away whatever is done. All ids that are not live are unknown. -/
theorem ids_run (options : StreamOptions) (source : σ) (actions : List Action) :
    let m := (ofSource options source).perform actions
    (issued m.journal).Nodup ∧
      (∀ i o, m.cursors.offset? i = some o → i ∈ issued m.journal) ∧
      (∀ parent id m', m.branch parent = (.ok id, m') →
        id ∉ issued m.journal ∧ issued m'.journal = issued m.journal ++ [id] ∧
          m'.cursors.offset? id = m.cursors.offset? parent) ∧
      (∀ i ∈ issued m.journal, m.cursors.offset? i = none →
        ∀ more, (m.perform more).cursors.offset? i = none) ∧
      ∀ i, m.cursors.offset? i = none → m.Unknown i := by
  intro m
  have hstart := valid_ofSource options source
  have h : m.Valid := valid_perform hstart actions
  have hissued : issued m.journal = List.range m.nextId :=
    (numbers_perform hstart actions).inOrder rfl
  have hmem (i : CursorId) : i ∈ issued m.journal ↔ i < m.nextId := by
    rw [hissued, List.mem_range]
  refine ⟨hissued ▸ List.nodup_range, fun i o ho => (hmem i).mpr (h.lt_nextId ho),
    fun parent id m' hb => ?_, fun i hi ho more => ?_, fun i ho => unknown_of_dead ho⟩
  · unfold branch at hb
    split at hb
    · cases hb
    · next o ho =>
      cases hb
      refine ⟨by simp [hmem], issued_branched m.nextId parent o m.journal, ?_⟩
      rw [CursorTable.offset?_put, if_pos rfl, ho]
  · exact (numbers_perform h more).dead i ((hmem i).mp hi) ho

/-- The branches of a parse that fails, with the cursor that it ran on disposed of afterwards, and a
number that has not been issued. -/
theorem ids_run_nested :
    let source := Script.ofPieces [.chunk [40, 120], .failure ⟨.other, "lost"⟩]
    let m := (ofSource {} source).perform
      [.step (.branch 0), .parse .nested 20 0 1, .step (.dispose 1)]
    issued m.journal = [0, 1, 2, 3, 4] ∧ (issued m.journal).Nodup ∧
      (∀ i ∈ [1, 2, 3, 4], m.cursors.offset? i = none ∧ m.Unknown i ∧
        ∀ more, (m.perform more).cursors.offset? i = none) ∧
      m.cursors.offset? 5 = none ∧ m.Unknown 5 := by
  intro source m
  have hissued : issued m.journal = [0, 1, 2, 3, 4] := by decide +kernel
  have hdead : ∀ i ∈ [1, 2, 3, 4, 5], m.cursors.offset? i = none := by decide +kernel
  obtain ⟨hnodup, _, _, hleft, hunknown⟩ := ids_run {} source
    [.step (.branch 0), .parse .nested 20 0 1, .step (.dispose 1)]
  refine ⟨hissued, hnodup, fun i hi => ?_, hdead 5 (by simp), hunknown 5 (hdead 5 (by simp))⟩
  have ho := hdead i (List.mem_append_left [5] hi)
  exact ⟨ho, hunknown i ho, hleft i (hissued ▸ List.mem_cons_of_mem 0 hi) ho⟩

end

end Manager

end StreamPeg
