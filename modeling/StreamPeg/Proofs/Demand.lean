import StreamPeg.Proofs.Failures

/-!
# Only on demand

A source is asked by reads alone, and only for what they lack. `OnDemand missing readAhead cs` says
how a read asks that lacks so many bytes: for these and the bytes read ahead, less what this read
has been given already, until they have come or a call brings none. `Asked m cs m'` collects what
any step from `m` to `m'` leaves of its calls: after an end of the data there are none, and the end
is written down by the step that meets it, with the number of bytes that have come till then.

Of other relations between managers it is enough to know that they go along with each part of a read
(`GoesAlongReads.read`).
-/

namespace StreamPeg

structure OnDemand (missing readAhead : Nat) (cs : List Call) : Prop where
  asks : ∀ before c after, cs = before ++ c :: after →
    (given before).length < missing ∧ c.requested = missing + readAhead - (given before).length ∧
      ∀ b ∈ before, b.answer.given ≠ []
  stops : missing ≤ (given cs).length ∨ ∃ before c, cs = before ++ [c] ∧ c.answer.given = []

theorem OnDemand.eq_nil {readAhead : Nat} {cs : List Call} (h : OnDemand 0 readAhead cs) :
    cs = [] := by
  cases cs with
  | nil => rfl
  | cons c cs => exact absurd (h.asks [] c cs rfl).1 (Nat.not_lt_zero _)

/-! ### Draws -/

namespace Draw

variable {σ : Type} [ByteSource σ] {needed wanted : Nat} {s s' : σ} {cs : List Call} {out : Pulled}

theorem asks (h : Draw needed wanted s cs out s') (before : List Call) (c : Call)
    (after : List Call) (hc : cs = before ++ c :: after) :
    (given before).length < needed ∧ c.requested = wanted - (given before).length ∧
      ∀ b ∈ before, b.answer.given ≠ [] := by
  induction h generalizing before with
  | done => simp at hc
  | ended hn | failed hn =>
    cases before with
    | nil =>
      obtain ⟨rfl, -⟩ := List.cons.inj hc
      exact ⟨hn, rfl, nofun⟩
    | cons b before => simp at hc
  | @more needed wanted _ _ _ bs _ _ hn hb _ _ ih =>
    cases before with
    | nil =>
      obtain ⟨rfl, -⟩ := List.cons.inj hc
      exact ⟨hn, rfl, nofun⟩
    | cons b before =>
      obtain ⟨rfl, hrest⟩ := List.cons.inj hc
      obtain ⟨hlt, hreq, hgo⟩ := ih before hrest
      simp only [given_cons, Answer.given_bytes, List.length_append]
      refine ⟨by omega, by omega, fun b' hb' => ?_⟩
      rcases List.mem_cons.mp hb' with rfl | hb'
      · exact hb
      · exact hgo b' hb'

theorem stops (h : Draw needed wanted s cs out s') (ho : out ≠ .satisfied) :
    ∃ before c, cs = before ++ [c] ∧ c.answer.given = [] := by
  induction h with
  | done => exact absurd rfl ho
  | ended => exact ⟨[], _, rfl, rfl⟩
  | failed => exact ⟨[], _, rfl, rfl⟩
  | more _ _ _ _ ih =>
    obtain ⟨before, c, rfl, hc⟩ := ih ho
    exact ⟨_ :: before, c, rfl, hc⟩

/-- The source keeps its promise, so a draw never brings more than was asked for at first. -/
theorem length_given_le (h : Draw needed wanted s cs out s') : (given cs).length ≤ wanted := by
  induction h with
  | done => exact Nat.zero_le _
  | ended => exact Nat.zero_le _
  | failed => exact Nat.zero_le _
  | @more _ wanted s _ _ bs _ _ _ _ hf _ ih =>
    have hle := ByteSource.length_fill_le s wanted
    rw [hf, Answer.given_bytes] at hle
    rw [given_cons, Answer.given_bytes, List.length_append]
    omega

/-- A draw goes on only after a call that has brought a byte. -/
theorem pairwise (h : Draw needed wanted s cs out s') :
    cs.Pairwise fun c _ => c.ends = false := by
  induction h with
  | done => exact .nil
  | ended => exact List.pairwise_singleton _ _
  | failed => exact List.pairwise_singleton _ _
  | more _ hb _ _ ih => exact .cons (fun _ _ => by simp [Call.ends, hb]) ih

theorem onDemand {readAhead : Nat} (h : Draw needed (needed + readAhead) s cs out s') :
    OnDemand needed readAhead cs where
  asks := h.asks
  stops := by
    by_cases ho : out = .satisfied
    · exact .inl (h.le_length_given ho)
    · exact .inr (h.stops ho)

end Draw

/-! ### Ends written down -/

def Event.endsAt? : Event → Option Nat
  | .exhausted offset => some offset
  | _ => none

/-- The ends of the data that a journal tells of, the newest first. -/
def ends (journal : List Event) : List Nat := journal.filterMap Event.endsAt?

theorem ends_cons {event : Event} (h : event.endsAt? = none) (journal : List Event) :
    ends (event :: journal) = ends journal := by
  simp [ends, h]

theorem ends_filled (cs : List Call) (journal : List Event) :
    ends ((cs.map .filled).reverse ++ journal) = ends journal :=
  filterMap_filled (fun _ => rfl) cs journal

/-- The line of the log that tells of an end of the data. -/
def exhaustedRecord (offset : Nat) : Record :=
  ⟨.debug, "byte source exhausted at offset " ++ toString offset⟩

theorem exhaustedRecord_inj {x y : Nat} : exhaustedRecord x = exhaustedRecord y ↔ x = y := by
  refine ⟨fun h => ?_, congrArg _⟩
  have hr : x.repr = y.repr := by simpa [exhaustedRecord] using h
  rw [Nat.repr_eq_ofList_toDigits, Nat.repr_eq_ofList_toDigits, String.ofList_inj] at hr
  rw [← Nat.ofDigitChars_ten_toDigits (n := x), hr, Nat.ofDigitChars_ten_toDigits]

/-- No other event writes this line, also not the other one that is only of interest to debug. -/
theorem record?_eq_exhaustedRecord {event : Event} {x : Nat} :
    event.record? = some (exhaustedRecord x) ↔ event.endsAt? = some x := by
  cases event with
  | exhausted y =>
    rw [show (Event.exhausted y).record? = some (exhaustedRecord y) from rfl, Option.some.injEq,
      exhaustedRecord_inj, Event.endsAt?, Option.some.injEq]
  | deferred available =>
    refine iff_of_false (fun h => ?_) (by simp [Event.endsAt?])
    have hc := congrArg (fun record => record.text.toList.head?) (Option.some.inj h)
    simp [exhaustedRecord] at hc
  | _ => simp [Event.record?, exhaustedRecord, Event.endsAt?]

theorem count_exhaustedRecord (journal : List Event) (x : Nat) :
    (journal.filterMap Event.record?).count (exhaustedRecord x) = (ends journal).count x := by
  rw [ends, List.count_filterMap, List.count_filterMap]
  refine List.countP_congr fun event _ => ?_
  rw [beq_iff_eq, beq_iff_eq, record?_eq_exhaustedRecord]

namespace Manager

variable {σ : Type}

/-! ### Steps that write no end -/

structure Unmarked (m m' : Manager σ) : Prop where
  readAhead : m'.readAhead = m.readAhead
  ends_eq : ends m'.journal = ends m.journal

namespace Unmarked

variable {m m' m'' : Manager σ}

theorem trans (h : Unmarked m m') (h' : Unmarked m' m'') : Unmarked m m'' where
  readAhead := h'.readAhead.trans h.readAhead
  ends_eq := h'.ends_eq.trans h.ends_eq

theorem update (m : Manager σ) (t : CursorTable) (next : CursorId) {event : Event}
    (he : event.endsAt? = none) :
    Unmarked m { m with cursors := t, nextId := next, journal := event :: m.journal } :=
  ⟨rfl, ends_cons he _⟩

theorem shrink (m : Manager σ) : Unmarked m m.shrink := by
  unfold Manager.shrink
  split
  · exact ⟨rfl, rfl⟩
  · split
    · exact ⟨rfl, ends_cons rfl _⟩
    · exact ⟨rfl, rfl⟩

theorem updateShrink (m : Manager σ) (t : CursorTable) {event : Event}
    (he : event.endsAt? = none) :
    Unmarked m ({ m with cursors := t, journal := event :: m.journal } : Manager σ).shrink :=
  (update m t m.nextId he).trans (.shrink _)

theorem defer (m : Manager σ) (available : Nat) (out : Pulled) :
    Unmarked m (m.defer available out) := by
  cases out with
  | satisfied | ended => exact ⟨rfl, rfl⟩
  | failed => exact ⟨rfl, ends_cons rfl _⟩

end Unmarked

variable [ByteSource σ] {m m' m'' : Manager σ}

theorem unmarked_step (m : Manager σ) {s : Step} (hs : ∀ id count, s ≠ .read id count) :
    Unmarked m (m.step s) := by
  cases s with
  | read id count => exact absurd rfl (hs id count)
  | offset id => exact ⟨rfl, rfl⟩
  | stall rule part => exact ⟨rfl, ends_cons rfl _⟩
  | branch id =>
    simp only [step, branch]
    split
    · exact ⟨rfl, rfl⟩
    · exact .update m _ _ rfl
  | dispose id =>
    simp only [step, dispose]
    split
    · exact ⟨rfl, rfl⟩
    · exact .updateShrink m _ rfl
  | release id =>
    simp only [step, release]
    split
    · exact ⟨rfl, rfl⟩
    · exact .updateShrink m _ rfl
  | commit target branch =>
    simp only [step, commit]
    split
    · exact ⟨rfl, rfl⟩
    · split
      · exact ⟨rfl, rfl⟩
      · exact .updateShrink m _ rfl

theorem quiet_step (m : Manager σ) {s : Step} (hs : ∀ id count, s ≠ .read id count) :
    Quiet m (m.step s) := by
  cases s with
  | read id count => exact absurd rfl (hs id count)
  | branch id => exact m.quiet_branch id
  | offset id => exact .refl m
  | commit target branch => exact m.quiet_commit target branch
  | dispose id => exact m.quiet_dispose id
  | release id => exact m.quiet_release id
  | stall rule part => exact m.quiet_note rfl

/-! ### What is asked -/

structure Asked (m : Manager σ) (cs : List Call) (m' : Manager σ) : Prop where
  calls_eq : calls m'.journal = calls m.journal ++ cs
  answers : Answers m.source cs m'.source
  readAhead : m'.readAhead = m.readAhead
  exhausted : m'.exhausted = (m.exhausted || cs.any (·.ends))
  shut : m.exhausted = true → cs = []
  requested : ∀ c ∈ cs, 0 < c.requested
  pairwise : cs.Pairwise fun c _ => c.ends = false
  ends_eq : ends m'.journal =
    (if cs.any (·.ends) then [(received m'.journal).length] else []) ++ ends m.journal

namespace Asked

variable {cs cs' : List Call}

theorem nil (hc : calls m'.journal = calls m.journal) (hx : m'.exhausted = m.exhausted)
    (hs : m'.source = m.source) (h : Unmarked m m') : Asked m [] m' where
  calls_eq := by rw [hc, List.append_nil]
  answers := hs ▸ .nil m.source
  readAhead := h.readAhead
  exhausted := by rw [hx, List.any_nil, Bool.or_false]
  shut _ := rfl
  requested := by simp
  pairwise := .nil
  ends_eq := h.ends_eq

theorem quiet (h : Quiet m m') (h' : Unmarked m m') : Asked m [] m' :=
  .nil h.calls_eq h.exhausted h.source h'

theorem received_eq (h : Asked m cs m') : received m'.journal = received m.journal ++ given cs := by
  rw [received, h.calls_eq, given_append, received]

theorem trans (h : Asked m cs m') (h' : Asked m' cs' m'') : Asked m (cs ++ cs') m'' where
  calls_eq := by rw [h'.calls_eq, h.calls_eq, List.append_assoc]
  answers := h.answers.append h'.answers
  readAhead := h'.readAhead.trans h.readAhead
  exhausted := by rw [h'.exhausted, h.exhausted, List.any_append, Bool.or_assoc]
  shut hx := by rw [h.shut hx, h'.shut (by rw [h.exhausted, hx, Bool.true_or]), List.append_nil]
  requested c hc := (List.mem_append.mp hc).elim (h.requested c) (h'.requested c)
  pairwise := by
    refine List.pairwise_append.mpr ⟨h.pairwise, h'.pairwise, fun c hc c' hc' => ?_⟩
    -- A call that ends the data would have left none to follow.
    refine Bool.eq_false_iff.mpr fun he => ?_
    have hx : m'.exhausted = true := by
      rw [h.exhausted, List.any_eq_true.mpr ⟨c, hc, he⟩, Bool.or_true]
    rw [h'.shut hx] at hc'
    cases hc'
  ends_eq := by
    rw [h'.ends_eq, h.ends_eq, List.any_append]
    cases ha : cs.any (·.ends) with
    | false => rfl
    | true =>
      have hnil : cs' = [] := h'.shut (by rw [h.exhausted, ha, Bool.or_true])
      have hr : received m''.journal = received m'.journal := by
        rw [h'.received_eq, hnil, given_nil, List.append_nil]
      rw [hnil, hr]
      rfl

end Asked

/-! ### Pulls and reads -/

theorem pull_of_shut (h : m.held ≠ none ∨ m.exhausted = true) (needed : Nat) :
    ∃ held, (m.pull needed).2 = { m with held := held } := by
  unfold pull
  split
  · exact ⟨m.held, rfl⟩
  · cases hh : m.held with
    | some e => exact ⟨none, rfl⟩
    | none =>
      have hx := h.resolve_left (not_not_intro hh)
      refine ⟨m.held, ?_⟩
      show (if m.exhausted = true then (Pulled.ended, m) else _).2 = m
      rw [if_pos hx]

theorem exists_draw_of_pull (hh : m.held = none) (hx : m.exhausted = false) (needed : Nat) :
    ∃ cs out s', Draw needed (needed + m.readAhead) m.source cs out s' ∧
      (m.pull needed).2 = m.drawn cs out s' := by
  unfold pull
  split
  · next hn =>
    subst hn
    exact ⟨[], .satisfied, m.source, .done, by simp [drawn]⟩
  · obtain ⟨cs, s', hd, he⟩ := exists_draw needed needed (needed + m.readAhead) (Nat.le_refl _) m
    simp only [hh, hx, Bool.false_eq_true, if_false]
    exact ⟨cs, _, s', hd, he⟩

omit [ByteSource σ] in
/-- The relation goes along with all that a read may do, part by part. -/
structure GoesAlongReads (R : Manager σ → Manager σ → Prop) : Prop where
  refl (m : Manager σ) : R m m
  trans {m m' m'' : Manager σ} : R m m' → R m' m'' → R m m''
  requested (m : Manager σ) (id : CursorId) (count : Nat) : R m (m.note (.requested id count))
  held (m : Manager σ) (held : Option SourceFailure) : R m { m with held := held }
  drawn (m : Manager σ) (cs : List Call) (out : Pulled) (source : σ) : R m (m.drawn cs out source)
  defer (m : Manager σ) (available : Nat) (out : Pulled) : R m (m.defer available out)
  advance {m : Manager σ} {id : CursorId} {o : Nat} (ho : m.cursors.offset? id = some o)
    (offset : Nat) : R m (m.advance id offset)

namespace GoesAlongReads

variable {R : Manager σ → Manager σ → Prop}

theorem pull (hR : GoesAlongReads R) (m : Manager σ) (needed : Nat) : R m (m.pull needed).2 := by
  by_cases h : m.held ≠ none ∨ m.exhausted = true
  · obtain ⟨held, hp⟩ := pull_of_shut h needed
    rw [hp]
    exact hR.held m held
  · rw [not_or, Decidable.not_not, Bool.not_eq_true] at h
    obtain ⟨cs, out, s', -, hp⟩ := exists_draw_of_pull h.1 h.2 needed
    rw [hp]
    exact hR.drawn m cs out s'

theorem read (hR : GoesAlongReads R) (h : m.Valid) (id : CursorId) (count : Nat) :
    R m (m.read id count).2 := by
  cases ho : m.cursors.offset? id with
  | none =>
    rw [read_of_dead ho]
    exact hR.refl m
  | some offset =>
    obtain ⟨cs, out, m', hq, hp, hr⟩ := exists_read h ho count
    have hpull := hR.pull (m.note (.requested id count))
      (count - (m.buffered offset count).length)
    rw [hq] at hpull
    have hm : R m m' := hR.trans (hR.requested m id count) hpull
    rcases hr with ⟨e, _, _, hr⟩ | ⟨_, hr⟩
    · rw [hr]
      exact hm
    · rw [hr]
      have ho' : (m'.defer (m'.buffered offset count).length out).cursors.offset? id =
          some offset := by
        rw [(defer_fields m' _ out).1, hp.cursors]
        exact ho
      exact hR.trans (hR.trans hm (hR.defer m' _ out)) (hR.advance ho' _)

end GoesAlongReads

theorem asked_drawn (h : m.Sound) (hx : m.exhausted = false) {needed wanted : Nat}
    (hw : needed ≤ wanted) {cs : List Call} {out : Pulled} {s' : σ}
    (hd : Draw needed wanted m.source cs out s') : Asked m cs (m.drawn cs out s') where
  calls_eq := calls_drawn m cs out s'
  answers := hd.answers
  readAhead := rfl
  exhausted := by rw [hd.any_ends]; rfl
  shut he := by rw [hx] at he; cases he
  requested := hd.requested_pos hw
  pairwise := hd.pairwise
  ends_eq := by
    have hr : (received (m.drawn cs out s').journal).length =
        m.base + m.window.size + (given cs).length := by
      rw [received, calls_drawn, given_append, List.length_append, h.base_add_size, received]
    rw [hd.any_ends, hr, ends, drawn, List.filterMap_append]
    show _ ++ ends ((cs.map Event.filled).reverse ++ m.journal) = _
    rw [ends_filled]
    by_cases he : out = .ended <;> simp [he, Event.endsAt?]

/-- What a pull asks, if it may ask at all. -/
theorem exists_asked_of_pull (h : m.Sound) (needed : Nat) :
    ∃ cs, Asked m cs (m.pull needed).2 ∧
      (cs ≠ [] → 0 < needed ∧ m.held = none ∧ m.exhausted = false) ∧
      (given cs).length ≤ needed + m.readAhead ∧
      (m.held = none → m.exhausted = false → OnDemand needed m.readAhead cs) := by
  by_cases hopen : m.held = none ∧ m.exhausted = false
  · obtain ⟨hh, hx⟩ := hopen
    obtain ⟨cs, out, s', hd, he⟩ := exists_draw_of_pull hh hx needed
    rw [he]
    refine ⟨cs, asked_drawn h hx (Nat.le_add_right _ _) hd, fun hne => ⟨?_, hh, hx⟩,
      hd.length_given_le, fun _ _ => hd.onDemand⟩
    refine Nat.pos_of_ne_zero fun hzero => hne ?_
    subst hzero
    exact hd.onDemand.eq_nil
  · have hshut : m.held ≠ none ∨ m.exhausted = true := by
      rwa [Classical.not_and_iff_not_or_not, Bool.not_eq_false] at hopen
    obtain ⟨held, he⟩ := pull_of_shut hshut needed
    rw [he]
    exact ⟨[], .nil rfl rfl rfl ⟨rfl, rfl⟩, fun hne => absurd rfl hne, Nat.zero_le _,
      fun hh hx => absurd ⟨hh, hx⟩ hopen⟩

/-- A read lacks what is not buffered, and after it has asked for that it asks for nothing more. -/
theorem exists_asked_of_read (h : m.Valid) {id : CursorId} {o : Nat}
    (ho : m.cursors.offset? id = some o) (count : Nat) :
    ∃ cs, Asked m cs (m.read id count).2 ∧
      (cs ≠ [] → m.base + m.window.size < o + count ∧ m.held = none ∧ m.exhausted = false) ∧
      (given cs).length ≤ o + count - (m.base + m.window.size) + m.readAhead ∧
      (m.held = none → m.exhausted = false →
        OnDemand (o + count - (m.base + m.window.size)) m.readAhead cs) := by
  have hlack : count - (m.buffered o count).length = o + count - (m.base + m.window.size) := by
    have hl := h.offset_le ho
    rw [h.length_buffered (h.le_offset ho), h.base_add_size]
    omega
  have hnote : Asked m [] (m.note (.requested id count)) :=
    .quiet (quiet_note m rfl) ⟨rfl, ends_cons rfl _⟩
  obtain ⟨_, out, m', hq, _, hr⟩ := exists_read h ho count
  obtain ⟨cs, hcs, hcause, hlen, hdemand⟩ :=
    exists_asked_of_pull (h.note (.requested id count) rfl).toSound
      (count - (m.buffered o count).length)
  rw [hlack] at hq hcs hcause hlen hdemand
  rw [hq] at hcs
  refine ⟨cs, ?_, fun hne => ⟨Nat.lt_of_sub_pos (hcause hne).1, (hcause hne).2⟩, hlen, hdemand⟩
  rcases hr with ⟨e, _, _, hr⟩ | ⟨_, hr⟩
  · rw [hr]
    exact hnote.trans hcs
  · obtain ⟨_, _, _, hds, _, hdx, hdc⟩ := defer_fields m' (m'.buffered o count).length out
    have hdefer := Asked.nil hdc hdx hds (.defer m' (m'.buffered o count).length out)
    have hadvance := Asked.quiet (quiet_advance (m'.defer (m'.buffered o count).length out) id
      (o + (m'.buffered o count).length)) (.updateShrink _ _ rfl)
    rw [hr, ← List.append_nil cs]
    exact (hnote.trans hcs).trans (hdefer.trans hadvance)

/-! ### Runs -/

theorem exists_asked_of_step (h : m.Valid) (s : Step) :
    ∃ cs, Asked m cs (m.step s) ∧
      (cs ≠ [] → ∃ id count o, s = .read id count ∧ m.cursors.offset? id = some o ∧
        m.base + m.window.size < o + count ∧ m.held = none ∧ m.exhausted = false) ∧
      ∀ id count o, s = .read id count → m.cursors.offset? id = some o → m.held = none →
        m.exhausted = false →
        OnDemand (o + count - (m.base + m.window.size)) m.readAhead cs := by
  have hother (hs : ∀ id count, s ≠ .read id count) : Asked m [] (m.step s) :=
    .quiet (m.quiet_step hs) (m.unmarked_step hs)
  cases s with
  | read id count =>
    cases ho : m.cursors.offset? id with
    | none =>
      rw [step, read_of_dead ho]
      refine ⟨[], .quiet (.refl m) ⟨rfl, rfl⟩, by simp, ?_⟩
      rintro _ _ o ⟨⟩ ho'
      rw [ho] at ho'
      cases ho'
    | some o =>
      obtain ⟨cs, hcs, hcause, _, hdemand⟩ := exists_asked_of_read h ho count
      refine ⟨cs, hcs, fun hne => ⟨id, count, o, rfl, ho, hcause hne⟩, ?_⟩
      rintro _ _ o' ⟨⟩ ho'
      obtain rfl : o = o' := Option.some.inj (ho.symm.trans ho')
      exact hdemand
  | branch | offset | commit | dispose | release | stall =>
    exact ⟨[], hother (by simp), by simp, by simp⟩

theorem exists_asked_of_run (h : m.Valid) (steps : List Step) :
    ∃ cs, Asked m cs (m.run steps) := by
  induction steps generalizing m with
  | nil => exact ⟨[], .quiet (.refl m) ⟨rfl, rfl⟩⟩
  | cons s steps ih =>
    obtain ⟨cs, hcs, _⟩ := exists_asked_of_step h s
    obtain ⟨cs', hcs'⟩ := ih (valid_step h s)
    exact ⟨cs ++ cs', hcs.trans hcs'⟩

/-- The source in any run, and what one more step asks of it.

It has answered one call after the other, none of them for no bytes, and none after the one that
found the end of the data. The log tells of this end once, and of where it is. The next step makes a
call only if it is a read of a live cursor that lacks bytes, with no failure held back and no end
found, and then it makes the calls that bring these bytes. -/
theorem source_run (options : StreamOptions) (source : σ) (steps : List Step) :
    let m := (ofSource options source).run steps
    Answers source (calls m.journal) m.source ∧
      (∀ c ∈ calls m.journal, 0 < c.requested) ∧
      ((calls m.journal).Pairwise fun c _ => c.ends = false) ∧
      (∀ x, (m.journal.filterMap Event.record?).count (exhaustedRecord x) =
        if (calls m.journal).any (·.ends) ∧ x = (received m.journal).length then 1 else 0) ∧
      ∀ s, ∃ cs, calls (m.step s).journal = calls m.journal ++ cs ∧
        Answers m.source cs (m.step s).source ∧
        (cs ≠ [] → ∃ id count o, s = .read id count ∧ m.cursors.offset? id = some o ∧
          m.base + m.window.size < o + count ∧ m.held = none ∧ m.exhausted = false) ∧
        ∀ id count o, s = .read id count → m.cursors.offset? id = some o → m.held = none →
          m.exhausted = false →
          OnDemand (o + count - (m.base + m.window.size)) options.readAhead cs := by
  intro m
  have hstart := valid_ofSource options source
  have h : m.Valid := valid_run hstart steps
  obtain ⟨cs, hcs⟩ := exists_asked_of_run hstart steps
  have hcalls : calls m.journal = cs := hcs.calls_eq
  have hahead : m.readAhead = options.readAhead := hcs.readAhead
  refine ⟨answers_run options source steps, ?_, ?_, fun x => ?_, fun s => ?_⟩
  · rw [hcalls]
    exact hcs.requested
  · rw [hcalls]
    exact hcs.pairwise
  · have hends : ends m.journal =
        (if cs.any (·.ends) then [(received m.journal).length] else []) ++ [] := hcs.ends_eq
    rw [count_exhaustedRecord, hends, hcalls, List.append_nil]
    cases cs.any (·.ends) with
    | false => simp
    | true =>
      rw [if_pos rfl, List.count_singleton]
      simp only [beq_iff_eq, true_and, @eq_comm _ x]
  · obtain ⟨cs', hcs', hcause, hdemand⟩ := exists_asked_of_step h s
    rw [hahead] at hdemand
    exact ⟨cs', hcs'.calls_eq, hcs'.answers, hcause, hdemand⟩

end Manager

end StreamPeg
