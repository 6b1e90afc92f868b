import StreamPeg.Proofs.Demand
import StreamPeg.Proofs.Front
import StreamPeg.Proofs.Settled
import StreamPeg.Proofs.Stack
import StreamPeg.Source.Memory

/-!
# Bytes that no parse has pulled

Two managers are the `SameUpTo` a position `w` if they have the same cursors and have received
equally many bytes, and the first `w` bytes of their fronts are the same. As long as no more than
these are received and the end of the data is not met, a read finds the same in both of them and
leaves them the same, and so does a plan (`Plan.local_run`). So nothing behind the bytes that a
parse has pulled has any influence on it (`parse_local`).
-/

namespace StreamPeg

/-! ### The end of the data -/

namespace Manager

variable {σ : Type} [ByteSource σ] {m : Manager σ}

/-- A read that finds the end of the data says so. -/
theorem exists_atEnd_of_exhausted (h : m.Valid) (hx : m.exhausted = false) {id : CursorId}
    {count : Nat} (hx' : (m.read id count).2.exhausted = true) :
    ∃ chunk, (m.read id count).1 = .ok chunk ∧ chunk.atEnd = true := by
  cases ho : m.cursors.offset? id with
  | none =>
    rw [read_of_dead ho, hx] at hx'
    cases hx'
  | some o =>
    obtain ⟨cs, out, m₁, _, hp, hr⟩ := exists_read h ho count
    have hended : m₁.exhausted = true → out = .ended := by
      intro hx₁
      cases out with
      | satisfied =>
        rw [(hp.satisfied rfl).2] at hx₁
        exact absurd (hx₁.symm.trans hx) (by simp)
      | ended => rfl
      | failed e => exact absurd (hx₁.symm.trans (hp.failed e rfl).2) (by simp)
    rcases hr with ⟨e, rfl, _, hr⟩ | ⟨_, hr⟩
    · rw [hr] at hx'
      cases hended hx'
    · rw [hr, advance, shrink_exhausted] at hx'
      have hx₁ : m₁.exhausted = true :=
        (defer_fields m₁ (m₁.buffered o count).length out).2.2.2.2.2.1.symm.trans hx'
      rw [hr]
      exact ⟨_, rfl, decide_eq_true (hended hx₁)⟩

end Manager

/-- The end of the data is not found without a chunk that is marked with it. -/
theorem Course.exhausted_eq_false {σ : Type} [ByteSource σ] {m m' : Manager σ}
    {xs : List (Reading σ)} (h : Course m xs m') (hm : m.Valid) (hx : m.exhausted = false)
    (hends : ∀ x ∈ xs, x.meetsEnd = false) : m'.exhausted = false := by
  induction h with
  | nil => exact hx
  | @step m _ _ s hs _ ih =>
    exact ih (Manager.valid_step hm s) ((m.quiet_step hs).exhausted.trans hx) hends
  | read x _ ih =>
    refine ih (Manager.valid_step hm _) ?_ fun y hy => hends y (List.mem_cons_of_mem _ hy)
    refine Bool.eq_false_iff.mpr fun hx' => ?_
    obtain ⟨chunk, hc, hend⟩ := Manager.exists_atEnd_of_exhausted hm hx hx'
    have hmeets : x.meetsEnd = chunk.atEnd := by rw [Reading.meetsEnd, Reading.answer, hc]
    rw [hends x List.mem_cons_self, hend] at hmeets
    cases hmeets

/-! ### Fronts that agree for a while -/

namespace Front

variable {f f' : Front} {offset count : Nat}

theorem read_of_full (h : ((f.bytes.drop offset).take count).length = count) :
    f.read offset count = .ok ⟨offset, (f.bytes.drop offset).take count, false⟩ := by
  rw [Front.read, if_pos h]

theorem read_of_short (hf : f.failure = none)
    (h : ((f.bytes.drop offset).take count).length ≠ count) :
    f.read offset count = .ok ⟨offset, (f.bytes.drop offset).take count, true⟩ := by
  rw [Front.read, if_neg h, hf]

/-- What a front has before `w` is all that matters in front of `w`. -/
theorem take_drop_eq {w : Nat} (h : f'.bytes.take w = f.bytes.take w) (hw : offset + count ≤ w) :
    (f'.bytes.drop offset).take count = (f.bytes.drop offset).take count := by
  have hcut (bs : List UInt8) :
      (bs.drop offset).take count = ((bs.take w).drop offset).take count := by
    rw [List.drop_take, List.take_take, Nat.min_eq_left (by omega)]
  rw [hcut f'.bytes, h, ← hcut]

end Front

namespace Manager

variable {σ : Type}

/-- Neither the end of the data nor anything behind the first `w` bytes has come so far. -/
structure Inside (w : Nat) (m : Manager σ) : Prop where
  unended : m.exhausted = false
  length_le : (received m.journal).length ≤ w

theorem Later.inside [ByteSource σ] {w : Nat} {m m' : Manager σ} (h : Later m m')
    (hw : Inside w m') : Inside w m where
  unended := Bool.eq_false_iff.mpr fun hx => Bool.eq_false_iff.mp hw.unended (h.ended hx)
  length_le := by
    obtain ⟨bs, hbs, _⟩ := h.exists_received
    have hle := hw.length_le
    rw [hbs, List.length_append] at hle
    omega

/-- A read that has got all it asked for, and what it leaves. -/
structure InFull [FiniteSource σ] (m : Manager σ) (id : CursorId) (offset count : Nat)
    (m' : Manager σ) : Prop where
  answer : m.read id count = (.ok ⟨offset, (m.front.bytes.drop offset).take count, false⟩, m')
  valid : m'.Valid
  cursors : m'.cursors = m.cursors.put id (offset + count)
  nextId : m'.nextId = m.nextId
  readAhead : m'.readAhead = m.readAhead
  front_eq : m'.front = m.front
  received : (received m'.journal).length = max (received m.journal).length (offset + count)

variable [FiniteSource σ] {m : Manager σ} {id : CursorId} {offset count : Nat}

theorem exists_inFull (h : m.Valid) (hahead : m.readAhead = 0)
    (ho : m.cursors.offset? id = some offset)
    (hfull : ((m.front.bytes.drop offset).take count).length = count) :
    ∃ m', InFull m id offset count m' := by
  obtain ⟨hanswer, hfront⟩ := read_eq_front_read h ho count
  rw [Front.read_of_full hfull] at hanswer
  have hread : m.read id count =
      (.ok ⟨offset, (m.front.bytes.drop offset).take count, false⟩, (m.read id count).2) :=
    Prod.ext hanswer rfl
  have hgiven := given_of_read h ho hread
  obtain ⟨cs, hcs, _, hlen, _⟩ := exists_asked_of_read h ho count
  have hrec := congrArg List.length hcs.received_eq
  have hwithin := hgiven.within
  rw [List.length_append] at hrec
  rw [h.base_add_size, hahead] at hlen
  dsimp only at hwithin
  obtain ⟨_, out, m₁, _, hp, ⟨e, _, _, hr⟩ | ⟨_, hr⟩⟩ := exists_read h ho count
  · rw [hr] at hanswer
    cases hanswer
  obtain ⟨hc, _, hn, _⟩ := defer_fields m₁ (m₁.buffered offset count).length out
  have hbytes : m₁.buffered offset count = (m.front.bytes.drop offset).take count := by
    rw [hr] at hanswer
    exact congrArg Chunk.bytes (Except.ok.inj hanswer)
  refine ⟨(m.read id count).2, hread, hgiven.valid, ?_, ?_, hcs.readAhead, hfront _ hanswer, ?_⟩
  · rw [hr, advance, shrink_cursors, hc, hp.cursors, hbytes, hfull]
    rfl
  · rw [hr, advance, shrink_nextId, hn, hp.nextId]
    rfl
  · omega

/-- A read that does not meet the end of the data gets all it asks for, if nothing fails. -/
theorem full_of_inside (h : m.Valid) (hfail : m.front.failure = none) {w : Nat}
    (ho : m.cursors.offset? id = some offset) (hw : Inside w (m.read id count).2) :
    ((m.front.bytes.drop offset).take count).length = count ∧ offset + count ≤ w := by
  have hanswer := (read_eq_front_read h ho count).1
  have hfull : ((m.front.bytes.drop offset).take count).length = count := by
    refine Decidable.not_not.mp fun hshort => ?_
    rw [Front.read_of_short hfail hshort] at hanswer
    obtain ⟨_, hx, _⟩ := (given_of_read h ho (Prod.ext hanswer rfl)).atEnd rfl
    exact Bool.eq_false_iff.mp hw.unended hx
  rw [Front.read_of_full hfull] at hanswer
  have hwithin := (given_of_read h ho (Prod.ext hanswer rfl)).within
  dsimp only at hwithin
  rw [hfull] at hwithin
  exact ⟨hfull, Nat.le_trans hwithin hw.length_le⟩

end Manager

/-! ### Managers that are the same in front -/

variable {σ σ' : Type} [FiniteSource σ] [FiniteSource σ'] {m : Manager σ} {m' : Manager σ'}
  {w : Nat}

/-- The same to all that stay in front of `w`. The first of them has no failure to come. -/
structure SameUpTo (w : Nat) (m : Manager σ) (m' : Manager σ') : Prop where
  valid : m.Valid
  valid' : m'.Valid
  cursors : m'.cursors = m.cursors
  nextId : m'.nextId = m.nextId
  received : (received m'.journal).length = (received m.journal).length
  readAhead : m.readAhead = 0
  readAhead' : m'.readAhead = 0
  failure : m.front.failure = none
  bytes : m'.front.bytes.take w = m.front.bytes.take w

namespace SameUpTo

theorem offset_eq (h : SameUpTo w m m') (id : CursorId) : m'.offset id = m.offset id := by
  rw [Manager.offset, Manager.offset, h.cursors]

theorem table_of_step (h : SameUpTo w m m') {s : Step} (hs : ∀ id count, s ≠ .read id count) :
    (m'.step s).cursors = (m.step s).cursors ∧ (m'.step s).nextId = (m.step s).nextId := by
  have hc := h.cursors
  have hn := h.nextId
  cases s with
  | read id count => exact absurd rfl (hs id count)
  | offset | stall => exact ⟨hc, hn⟩
  | branch id =>
    simp only [Manager.step, Manager.branch, hc, hn]
    split
    · exact ⟨hc, hn⟩
    · exact ⟨rfl, rfl⟩
  | dispose id =>
    simp only [Manager.step, Manager.dispose, hc]
    split
    · exact ⟨hc, hn⟩
    · exact ⟨by simp, by simpa using hn⟩
  | release id =>
    simp only [Manager.step, Manager.release, hc]
    split
    · exact ⟨hc, hn⟩
    · exact ⟨by simp, by simpa using hn⟩
  | commit target branch =>
    simp only [Manager.step, Manager.commit, hc]
    split
    · exact ⟨hc, hn⟩
    · split
      · exact ⟨hc, hn⟩
      · exact ⟨by simp, by simpa using hn⟩

/-- A step that reads nothing leaves both the same. -/
theorem step (h : SameUpTo w m m') {s : Step} (hs : ∀ id count, s ≠ .read id count) :
    SameUpTo w (m.step s) (m'.step s) where
  valid := Manager.valid_step h.valid s
  valid' := Manager.valid_step h.valid' s
  cursors := (h.table_of_step hs).1
  nextId := (h.table_of_step hs).2
  received := by
    rw [StreamPeg.received, StreamPeg.received, (m.quiet_step hs).calls_eq,
      (m'.quiet_step hs).calls_eq]
    exact h.received
  readAhead := (m.unmarked_step hs).readAhead.trans h.readAhead
  readAhead' := (m'.unmarked_step hs).readAhead.trans h.readAhead'
  failure := by
    rw [(m.quiet_step hs).front_eq]
    exact h.failure
  bytes := by
    rw [(m.quiet_step hs).front_eq, (m'.quiet_step hs).front_eq]
    exact h.bytes

theorem release (h : SameUpTo w m m') (id : CursorId) : SameUpTo w (m.release id) (m'.release id) :=
  h.step (s := .release id) (by simp)

theorem note (h : SameUpTo w m m') (rule part : String) :
    SameUpTo w (m.note (.stalled rule part)) (m'.note (.stalled rule part)) :=
  h.step (s := .stall rule part) (by simp)

theorem exists_branch (h : SameUpTo w m m') (id : CursorId) :
    ∃ result n n', m.branch id = (result, n) ∧ m'.branch id = (result, n') ∧ SameUpTo w n n' := by
  have hsame : (m'.branch id).1 = (m.branch id).1 := by
    rw [Manager.branch, Manager.branch, h.cursors, h.nextId]
    split <;> rfl
  exact ⟨_, _, _, rfl, Prod.ext hsame rfl, h.step (s := .branch id) (by simp)⟩

theorem exists_adopt (h : SameUpTo w m m') (target branch : CursorId) :
    ∃ result n n', m.adopt target branch = (result, n) ∧
      m'.adopt target branch = (result, n') ∧ SameUpTo w n n' := by
  have hsame : (m'.commit target branch).1 = (m.commit target branch).1 := by
    rw [Manager.commit, Manager.commit, h.cursors]
    split
    · rfl
    · split <;> rfl
  exact ⟨_, _, _, rfl, Prod.ext hsame rfl,
    (h.step (s := .commit target branch) (by simp)).release branch⟩

/-- A read that stays in front of `w` and of the end of the data finds the same in both. -/
theorem exists_read (h : SameUpTo w m m') (id : CursorId) (count : Nat)
    (hw : Manager.Inside w (m.read id count).2) :
    ∃ result n n', m.read id count = (result, n) ∧ m'.read id count = (result, n') ∧
      SameUpTo w n n' := by
  cases ho : m.cursors.offset? id with
  | none =>
    have ho' : m'.cursors.offset? id = none := h.cursors ▸ ho
    exact ⟨_, m, m', Manager.read_of_dead ho count, Manager.read_of_dead ho' count, h⟩
  | some offset =>
    have ho' : m'.cursors.offset? id = some offset := h.cursors ▸ ho
    obtain ⟨hfull, hle⟩ := Manager.full_of_inside h.valid h.failure ho hw
    have hsame := Front.take_drop_eq h.bytes hle
    obtain ⟨n, hn⟩ := Manager.exists_inFull h.valid h.readAhead ho hfull
    obtain ⟨n', hn'⟩ := Manager.exists_inFull h.valid' h.readAhead' ho' (hsame ▸ hfull)
    refine ⟨_, n, n', hn.answer, hsame ▸ hn'.answer, ?_⟩
    constructor
    case valid => exact hn.valid
    case valid' => exact hn'.valid
    case cursors => rw [hn.cursors, hn'.cursors, h.cursors]
    case nextId => rw [hn.nextId, hn'.nextId, h.nextId]
    case received => rw [hn.received, hn'.received, h.received]
    case readAhead => exact hn.readAhead.trans h.readAhead
    case readAhead' => exact hn'.readAhead.trans h.readAhead'
    case failure => rw [hn.front_eq, h.failure]
    case bytes => rw [hn.front_eq, hn'.front_eq, h.bytes]

/-- With a live cursor the windows start at the same place, and so they are equally long. -/
theorem stats_eq (h : SameUpTo w m m') {id : CursorId} {o : Nat}
    (ho : m.cursors.offset? id = some o) : m'.stats = m.stats := by
  have hfloor := h.valid.floor?_eq ho
  have hfloor' := h.valid'.floor?_eq (h.cursors ▸ ho)
  rw [h.cursors, hfloor] at hfloor'
  have hbase : m.base = m'.base := Option.some.inj hfloor'
  have hsize := h.valid.base_add_size
  have hsize' := h.valid'.base_add_size
  have hreceived := h.received
  have hbuffered : m'.window.size = m.window.size := by omega
  rw [Manager.stats, Manager.stats, ← hbase, hbuffered, h.cursors]

end SameUpTo

/-! ### Plans on managers that are the same in front -/

/-- Where the one stays in front of `w` and of the end of the data, the other does the same. -/
def Parser.Local (w : Nat) (p : Parser σ) (p' : Parser σ') : Prop :=
  ∀ {m : Manager σ} {m' : Manager σ'} (id : CursorId), SameUpTo w m m' →
    Manager.Inside w (p id m).2 →
    ∃ result n n', p id m = (result, n) ∧ p' id m' = (result, n') ∧ SameUpTo w n n'

theorem Parser.later_attempt (p : Parser σ) {id branch : CursorId} {m₁ : Manager σ}
    (hb : m.branch id = (.ok branch, m₁)) :
    Manager.Later (p branch m₁).2 (attempt p id m).2 := by
  simp only [attempt, hb]
  rcases p branch m₁ with ⟨e | _, m₂⟩
  · exact Manager.later_release m₂ branch
  · have h : Manager.Later m₂ (m₂.adopt id branch).2 :=
      (Manager.later_commit m₂ id branch).trans (Manager.later_release _ branch)
    dsimp only
    revert h
    rcases m₂.adopt id branch with ⟨_ | _, m₃⟩ <;> exact fun h => h

theorem Parser.local_attempt {p : Parser σ} {p' : Parser σ'} (h : Parser.Local w p p') :
    Parser.Local w (attempt p) (attempt p') := by
  intro m m' id hm hw
  obtain ⟨result, m₁, m₁', hb, hb', h₁⟩ := hm.exists_branch id
  cases result with
  | error e =>
    simp only [attempt, hb, hb']
    exact ⟨_, m₁, m₁', rfl, rfl, h₁⟩
  | ok branch =>
    obtain ⟨tried, m₂, m₂', hp, hp', h₂⟩ := h branch h₁ ((later_attempt p hb).inside hw)
    simp only [attempt, hb, hb', hp, hp']
    cases tried with
    | error e => exact ⟨_, _, _, rfl, rfl, h₂.release branch⟩
    | ok =>
      obtain ⟨taken, m₃, m₃', ha, ha', h₃⟩ := h₂.exists_adopt id branch
      simp only [ha, ha']
      cases taken <;> exact ⟨_, m₃, m₃', rfl, rfl, h₃⟩

namespace Plan

theorem inside_of_run (p : Plan) {id : CursorId} (h : m.Valid)
    (hw : Manager.Inside w (p.run id m).2) : Manager.Inside w m := by
  rw [← p.run_steps] at hw
  exact (Manager.later_run h _).inside hw

theorem local_run (p : Plan) : Parser.Local w (p.run : Parser σ) (p.run : Parser σ') := by
  intro m m' id hm hw
  induction p generalizing m m' id with
  | done result => exact ⟨result, m, m', rfl, rfl, hm⟩
  | read count next ih =>
    have hv := Manager.valid_read hm.valid id count
    obtain ⟨answer, n, n', hr, hr', hn⟩ := hm.exists_read id count (inside_of_run _ hv hw)
    simp only [run, hr] at hw
    simp only [run, hr, hr']
    exact ih answer id hn hw
  | offset next ih =>
    simp only [run, hm.offset_eq]
    exact ih _ id hm hw
  | attempt tried next ih ih' =>
    have hv : (Parser.attempt tried.run id m).2.Valid := by
      rw [← Parser.run_attemptSteps tried.run_steps]
      exact Manager.valid_run hm.valid _
    obtain ⟨result, n, n', ha, ha', hn⟩ :=
      Parser.local_attempt (fun id h hw => ih id h hw) id hm (inside_of_run _ hv hw)
    simp only [run, ha] at hw
    simp only [run, ha, ha']
    exact ih' result id hn hw
  | stall rule part next ih => exact ih id (hm.note rule part) hw

end Plan

namespace RuleGraph

theorem sameUpTo_ofSource {source : σ} {source' : σ'}
    (hf : (frontOf (FiniteSource.upcoming source)).failure = none)
    (hbytes : (frontOf (FiniteSource.upcoming source')).bytes.take w =
      (frontOf (FiniteSource.upcoming source)).bytes.take w) :
    SameUpTo w (.ofSource {} source) (.ofSource {} source') where
  valid := Manager.valid_ofSource {} source
  valid' := Manager.valid_ofSource {} source'
  cursors := rfl
  nextId := rfl
  received := rfl
  readAhead := rfl
  readAhead' := rfl
  failure := hf
  bytes := hbytes

/-- A depth that is enough for both parses lets them follow one plan. -/
theorem local_parse {g : RuleGraph} {r : RuleId} (hr : g.NonLeftRecursive r) :
    Parser.Local w (g.parse r : Parser σ) (g.parse r : Parser σ') := by
  intro m m' id hm hw
  have ha := parser_eq_parse hm.valid hr
    (Nat.le_max_left _ (g.depthLimit m'.available)) id
  have hb := parser_eq_parse hm.valid' hr
    (Nat.le_max_right (g.depthLimit m.available) _) id
  rw [← g.run_plan] at ha hb
  rw [← ha] at hw
  rw [← ha, ← hb]
  exact (g.plan _ r).local_run id hm hw

/-- An input that does not fail, and another one that is the same as far as the parse of the first
has pulled, in whatever pieces they come from their sources. If that parse never obtained a chunk
marked as the last one of the data, the parse of the other answers the same, and leaves the cursor
and the statistics of the window the same. Behind what was pulled, the other input may go on with
anything, end or fail. -/
theorem parse_local (g : RuleGraph) (r : RuleId) (source : σ) (source' : σ')
    (hr : g.NonLeftRecursive r)
    (hf : (frontOf (FiniteSource.upcoming source)).failure = none) :
    let m := Manager.ofSource {} source
    let a := g.parse r .root m
    let b := g.parse r .root (.ofSource {} source')
    let w := a.2.base + a.2.window.size
    (∀ x ∈ g.readings (g.depthLimit m.available) r .root m, x.meetsEnd = false) →
    (frontOf (FiniteSource.upcoming source')).bytes.take w =
      (frontOf (FiniteSource.upcoming source)).bytes.take w →
    a.1 = b.1 ∧ a.2.offset .root = b.2.offset .root ∧ a.2.stats = b.2.stats ∧
      (g.matchSource r source).1 = (g.matchSource r source').1 := by
  intro m a b w hends hbytes
  have hm : m.Valid := Manager.valid_ofSource {} source
  obtain ⟨pos, _, hs⟩ := g.parser_shifts (g.depthLimit m.available) r hm
    (rfl : m.cursors.offset? .root = some 0)
  have hw : a.2.Inside w := by
    have hcourse := (g.plan (g.depthLimit m.available) r).course_run .root m
    rw [g.run_plan] at hcourse
    exact ⟨hcourse.exhausted_eq_false hm rfl hends, Nat.le_of_eq hs.valid.base_add_size.symm⟩
  obtain ⟨result, n, n', hn, hn', hsame⟩ := local_parse hr .root (sameUpTo_ofSource hf hbytes) hw
  have hanswer : a.1 = b.1 := by
    rw [show a = (result, n) from hn, show b = (result, n') from hn']
  have hstate : SameUpTo w a.2 b.2 := by
    rw [show a = (result, n) from hn, show b = (result, n') from hn']
    exact hsame
  have hoffset : a.2.offset .root = b.2.offset .root := (hstate.offset_eq .root).symm
  exact ⟨hanswer, hoffset, (hstate.stats_eq hs.offset_self).symm,
    matchSource_congr hanswer hoffset⟩

/-- The three bytes of a match, once with another group begun behind them and once from a source
that breaks down behind them. -/
theorem parse_local_nested :
    let source : Memory := ⟨[40, 120, 41, 40]⟩
    let source' := Script.ofPieces [.chunk [40, 120], .chunk [41], .failure ⟨.other, "lost"⟩]
    let a := nested.parse 0 .root (.ofSource {} source)
    let b := nested.parse 0 .root (.ofSource {} source')
    a.1 = .ok () ∧ a.2.base + a.2.window.size = 3 ∧ a.1 = b.1 ∧
      a.2.offset .root = b.2.offset .root ∧ a.2.stats = b.2.stats ∧
      (nested.matchSource 0 source).1 = (nested.matchSource 0 source').1 := by
  intro source source'
  dsimp only
  have hends : ∀ x ∈ nested.readings (nested.depthLimit (Manager.ofSource {} source).available) 0
      .root (.ofSource {} source), x.meetsEnd = false := by
    decide +kernel
  have hlocal := parse_local nested 0 source source' nonLeftRecursive_nested (by decide) hends
  have hw : (nested.parse 0 .root (.ofSource {} source)).2.base +
      (nested.parse 0 .root (.ofSource {} source)).2.window.size = 3 := by
    decide +kernel
  rw [hw] at hlocal
  exact ⟨by decide +kernel, hw, hlocal (by decide)⟩

end RuleGraph

end StreamPeg
