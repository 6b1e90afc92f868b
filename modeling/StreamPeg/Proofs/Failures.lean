import StreamPeg.Proofs.Bounds
import StreamPeg.Proofs.Outlook

/-!
# What becomes of a failure

A failure that the source answers with is raised by the read that has met it, or else held back
behind the bytes that this read gives. `raised` are the failures that the reads of a run raise; with
the one that is held back they are all that the source has answered with, each once and in their
order. A read is `Starved` when it asks for bytes and nothing is buffered before its cursor: as long
as a run has none (`Fed`) a failure stays held back and the source is left alone, and the first one
raises it (`failures_run`).
-/

namespace StreamPeg.Manager

variable {σ : Type}

/-- The cursor stands at the end of the window, and a byte at least is asked for. -/
def Starved (m : Manager σ) (id : CursorId) (count : Nat) : Prop :=
  m.cursors.offset? id = some (m.base + m.window.size) ∧ 0 < count

instance (m : Manager σ) (id : CursorId) (count : Nat) : Decidable (m.Starved id count) :=
  inferInstanceAs (Decidable (_ ∧ _))

theorem Sound.buffered_eq_nil_iff {m : Manager σ} (h : m.Sound) {id : CursorId} {o : Nat}
    (ho : m.cursors.offset? id = some o) {count : Nat} (hc : 0 < count) :
    m.buffered o count = [] ↔ m.Starved id count := by
  have hs := h.base_add_size
  have hl := h.offset_le ho
  have hb := h.length_buffered (h.le_offset ho) count
  rw [← List.length_eq_zero_iff, hb, Starved, ho, Option.some.injEq]
  omega

/-! ### How a read ends -/

/-- How a read ends that has made these calls: it raises the one failure that there is and moves
nothing, or it gives a chunk, and what it has met is held back behind that. -/
inductive Ends (m : Manager σ) (id : CursorId) (count : Nat) (cs : List Call) :
    Except StreamError Chunk × Manager σ → Prop where
  | raised {e : SourceFailure} {m' : Manager σ} : m.Starved id count → given cs = [] →
      m.held.toList ++ failuresIn cs = [e] → m'.held = none → m'.exhausted = false →
      m'.cursors = m.cursors → m'.window = m.window → m'.base = m.base →
      Ends m id count cs (.error (.source e), m')
  | served {chunk : Chunk} {m' : Manager σ} : m'.held.toList = m.held.toList ++ failuresIn cs →
      (failuresIn cs ≠ [] → chunk.bytes ≠ []) → Ends m id count cs (.ok chunk, m')

/-- A read meets at most one failure, and only with none held back. -/
theorem Ends.of_met {m m' : Manager σ} {id : CursorId} {count : Nat} {cs : List Call}
    {result : Except StreamError Chunk} (h : Ends m id count cs (result, m')) {e : SourceFailure}
    (he : e ∈ failuresIn cs) :
    m.held = none ∧
      (m.Starved id count ∧ given cs = [] ∧ result = .error (.source e) ∧ m'.held = none ∨
        m'.held = some e ∧ ∃ chunk, result = .ok chunk ∧ chunk.bytes ≠ []) := by
  have hne := List.ne_nil_of_mem he
  cases h with
  | @raised f _ hs hg hf hh =>
    cases hm : m.held with
    | some e' =>
      rw [hm] at hf
      exact absurd (List.cons.inj hf).2 hne
    | none =>
      rw [hm] at hf
      rw [show failuresIn cs = [f] from hf, List.mem_singleton] at he
      exact ⟨rfl, .inl ⟨hs, hg, he ▸ rfl, hh⟩⟩
  | @served chunk _ hh hb =>
    have hlen := congrArg List.length hh
    rw [List.length_append] at hlen
    have hpos := List.length_pos_iff.mpr hne
    have hle : m'.held.toList.length ≤ 1 := by cases m'.held <;> simp
    cases hm : m.held with
    | some e' =>
      rw [hm, Option.toList_some, List.length_singleton] at hlen
      omega
    | none =>
      rw [hm, Option.toList_none, List.nil_append] at hh
      rw [← hh, Option.mem_toList] at he
      exact ⟨rfl, .inr ⟨he, chunk, rfl, hb hne⟩⟩

/-! ### What a run raises -/

variable [ByteSource σ]

/-- The failure of the source that a step answers with. -/
def raised? (m : Manager σ) : Step → Option SourceFailure
  | .read id count =>
    match (m.read id count).1 with
    | .error (.source e) => some e
    | _ => none
  | _ => none

def raised (m : Manager σ) : List Step → List SourceFailure
  | [] => []
  | s :: steps => (m.raised? s).toList ++ (m.step s).raised steps

/-- No read of the run is starved. -/
def Fed (m : Manager σ) : List Step → Prop
  | [] => True
  | s :: steps => (∀ id count, s = .read id count → ¬ m.Starved id count) ∧ (m.step s).Fed steps

/-! ### Reads while a failure is held back -/

/-- The failure comes up before anything is asked of the source, and nothing else is touched. -/
theorem read_of_starved {m : Manager σ} (h : m.Sound) {e : SourceFailure} (he : m.held = some e)
    {id : CursorId} {count : Nat} (hs : m.Starved id count) :
    m.read id count =
      (.error (.source e), { m.note (.requested id count) with held := none }) := by
  have hnil := (h.buffered_eq_nil_iff hs.1 hs.2).mpr hs
  have hp : (m.note (.requested id count)).pull count =
      (.failed e, { m.note (.requested id count) with held := none }) := by
    unfold pull
    rw [if_neg (Nat.ne_of_gt hs.2), show (m.note (.requested id count)).held = some e from he]
  have hnil' : { m.note (.requested id count) with held := none }.buffered
      (m.base + m.window.size) count = [] := hnil
  unfold read
  rw [hs.1]
  simp only [hnil, List.length_nil, Nat.sub_zero, hp, hnil']

theorem read_of_fed {m : Manager σ} (h : m.Sound) {e : SourceFailure} (he : m.held = some e)
    {id : CursorId} {o count : Nat} (ho : m.cursors.offset? id = some o)
    (hs : ¬ m.Starved id count) :
    (m.read id count).1 = .ok ⟨o, m.buffered o count, false⟩ ∧ Quiet m (m.read id count).2 := by
  unfold read
  rw [ho]
  by_cases hn : count - (m.buffered o count).length = 0
  · simp only [hn, pull, if_true]
    exact ⟨rfl, (quiet_note m rfl).trans (quiet_advance _ id _)⟩
  · have hc : 0 < count := by omega
    have hp : (m.note (.requested id count)).pull (count - (m.buffered o count).length) =
        (.failed e, { m.note (.requested id count) with held := none }) := by
      unfold pull
      rw [if_neg hn, show (m.note (.requested id count)).held = some e from he]
    obtain ⟨b, bs, hb⟩ := List.exists_cons_of_ne_nil
      (mt (h.buffered_eq_nil_iff ho hc).mp hs)
    have hb' : { m.note (.requested id count) with held := none }.buffered o count = b :: bs := hb
    simp only [hp, hb']
    refine ⟨by rw [hb], .trans ?_ (quiet_advance _ id _)⟩
    exact ⟨by rw [calls_cons rfl]; exact calls_cons rfl _, rfl, rfl, he.symm⟩

/-! ### What a read does with the failures that it meets -/

variable {m m' : Manager σ} {id : CursorId} {o count : Nat} {cs : List Call}

/-- Nothing is buffered after the pull, so nothing was before it, and nothing has come. -/
theorem ends_of_failed (h : m.Valid) (ho : m.cursors.offset? id = some o) {e : SourceFailure}
    (hq : (m.note (.requested id count)).pull (count - (m.buffered o count).length) =
      (.failed e, m'))
    (hp : Pull (m.note (.requested id count)) (count - (m.buffered o count).length) cs
      (.failed e) m') (hnil : m'.buffered o count = []) :
    Ends m id count cs (.error (.source e), m') := by
  have hn : count - (m.buffered o count).length ≠ 0 := by
    intro hn
    rw [hn, pull, if_pos rfl] at hq
    cases hq
  have happ : m'.buffered o count =
      m.buffered o count ++ (given cs).take (count - (m.buffered o count).length) :=
    hp.buffered_eq (h.note _ rfl) (h.le_offset ho) (h.offset_le ho) count
  rw [hnil, eq_comm, List.append_eq_nil_iff, List.take_eq_nil_iff] at happ
  have hg := happ.2.resolve_left hn
  have hf := hp.failures
  rw [(hp.failed e rfl).1] at hf
  refine .raised ((h.buffered_eq_nil_iff ho (by omega)).mp happ.1) hg hf (hp.failed e rfl).1
    (hp.failed e rfl).2 hp.cursors ?_ hp.base
  rw [← Array.toList_inj, hp.window, hg, List.append_nil]
  rfl

theorem ends_of_served {out : Pulled} {needed : Nat}
    (hp : Pull (m.note (.requested id count)) needed cs out m')
    (hne : ∀ e, out = .failed e → m'.buffered o count ≠ []) :
    Ends m id count cs (.ok ⟨o, m'.buffered o count, out = .ended⟩,
      (m'.defer (m'.buffered o count).length out).advance id
        (o + (m'.buffered o count).length)) := by
  have hf : m.held.toList ++ failuresIn cs = out.failure?.toList ++ m'.held.toList := hp.failures
  refine .served ?_ fun hmet => ?_
  · rw [(quiet_advance _ id _).held, hf]
    cases out with
    | satisfied => rfl
    | ended => rfl
    | failed e => rw [(hp.failed e rfl).1]; rfl
  · -- Only a pull that fails has met a failure.
    cases out with
    | satisfied =>
      rw [(hp.satisfied rfl).1] at hf
      exact absurd (List.append_right_eq_self.mp hf) hmet
    | ended =>
      rw [(hp.ended rfl).1] at hf
      exact absurd (List.append_eq_nil_iff.mp hf).2 hmet
    | failed e => exact hne e rfl

theorem exists_ends (h : m.Valid) (ho : m.cursors.offset? id = some o) (count : Nat) :
    ∃ cs, calls (m.read id count).2.journal = calls m.journal ++ cs ∧
      Ends m id count cs (m.read id count) ∧
      (m.Starved id count → m.held = none → m.exhausted = false → cs ≠ []) := by
  obtain ⟨cs, out, m', hq, hp, hr⟩ := exists_read h ho count
  have hj : calls m'.journal = calls m.journal ++ cs := by
    rw [hp.calls_eq, note, calls_cons rfl]
  refine ⟨cs, ?_, ?_, fun hs hh hx hnil => ?_⟩
  · rcases hr with ⟨e, _, _, hr⟩ | ⟨_, hr⟩
    · rw [hr]
      exact hj
    · rw [hr, (quiet_advance _ id _).calls_eq, (defer_fields m' _ out).2.2.2.2.2.2, hj]
  · rcases hr with ⟨e, rfl, hnil, hr⟩ | ⟨hne, hr⟩
    · rw [hr]
      exact ends_of_failed h ho hq hp hnil
    · rw [hr]
      exact ends_of_served hp hne
  · -- Without a call there is neither a byte nor an end nor a failure.
    have hne := (h.buffered_eq_nil_iff ho hs.2).mpr hs
    rw [hnil] at hp
    cases out with
    | satisfied =>
      have := hp.enough rfl
      rw [hne, given_nil] at this
      exact absurd this (by simpa using Nat.ne_of_gt hs.2)
    | ended =>
      have hend : (m.exhausted || [].any Call.ends) = true := hp.exhausted ▸ (hp.ended rfl).2
      rw [hx] at hend
      cases hend
    | failed e =>
      have hf : m.held.toList ++ [] = [e] ++ m'.held.toList := hp.failures
      rw [hh] at hf
      cases hf

/-! ### Runs -/

/-- What is held back before and what the source answers with come out in this order, but for what
is held back then. -/
theorem exists_calls_step (h : m.Valid) (s : Step) :
    ∃ cs, calls (m.step s).journal = calls m.journal ++ cs ∧
      m.held.toList ++ failuresIn cs = (m.raised? s).toList ++ (m.step s).held.toList := by
  have hquiet {m' : Manager σ} (hq : Quiet m m') :
      ∃ cs, calls m'.journal = calls m.journal ++ cs ∧
        m.held.toList ++ failuresIn cs = [] ++ m'.held.toList :=
    ⟨[], by rw [hq.calls_eq, List.append_nil], by rw [hq.held]; simp⟩
  cases s with
  | branch id => exact hquiet (m.quiet_branch id)
  | read id count =>
    cases ho : m.cursors.offset? id with
    | none =>
      have hr := read_of_dead ho count
      simp only [step, raised?, hr]
      exact hquiet (.refl m)
    | some o =>
      obtain ⟨cs, hc, he, _⟩ := exists_ends h ho count
      refine ⟨cs, hc, ?_⟩
      simp only [step, raised?]
      generalize m.read id count = answered at he
      cases he with
      | raised _ _ hf hh => rw [hf, hh]; rfl
      | served hh _ => rw [hh]; rfl
  | offset id => exact hquiet (.refl m)
  | commit target branch => exact hquiet (m.quiet_commit target branch)
  | dispose id => exact hquiet (m.quiet_dispose id)
  | release id => exact hquiet (m.quiet_release id)
  | stall rule part => exact hquiet (m.quiet_note rfl)

theorem exists_calls_run (h : m.Valid) (steps : List Step) :
    ∃ cs, calls (m.run steps).journal = calls m.journal ++ cs ∧
      m.held.toList ++ failuresIn cs = m.raised steps ++ (m.run steps).held.toList := by
  induction steps generalizing m with
  | nil => exact ⟨[], by simp, by simp [raised]⟩
  | cons s steps ih =>
    obtain ⟨cs, hc, hf⟩ := exists_calls_step h s
    obtain ⟨cs', hc', hf'⟩ := ih (valid_step h s)
    refine ⟨cs ++ cs', by rw [run_cons, hc', hc, List.append_assoc], ?_⟩
    calc m.held.toList ++ failuresIn (cs ++ cs')
        = (m.held.toList ++ failuresIn cs) ++ failuresIn cs' := by
          rw [failuresIn_append, List.append_assoc]
      _ = (m.raised? s).toList ++ ((m.step s).held.toList ++ failuresIn cs') := by
          rw [hf, List.append_assoc]
      _ = m.raised (s :: steps) ++ (m.run (s :: steps)).held.toList := by
          rw [hf', raised, run_cons, List.append_assoc]

/-- What is held back stays so while no read is starved, and the source is not asked. -/
theorem held_run (h : m.Valid) {e : SourceFailure} (he : m.held = some e) {steps : List Step}
    (hs : m.Fed steps) : m.raised steps = [] ∧ Quiet m (m.run steps) := by
  induction steps generalizing m with
  | nil => exact ⟨rfl, .refl m⟩
  | cons s steps ih =>
    have hq : m.raised? s = none ∧ Quiet m (m.step s) := by
      cases s with
      | branch id => exact ⟨rfl, m.quiet_branch id⟩
      | read id count =>
        cases ho : m.cursors.offset? id with
        | none =>
          have hr := read_of_dead ho count
          simp only [step, raised?, hr]
          exact ⟨trivial, .refl m⟩
        | some o =>
          obtain ⟨hr, hq⟩ := read_of_fed h.toSound he ho (hs.1 id count rfl)
          simp only [step, raised?, hr]
          exact ⟨trivial, hq⟩
      | offset id => exact ⟨rfl, .refl m⟩
      | commit target branch => exact ⟨rfl, m.quiet_commit target branch⟩
      | dispose id => exact ⟨rfl, m.quiet_dispose id⟩
      | release id => exact ⟨rfl, m.quiet_release id⟩
      | stall rule part => exact ⟨rfl, m.quiet_note rfl⟩
    obtain ⟨hr, hq'⟩ := ih (valid_step h s) (hq.2.held.trans he) hs.2
    exact ⟨by rw [raised, hq.1, hr]; rfl, hq.2.trans hq'⟩

/-- The failures of the source in any run, and what one more read does with them.

All that the source has answered with have been raised, in this order, but for one that may be held
back, and then the source has not ended. A read that meets a failure raises it if it has nothing to
give, and otherwise holds it back. A read that raises a failure moves nothing, and the next starved
read asks the source again. What is held back stays so, with the source left alone, until a read is
starved, and that one raises it. -/
theorem failures_run (options : StreamOptions) (source : σ) (steps : List Step) :
    let start := ofSource options source
    let m := start.run steps
    Answers source (calls m.journal) m.source ∧
      failuresIn (calls m.journal) = start.raised steps ++ m.held.toList ∧
      (m.held ≠ none → m.exhausted = false) ∧
      (∀ id count result m' cs, m.read id count = (result, m') →
        calls m'.journal = calls m.journal ++ cs → ∀ e ∈ failuresIn cs,
          m.held = none ∧
            (m.Starved id count ∧ given cs = [] ∧ result = .error (.source e) ∧ m'.held = none ∨
              m'.held = some e ∧ ∃ chunk, result = .ok chunk ∧ chunk.bytes ≠ [])) ∧
      (∀ id count e m', m.read id count = (.error (.source e), m') →
        m'.cursors = m.cursors ∧ m'.window = m.window ∧ m'.base = m.base ∧ m'.held = none ∧
          m'.exhausted = false ∧
          ∀ id' count', m'.Starved id' count' →
            calls (m'.read id' count').2.journal ≠ calls m'.journal) ∧
      ∀ e, m.held = some e → ∀ more, m.Fed more →
        let n := m.run more
        m.raised more = [] ∧ n.held = some e ∧ calls n.journal = calls m.journal ∧
          n.source = m.source ∧
          ∀ id count o, n.cursors.offset? id = some o →
            if n.Starved id count then
              n.read id count =
                (.error (.source e), { n.note (.requested id count) with held := none })
            else
              (n.read id count).1 = .ok ⟨o, n.buffered o count, false⟩ ∧
                (0 < count → n.buffered o count ≠ []) ∧ (n.read id count).2.held = some e := by
  intro start m
  have hstart := valid_ofSource options source
  have h : m.Valid := valid_run hstart steps
  refine ⟨answers_run options source steps, ?_, h.held, ?_, ?_, ?_⟩
  · obtain ⟨cs, hc, hf⟩ := exists_calls_run hstart steps
    rw [show calls m.journal = cs from hc]
    exact hf
  · intro id count result m' cs hr hc e he
    cases ho : m.cursors.offset? id with
    | none =>
      rw [read_of_dead ho] at hr
      cases hr
      rw [List.self_eq_append_right.mp hc] at he
      cases he
    | some o =>
      obtain ⟨cs', hc', hend, _⟩ := exists_ends h ho count
      rw [hr] at hc' hend
      obtain rfl := List.append_cancel_left (hc.symm.trans hc')
      exact hend.of_met he
  · intro id count e m' hr
    cases ho : m.cursors.offset? id with
    | none =>
      rw [read_of_dead ho] at hr
      cases hr
    | some o =>
      obtain ⟨cs, _, hend, _⟩ := exists_ends h ho count
      have hv : m'.Valid := by
        have := valid_read h id count
        rwa [hr] at this
      rw [hr] at hend
      cases hend with
      | raised _ _ _ hh hx hcur hw hb =>
        refine ⟨hcur, hw, hb, hh, hx, fun id' count' hs hsame => ?_⟩
        obtain ⟨cs', hc', _, hask⟩ := exists_ends hv hs.1 count'
        rw [hsame, List.self_eq_append_right] at hc'
        exact hask hs hh hx hc'
  · intro e he more hfed n
    obtain ⟨hr, hq⟩ := held_run h he hfed
    have hn : n.Valid := valid_run h more
    have hne : n.held = some e := hq.held.trans he
    refine ⟨hr, hne, hq.calls_eq, hq.source, fun id count o ho => ?_⟩
    split
    · next hs => exact read_of_starved hn.toSound hne hs
    · next hs =>
      obtain ⟨hok, hq'⟩ := read_of_fed hn.toSound hne ho hs
      exact ⟨hok, fun hc => mt (hn.buffered_eq_nil_iff ho hc).mp hs, hq'.held.trans hne⟩

/-- The failure before the fourth byte is held back for the cursor that is behind, and raised when
the one in front goes on. -/
theorem failures_run_broken :
    let e : SourceFailure := ⟨.other, "broken"⟩
    let m := (ofSource {} broken).run [.branch 0, .read 0 5]
    let n := m.run [.read 1 2, .branch 1]
    m.held = some e ∧ m.Fed [.read 1 2, .branch 1] ∧ n.held = some e ∧
      calls n.journal = calls m.journal ∧ n.Starved 0 1 ∧
      n.read 0 1 = (.error (.source e), { n.note (.requested 0 1) with held := none }) ∧
      ¬ n.Starved 2 3 ∧ (n.read 2 3).1 = .ok ⟨2, [99], false⟩ ∧ (n.read 2 3).2.held = some e := by
  intro e m n
  have he : m.held = some e := by decide +kernel
  have hfed : m.Fed [.read 1 2, .branch 1] := by
    refine ⟨fun id count h => ?_, nofun, trivial⟩
    cases h
    decide +kernel
  have hs : n.Starved 0 1 := by decide +kernel
  have hs' : ¬ n.Starved 2 3 := by decide +kernel
  obtain ⟨_, _, _, _, _, hheld⟩ := failures_run {} broken [.branch 0, .read 0 5]
  obtain ⟨_, hn, hc, _, hreads⟩ := hheld e he _ hfed
  have hraise := hreads 0 1 3 (by decide +kernel)
  have hserve := hreads 2 3 2 (by decide +kernel)
  rw [if_pos hs] at hraise
  rw [if_neg hs', show n.buffered 2 3 = [99] by decide +kernel] at hserve
  dsimp only [n, m] at he hfed hs hs' ⊢
  exact ⟨he, hfed, hn, hc, hs, hraise, hs', hserve.1, hserve.2.2⟩

end StreamPeg.Manager
