import StreamPeg.Cursor.Run

/-!
# Drawing bytes from the source

`Draw needed wanted s calls out s'`: a source in state `s`, asked for `wanted` bytes and then for
what is left of them, answers these calls, and the asking stops as `out` says because `needed` bytes
have come, the data has ended or the source has failed. `Manager.draw` makes one such draw
(`exists_draw`).

`Pull m needed calls out m'` collects what a pull tells the rest of the manager: the bytes that the
calls gave stand behind the window, and nothing else has moved.
-/

namespace StreamPeg

def Pulled.failure? : Pulled → Option SourceFailure
  | .failed e => some e
  | _ => none

variable {σ : Type} [ByteSource σ]

inductive Draw : (needed wanted : Nat) → σ → List Call → Pulled → σ → Prop where
  | done {wanted : Nat} {s : σ} : Draw 0 wanted s [] .satisfied s
  | ended {needed wanted : Nat} {s s' : σ} : 0 < needed →
      ByteSource.fill s wanted = (.bytes [], s') →
      Draw needed wanted s [⟨wanted, .bytes []⟩] .ended s'
  | failed {needed wanted : Nat} {s s' : σ} {e : SourceFailure} : 0 < needed →
      ByteSource.fill s wanted = (.failed e, s') →
      Draw needed wanted s [⟨wanted, .failed e⟩] (.failed e) s'
  | more {needed wanted : Nat} {s s' s'' : σ} {bs : List UInt8} {cs : List Call} {out : Pulled} :
      0 < needed → bs ≠ [] → ByteSource.fill s wanted = (.bytes bs, s') →
      Draw (needed - bs.length) (wanted - bs.length) s' cs out s'' →
      Draw needed wanted s (⟨wanted, .bytes bs⟩ :: cs) out s''

namespace Draw

variable {needed wanted : Nat} {s s' : σ} {cs : List Call} {out : Pulled}

theorem answers (h : Draw needed wanted s cs out s') : Answers s cs s' := by
  induction h with
  | done => exact .nil _
  | ended _ hf => exact .cons hf (.nil _)
  | failed _ hf => exact .cons hf (.nil _)
  | more _ _ hf _ ih => exact .cons hf ih

theorem le_length_given (h : Draw needed wanted s cs out s') (ho : out = .satisfied) :
    needed ≤ (given cs).length := by
  induction h with
  | done => exact Nat.zero_le _
  | ended => cases ho
  | failed => cases ho
  | more _ _ _ _ ih =>
    have := ih ho
    rw [given_cons, Answer.given_bytes, List.length_append]
    omega

theorem length_given_lt (h : Draw needed wanted s cs out s') (ho : out ≠ .satisfied) :
    (given cs).length < needed := by
  induction h with
  | done => exact absurd rfl ho
  | ended hn => simpa using hn
  | failed hn => simpa using hn
  | more _ _ _ _ ih =>
    have := ih ho
    rw [given_cons, Answer.given_bytes, List.length_append]
    omega

theorem requested_pos (h : Draw needed wanted s cs out s') (hw : needed ≤ wanted) :
    ∀ c ∈ cs, 0 < c.requested := by
  induction h with
  | done => simp
  | ended hn => simp; omega
  | failed hn => simp; omega
  | more hn _ _ _ ih =>
    intro c hc
    rcases List.mem_cons.mp hc with rfl | hc
    · exact Nat.lt_of_lt_of_le hn hw
    · exact ih (by omega) c hc

/-- Only the last call of a draw can find the end of the data, and the draw then says so. -/
theorem any_ends (h : Draw needed wanted s cs out s') :
    cs.any (·.ends) = decide (out = .ended) := by
  induction h with
  | done => rfl
  | ended => rfl
  | failed => rfl
  | @more _ wanted _ _ _ bs _ _ _ hb _ _ ih =>
    have he : Call.ends ⟨wanted, .bytes bs⟩ = false := by simp [Call.ends, hb]
    rw [List.any_cons, he, ih, Bool.false_or]

theorem failuresIn_eq (h : Draw needed wanted s cs out s') :
    failuresIn cs = out.failure?.toList := by
  induction h with
  | done => rfl
  | ended => rfl
  | failed => rfl
  | more _ _ _ _ ih => rw [failuresIn_cons, ih]; rfl

theorem delivered_eq (h : Draw needed wanted s cs out s') : delivered cs = given cs := by
  induction h with
  | done => rfl
  | ended => rfl
  | failed => rfl
  | more _ hb _ _ ih =>
    rw [given_cons, ← ih]
    simp [delivered, Call.ends, hb]

end Draw

namespace Manager

/-- The manager when a draw has made these calls and has stopped like this. -/
def drawn (m : Manager σ) (cs : List Call) (out : Pulled) (source : σ) : Manager σ :=
  { m with
    source
    window := m.window ++ (given cs).toArray
    exhausted := m.exhausted || out = .ended
    journal :=
      (if out = .ended then [.exhausted (m.base + m.window.size + (given cs).length)] else []) ++
        ((cs.map .filled).reverse ++ m.journal) }

omit [ByteSource σ] in
theorem calls_drawn (m : Manager σ) (cs : List Call) (out : Pulled) (source : σ) :
    calls (m.drawn cs out source).journal = calls m.journal ++ cs := by
  simp only [drawn]
  split
  · rw [List.singleton_append, calls_cons rfl, calls_append_filled]
  · rw [List.nil_append, calls_append_filled]

theorem exists_draw (tries needed wanted : Nat) (ht : needed ≤ tries) (m : Manager σ) :
    ∃ cs s', Draw needed wanted m.source cs (draw tries needed wanted m).1 s' ∧
      (draw tries needed wanted m).2 = m.drawn cs (draw tries needed wanted m).1 s' := by
  induction tries generalizing needed wanted m with
  | zero =>
    obtain rfl := Nat.le_zero.mp ht
    exact ⟨[], m.source, .done, by simp [draw, drawn]⟩
  | succ tries ih =>
    unfold draw
    by_cases hn : needed = 0
    · subst hn
      exact ⟨[], m.source, .done, by simp [drawn]⟩
    rw [if_neg hn]
    have hpos : 0 < needed := by omega
    rcases hf : ByteSource.fill m.source wanted with ⟨(_ | ⟨b, bs⟩) | e, s'⟩
    · exact ⟨[⟨wanted, .bytes []⟩], s', .ended hpos hf, by simp [drawn]⟩
    · obtain ⟨cs, s'', hd, he⟩ := ih (needed - (b :: bs).length)
        (wanted - (b :: bs).length) (by simp; omega)
        { m with
          source := s'
          window := m.window ++ (b :: bs).toArray
          journal := .filled ⟨wanted, .bytes (b :: bs)⟩ :: m.journal }
      refine ⟨_, s'', .more hpos (List.cons_ne_nil b bs) hf hd, he.trans ?_⟩
      simp [drawn, Nat.add_assoc, Nat.add_comm 1]
    · exact ⟨[⟨wanted, .failed e⟩], s', .failed hpos hf, by simp [drawn]⟩

end Manager

structure Pull (m : Manager σ) (needed : Nat) (cs : List Call) (out : Pulled) (m' : Manager σ) :
    Prop where
  cursors : m'.cursors = m.cursors
  base : m'.base = m.base
  nextId : m'.nextId = m.nextId
  window : m'.window.toList = m.window.toList ++ given cs
  calls_eq : calls m'.journal = calls m.journal ++ cs
  answers : Answers m.source cs m'.source
  requested : ∀ c ∈ cs, 0 < c.requested
  delivered_eq : delivered cs = given cs
  shut : m.exhausted = true → cs = []
  exhausted : m'.exhausted = (m.exhausted || cs.any (·.ends))
  enough : out = .satisfied → needed ≤ (given cs).length
  short : out ≠ .satisfied → (given cs).length < needed
  satisfied : out = .satisfied → m'.held = m.held ∧ m'.exhausted = m.exhausted
  ended : out = .ended → m'.held = none ∧ m'.exhausted = true
  failed : ∀ e, out = .failed e → m'.held = none ∧ m'.exhausted = false
  failures : m.held.toList ++ failuresIn cs = out.failure?.toList ++ m'.held.toList

/-- A pull that reaches the source makes a draw; every other pull makes no call. -/
theorem Manager.exists_pull (m : Manager σ) (needed : Nat)
    (hm : m.held ≠ none → m.exhausted = false) :
    ∃ cs, Pull m needed cs (m.pull needed).1 (m.pull needed).2 := by
  unfold pull
  by_cases hn : needed = 0
  · subst hn
    exact ⟨[], by constructor <;> simp [delivered, Answers.nil, Pulled.failure?]⟩
  rw [if_neg hn]
  have hpos : 0 < needed := by omega
  cases hh : m.held with
  | some e =>
    have hx := hm (by simp [hh])
    exact ⟨[], by constructor <;> simp [delivered, Answers.nil, Pulled.failure?, hx, hh, hpos]⟩
  | none =>
    by_cases hx : m.exhausted = true
    · simp only [hx, if_true]
      exact ⟨[], by constructor <;> simp [delivered, Answers.nil, Pulled.failure?, hx, hh, hpos]⟩
    · rw [Bool.not_eq_true] at hx
      obtain ⟨cs, s', hd, he⟩ := exists_draw needed needed (needed + m.readAhead) (Nat.le_refl _) m
      simp only [hx, Bool.false_eq_true, if_false, he]
      generalize (draw needed needed (needed + m.readAhead) m).1 = out at hd
      refine ⟨cs, ?_⟩
      constructor
      case cursors | base | nextId => rfl
      case window => simp [drawn]
      case calls_eq => exact calls_drawn m cs out s'
      case answers => exact hd.answers
      case requested => exact hd.requested_pos (by omega)
      case delivered_eq => exact hd.delivered_eq
      case shut => simp [hx]
      case exhausted => rw [hd.any_ends]; rfl
      case enough => exact hd.le_length_given
      case short => exact hd.length_given_lt
      case satisfied =>
        rintro rfl
        exact ⟨rfl, by simp [drawn]⟩
      case ended =>
        rintro rfl
        exact ⟨hh, by simp [drawn]⟩
      case failed =>
        rintro e rfl
        exact ⟨hh, by simp [drawn, hx]⟩
      case failures => rw [hd.failuresIn_eq, hh, drawn, hh]; simp

end StreamPeg
