import StreamPeg.Parse.Rule
import StreamPeg.Proofs.Literal
import StreamPeg.Proofs.Outlook

/-!
# Parsers follow matchers

A parser on a cursor does what the matcher of the same rule does on the stream alone, except that a
failure of the source can come first. `Outcome` says how the two results then belong together:
the same answer at the same position, or the first of the failures left. One lemma for each
combinator leads to `parser_follows`. A parser that runs on a branch (`Tried`) moreover leaves its
cursor where it was whenever it fails, for whatever reason.
-/

namespace StreamPeg

variable {σ : Type} [FiniteSource σ]

/-- A valid manager over these data, with a cursor at this position. -/
structure Stands (data : List UInt8) (m : Manager σ) (id : CursorId) (pos : Nat) : Prop where
  valid : m.Valid
  stream_eq : m.stream = data
  offset_eq : m.cursors.offset? id = some pos

theorem Stands.refl {data : List UInt8} {m : Manager σ} {id : CursorId} {pos : Nat}
    (h : Stands data m id pos) : Manager.Moved m id pos m :=
  .refl h.valid h.offset_eq

theorem Manager.Moved.stands {data : List UInt8} {m m' : Manager σ} {id i : CursorId}
    {pos pos' : Nat} (hm : m.Moved id pos' m') (h : Stands data m i pos) :
    Stands data m' id pos' where
  valid := hm.valid
  stream_eq := hm.stream_eq.trans h.stream_eq
  offset_eq := hm.offset_self

inductive Outcome (m : Manager σ) (id : CursorId) :
    Except ParseFailure Unit × Nat → Except ParseFailure Unit × Manager σ → Prop where
  | ok {pos : Nat} {m' : Manager σ} : m.Moved id pos m' → m'.failuresLeft = m.failuresLeft →
      Outcome m id (.ok (), pos) (.ok (), m')
  | failed {e : ParseFailure} {pos stopped : Nat} {m' : Manager σ} : m.Moved id stopped m' →
      m'.failuresLeft = m.failuresLeft → (m.failuresLeft = [] → stopped = pos) →
      Outcome m id (.error e, pos) (.error e, m')
  | source {expected : Except ParseFailure Unit × Nat} {e : SourceFailure} {stopped : Nat}
      {m' : Manager σ} : m.Moved id stopped m' → m.failuresLeft = e :: m'.failuresLeft →
      Outcome m id expected (.error (.source (.source e)), m')

/-- The outcome of something that is taken back if it fails. -/
inductive Tried (m : Manager σ) (id : CursorId) (start : Nat) :
    Except ParseFailure Unit × Nat → Except ParseFailure Unit × Manager σ → Prop where
  | ok {pos : Nat} {m' : Manager σ} : m.Moved id pos m' → m'.failuresLeft = m.failuresLeft →
      Tried m id start (.ok (), pos) (.ok (), m')
  | failed {e : ParseFailure} {pos : Nat} {m' : Manager σ} : m.Moved id start m' →
      m'.failuresLeft = m.failuresLeft → Tried m id start (.error e, pos) (.error e, m')
  | source {expected : Except ParseFailure Unit × Nat} {e : SourceFailure} {m' : Manager σ} :
      m.Moved id start m' → m.failuresLeft = e :: m'.failuresLeft →
      Tried m id start expected (.error (.source (.source e)), m')

theorem Outcome.after {m m' : Manager σ} {id : CursorId} {pos : Nat}
    {expected : Except ParseFailure Unit × Nat} {actual : Except ParseFailure Unit × Manager σ}
    (hm : m.Moved id pos m') (hl : m'.failuresLeft = m.failuresLeft)
    (h : Outcome m' id expected actual) : Outcome m id expected actual := by
  cases h with
  | ok hm' hl' => exact .ok (hm.trans hm') (hl'.trans hl)
  | failed hm' hl' hs => exact .failed (hm.trans hm') (hl'.trans hl) fun h => hs (hl.trans h)
  | source hm' he => exact .source (hm.trans hm') (hl.symm.trans he)

theorem Tried.after {m m' : Manager σ} {id : CursorId} {pos start : Nat}
    {expected : Except ParseFailure Unit × Nat} {actual : Except ParseFailure Unit × Manager σ}
    (hm : m.Moved id pos m') (hl : m'.failuresLeft = m.failuresLeft)
    (h : Tried m' id start expected actual) : Tried m id start expected actual := by
  cases h with
  | ok hm' hl' => exact .ok (hm.trans hm') (hl'.trans hl)
  | failed hm' hl' => exact .failed (hm.trans hm') (hl'.trans hl)
  | source hm' he => exact .source (hm.trans hm') (hl.symm.trans he)

def Follows (data : List UInt8) (p : Parser σ) (q : Matcher) : Prop :=
  ∀ ⦃m : Manager σ⦄ ⦃id : CursorId⦄ ⦃pos : Nat⦄,
    Stands data m id pos → Outcome m id (q pos) (p id m)

variable {data : List UInt8} {name : String}

/-! ### Literals -/

theorem Manager.Seen.take_eq {pos count : Nat} {chunk : Chunk}
    (h : Manager.Seen data pos count chunk) :
    (data.drop pos).take count =
      chunk.bytes ++ (data.drop (pos + chunk.bytes.length)).take (count - chunk.bytes.length) := by
  rw [← List.drop_drop]
  calc (data.drop pos).take count
      = (data.drop pos).take (chunk.bytes.length + (count - chunk.bytes.length)) := by
        rw [Nat.add_sub_cancel' h.length_le]
    _ = _ := by rw [List.take_add, ← h.bytes]

/-- A read that nothing cuts short but the end finds all that is there. -/
theorem Manager.Seen.take_eq_bytes {pos count : Nat} {chunk : Chunk}
    (h : Manager.Seen data pos count chunk)
    (he : chunk.bytes.length < count → chunk.atEnd = true) :
    (data.drop pos).take count = chunk.bytes := by
  rw [h.take_eq, List.append_right_eq_self, List.take_eq_nil_iff, List.drop_eq_nil_iff]
  rcases Nat.lt_or_ge chunk.bytes.length count with hlt | hge
  · exact .inr (Nat.le_of_eq (h.atEnd (he hlt)).2.symm)
  · exact .inl (Nat.sub_eq_zero_of_le hge)

theorem Stands.of_read_ok {m m' : Manager σ} {id : CursorId} {pos count : Nat} {chunk : Chunk}
    (h : Stands data m id pos) (hr : m.read id count = (.ok chunk, m')) :
    Manager.Seen data pos count chunk ∧ m.Moved id (pos + chunk.bytes.length) m' ∧
      m'.failuresLeft = m.failuresLeft ∧
      (chunk.bytes.length < count → chunk.atEnd = false →
        chunk.bytes ≠ [] ∧ m.failuresLeft ≠ []) := by
  rcases Manager.exists_read_chunk h.valid h.offset_eq count with
    ⟨_, _, hr', hs, hrest⟩ | ⟨_, _, hr', _⟩
  · rw [hr] at hr'
    cases hr'
    exact ⟨h.stream_eq ▸ hs, hrest⟩
  · rw [hr] at hr'
    cases hr'

theorem Stands.of_read_error {m m' : Manager σ} {id : CursorId} {pos count : Nat} {e : StreamError}
    (h : Stands data m id pos) (hr : m.read id count = (.error e, m')) :
    ∃ f, e = .source f ∧ m.Moved id pos m' ∧ m.failuresLeft = f :: m'.failuresLeft := by
  rcases Manager.exists_read_chunk h.valid h.offset_eq count with
    ⟨_, _, hr', _⟩ | ⟨f, _, hr', hrest⟩
  · rw [hr] at hr'
    cases hr'
  · rw [hr] at hr'
    cases hr'
    exact ⟨f, rfl, hrest⟩

theorem outcome_literalFrom {tries : Nat} {wanted : List UInt8} (hw : wanted.length ≤ tries)
    {m : Manager σ} {id : CursorId} {pos : Nat} (h : Stands data m id pos) :
    Outcome m id (Matcher.literal data name wanted pos)
      (Parser.literalFrom name tries wanted id m) := by
  fun_induction Parser.literalFrom name tries wanted id m generalizing pos with
  | case1 tries id m =>
    rw [Matcher.literal_of_found (by simp)]
    exact .ok h.refl rfl
  | case2 => cases hw
  | case3 tries wanted id m hne e m' hr =>
    obtain ⟨f, rfl, hm, hl⟩ := h.of_read_error hr
    exact .source hm hl
  | case4 tries wanted id m hne chunk m' hr i e f hd =>
    obtain ⟨hs, hm, hl, hshort⟩ := h.of_read_ok hr
    obtain ⟨cs, es, fs, rfl, hc, rfl, hef⟩ := exists_of_firstDifference_eq_some hd
    have hf := hs.take_eq
    rw [hc, List.append_assoc, List.cons_append] at hf
    rw [Matcher.literal_of_unexpected hef hf, hs.start]
    refine .failed hm hl fun hnone => ?_
    have hfull := hs.take_eq_bytes fun hlt =>
      eq_true_of_ne_false fun he => (hshort hlt he).2 hnone
    rw [← hf, hfull]
  | case5 tries wanted id m hne chunk m' hr hd hdone =>
    obtain ⟨hs, hm, hl, _⟩ := h.of_read_ok hr
    rw [List.drop_eq_nil_iff] at hdone
    have hc : chunk.bytes = wanted :=
      (prefix_of_firstDifference_eq_none hd hs.length_le).eq_of_length_le hdone
    rw [Matcher.literal_of_found, ← hc]
    · exact .ok hm hl
    · rw [hs.take_eq_bytes fun hlt => absurd hdone (Nat.not_le_of_lt hlt), hc]
  | case6 tries wanted id m hne chunk m' hr hd hend hleft =>
    obtain ⟨hs, hm, hl, hshort⟩ := h.of_read_ok hr
    obtain ⟨left, rfl⟩ := prefix_of_firstDifference_eq_none hd hs.length_le
    rw [List.drop_left] at hleft
    have hlt : chunk.bytes.length < (chunk.bytes ++ left).length := by
      rw [List.length_append]
      exact Nat.lt_add_of_pos_right (List.length_pos_iff.mpr hleft)
    -- A read that falls short without an end brings a byte.
    have hat : chunk.atEnd = true := hend.elim (·) fun hnil =>
      eq_true_of_ne_false fun he => (hshort hlt he).1 hnil
    rw [Matcher.literal_of_end hleft (hs.take_eq_bytes fun _ => hat), hs.start]
    exact .failed hm hl fun _ => rfl
  | case7 tries wanted id m hne chunk m' hr hd hend hleft ih =>
    obtain ⟨hs, hm, hl, _⟩ := h.of_read_ok hr
    obtain ⟨left, rfl⟩ := prefix_of_firstDifference_eq_none hd hs.length_le
    rw [not_or] at hend
    have hpos := List.length_pos_iff.mpr hend.2
    rw [List.length_append] at hw
    rw [List.drop_left] at ih ⊢
    rw [Matcher.literal_append hs.bytes.symm]
    exact .after hm hl (ih (by omega) (hm.stands h))

theorem follows_literal (bytes : List UInt8) :
    Follows (σ := σ) data (.literal name bytes) (.literal data name bytes) :=
  fun _ _ _ h => outcome_literalFrom (Nat.le_refl _) h

/-! ### Sequences and required repetitions -/

/-- A failure is passed on with the name of the rule around it, which one of the source ignores. -/
theorem Outcome.within {m m' : Manager σ} {id : CursorId} {e f : ParseFailure} {pos : Nat}
    (h : Outcome m id (.error e, pos) (.error f, m')) (name : String) :
    Outcome m id (.error (e.within name), pos) (.error (f.within name), m') := by
  cases h with
  | failed hm hl hs => exact .failed hm hl hs
  | source hm hl => exact .source hm hl

theorem follows_sequence {α : Type} {p : α → Parser σ} {q : α → Matcher}
    (h : ∀ a, Follows data (p a) (q a)) (parts : List α) :
    Follows data (.sequence name (parts.map p)) (.sequence name (parts.map q)) := by
  intro m id pos hm
  induction parts generalizing m pos with
  | nil => exact .ok hm.refl rfl
  | cons a parts ih =>
    have ha := h a hm
    simp only [List.map_cons, Parser.sequence, Matcher.sequence]
    revert ha
    rcases q a pos with ⟨_ | _, pos'⟩ <;> rcases p a id m with ⟨_ | _, m'⟩ <;> intro ha
    · exact ha.within name
    · cases ha
    · cases ha with
      | source hm' he => exact .source hm' he
    · cases ha with
      | ok hm' hl => exact .after hm' hl (ih (hm'.stands hm))

theorem follows_times {p : Parser σ} {q : Matcher} (h : Follows data p q) (n : Nat) :
    Follows data (.times name p n) (.times name q n) := by
  rw [Parser.times_eq_sequence, Matcher.times_eq_sequence]
  exact follows_sequence (fun _ => h) _

theorem follows_andThen {p p' : Parser σ} {q q' : Matcher} (h : Follows data p q)
    (h' : Follows data p' q') : Follows data (.andThen p p') (.andThen q q') := by
  intro m id pos hm
  have hp := h hm
  simp only [Parser.andThen, Matcher.andThen]
  revert hp
  rcases q pos with ⟨_ | _, pos'⟩ <;> rcases p id m with ⟨_ | _, m'⟩ <;> intro hp
  · exact hp
  · cases hp
  · cases hp with
    | source hm' he => exact .source hm' he
  · cases hp with
    | ok hm' hl => exact .after hm' hl (h' (hm'.stands hm))

/-! ### Attempts -/

theorem Stands.exists_branch {m : Manager σ} {id : CursorId} {pos : Nat}
    (h : Stands data m id pos) :
    ∃ m', m.branch id = (.ok m.nextId, m') ∧ m.Moved m.nextId pos m' ∧
      m'.failuresLeft = m.failuresLeft := by
  obtain ⟨m', hb, hs⟩ := Manager.exists_branch h.valid h.offset_eq
  have hq := m.quiet_branch id
  rw [hb] at hq
  exact ⟨m', hb, hs.moved hq.stream_eq, hq.failuresLeft_eq⟩

/-- With the branch gone, only its reads are left of what it did. -/
theorem Stands.moved_release {m m' : Manager σ} {id : CursorId} {pos after : Nat}
    (h : Stands data m id pos) (hm : m.Moved m.nextId after m') :
    m.Moved id pos (m'.release m.nextId) :=
  (hm.shifted.release h.valid h.offset_eq).moved
    ((Manager.quiet_release _ _).stream_eq.trans hm.stream_eq)

theorem Stands.exists_adopt {m m' : Manager σ} {id : CursorId} {pos after : Nat}
    (h : Stands data m id pos) (hm : m.Moved m.nextId after m') :
    ∃ m'', m'.adopt id m.nextId = (.ok (), m'') ∧ m.Moved id after m'' ∧
      m''.failuresLeft = m'.failuresLeft := by
  obtain ⟨m'', ha, hs⟩ := hm.shifted.exists_adopt h.valid h.offset_eq
  have hq := m'.quiet_adopt id m.nextId
  rw [ha] at hq
  exact ⟨m'', ha, hs.moved (hq.stream_eq.trans hm.stream_eq), hq.failuresLeft_eq⟩

theorem tried_attempt {p : Parser σ} {q : Matcher} (hp : Follows data p q) {m : Manager σ}
    {id : CursorId} {pos : Nat} (h : Stands data m id pos) :
    Tried m id pos (q pos) (Parser.attempt p id m) := by
  obtain ⟨m₁, hb, hm₁, hl₁⟩ := h.exists_branch
  have ho := hp (hm₁.stands h)
  simp only [Parser.attempt, hb]
  revert ho
  rcases q pos with ⟨expected, pos'⟩
  rcases p m.nextId m₁ with ⟨_ | _, m₂⟩ <;> intro ho
  · cases ho with
    | failed hm₂ hl₂ _ =>
      exact .failed (h.moved_release (hm₁.trans hm₂))
        ((Manager.quiet_release _ _).failuresLeft_eq.trans (hl₂.trans hl₁))
    | source hm₂ he =>
      refine .source (h.moved_release (hm₁.trans hm₂)) ?_
      rw [(Manager.quiet_release _ _).failuresLeft_eq, ← he, hl₁]
  · cases ho with
    | ok hm₂ hl₂ =>
      obtain ⟨m₃, ha, hm₃, hl₃⟩ := h.exists_adopt (hm₁.trans hm₂)
      simp only [ha]
      exact .ok hm₃ (hl₃.trans (hl₂.trans hl₁))

/-! ### Choices -/

theorem tried_choiceFrom {α : Type} {p : α → Parser σ} {q : α → Matcher}
    (hp : ∀ a, Follows data (p a) (q a)) (alternatives : List α) (deepest : Option Mismatch)
    {m : Manager σ} {id : CursorId} {pos : Nat} (h : Stands data m id pos) :
    Tried m id pos (Matcher.choiceFrom name deepest (alternatives.map q) pos)
      (Parser.choiceFrom name deepest (alternatives.map p) id m) := by
  induction alternatives generalizing deepest m with
  | nil =>
    cases deepest with
    | none =>
      simp only [List.map_nil, Parser.choiceFrom, Matcher.choiceFrom, Manager.offset, h.offset_eq]
      exact .failed h.refl rfl
    | some d => exact .failed h.refl rfl
  | cons a alternatives ih =>
    have ha := tried_attempt (hp a) h
    simp only [List.map_cons, Parser.choiceFrom, Matcher.choiceFrom]
    revert ha
    rcases q a pos with ⟨expected, pos'⟩
    rcases Parser.attempt (p a) id m with ⟨actual, m'⟩
    intro ha
    cases ha with
    | ok hm hl => exact .ok hm hl
    | source hm he => exact .source hm he
    | @failed e _ _ hm hl =>
      cases e with
      | mismatch d => exact .after hm hl (ih _ (hm.stands h))
      | source | unresolvedPlaceholder | tooDeep => exact .failed hm hl

theorem Tried.outcome {m : Manager σ} {id : CursorId} {start : Nat}
    {expected : Except ParseFailure Unit × Nat} {actual : Except ParseFailure Unit × Manager σ}
    (h : Tried m id start expected actual)
    (hs : ∀ e, expected.1 = .error e → expected.2 = start) : Outcome m id expected actual := by
  cases h with
  | ok hm hl => exact .ok hm hl
  | failed hm hl => exact .failed hm hl fun _ => (hs _ rfl).symm
  | source hm he => exact .source hm he

theorem Tried.moved_of_error {m : Manager σ} {id : CursorId} {start : Nat}
    {expected : Except ParseFailure Unit × Nat} {actual : Except ParseFailure Unit × Manager σ}
    {e : ParseFailure} (h : Tried m id start expected actual) (he : actual.1 = .error e) :
    m.Moved id start actual.2 := by
  cases h with
  | ok => cases he
  | failed hm _ => exact hm
  | source hm _ => exact hm

theorem Matcher.choiceFrom_stays (deepest : Option Mismatch) (qs : List Matcher) (pos : Nat)
    (e : ParseFailure) (h : (Matcher.choiceFrom name deepest qs pos).1 = .error e) :
    (Matcher.choiceFrom name deepest qs pos).2 = pos := by
  fun_induction Matcher.choiceFrom name deepest qs pos with
  | case1 | case2 => rfl
  | case3 => cases h
  | case4 _ _ _ _ _ _ _ ih => exact ih h
  | case5 => rfl

theorem follows_choice {α : Type} {p : α → Parser σ} {q : α → Matcher}
    (hp : ∀ a, Follows data (p a) (q a)) (alternatives : List α) :
    Follows data (.choice name (alternatives.map p)) (.choiceFrom name none (alternatives.map q)) :=
  fun _ _ _ h =>
    (tried_choiceFrom hp alternatives none h).outcome (Matcher.choiceFrom_stays none _ _)

/-! ### Optional repetitions -/

theorem follows_upTo {p : Parser σ} {q : Matcher} (hp : Follows data p q) (n : Nat) :
    Follows data (.upTo p n) (.upTo q n) := by
  intro m id pos h
  induction n generalizing m pos with
  | zero => exact .ok h.refl rfl
  | succ n ih =>
    have ha := tried_attempt hp h
    simp only [Parser.upTo, Matcher.upTo]
    revert ha
    rcases q pos with ⟨expected, pos'⟩
    rcases Parser.attempt p id m with ⟨actual, m'⟩
    intro ha
    cases ha with
    | ok hm hl => exact .after hm hl (ih (hm.stands h))
    | source hm he => exact .source hm he
    | @failed e _ _ hm hl =>
      cases e with
      | mismatch d => exact .ok hm hl
      | source | unresolvedPlaceholder | tooDeep => exact .failed hm hl fun _ => rfl

theorem follows_whileMatching {stalled : Event} (hc : stalled.call? = none) {p : Parser σ}
    {q : Matcher} (hp : Follows data p q) (rounds : Nat) :
    Follows data (.whileMatching stalled p rounds) (.whileMatching q rounds) := by
  intro m id pos h
  induction rounds generalizing m pos with
  | zero => exact .failed h.refl rfl fun _ => rfl
  | succ rounds ih =>
    have ha := tried_attempt hp h
    simp only [Parser.whileMatching, Matcher.whileMatching, Manager.offset, h.offset_eq]
    revert ha
    rcases q pos with ⟨expected, pos'⟩
    rcases Parser.attempt p id m with ⟨actual, m'⟩
    intro ha
    cases ha with
    | ok hm hl =>
      simp only [hm.offset_self]
      by_cases hlt : pos < pos'
      · simp only [hlt, if_true]
        exact .after hm hl (ih (hm.stands h))
      · simp only [hlt, if_false]
        exact .ok (hm.note hc) hl
    | source hm he => exact .source hm he
    | @failed e _ _ hm hl =>
      cases e with
      | mismatch d => exact .ok hm hl
      | source | unresolvedPlaceholder | tooDeep => exact .failed hm hl fun _ => rfl

/-! ### Rules -/

namespace RuleGraph

/-- Whatever the depth, and whether or not it is enough. -/
theorem parser_follows (g : RuleGraph) (data : List UInt8) (depth : Nat) (r : RuleId) :
    Follows (σ := σ) data (g.parser depth r) (g.matcher data depth r) := by
  induction depth generalizing r with
  | zero => exact fun _ _ _ h => .failed h.refl rfl fun _ => rfl
  | succ depth ih =>
    cases hk : g.kind r with
    | literal bytes =>
      simp only [parser, matcher, hk]
      exact follows_literal bytes
    | sequence parts =>
      simp only [parser, matcher, hk]
      exact follows_sequence ih parts
    | choice alternatives =>
      simp only [parser, matcher, hk]
      exact follows_choice ih alternatives
    | repetition part min max =>
      have ht : Follows (σ := σ) data (.times (g.name r) (g.parser depth part) min)
          (.times (g.name r) (g.matcher data depth part) min) := follows_times (ih part) min
      cases max with
      | none =>
        simp only [parser, matcher, hk]
        exact follows_andThen ht (follows_whileMatching rfl (ih part) depth)
      | some max =>
        simp only [parser, matcher, hk]
        exact follows_andThen ht (follows_upTo (ih part) (max - min))
    | placeholder target =>
      cases target with
      | none =>
        simp only [parser, matcher, hk]
        exact fun _ _ _ h => .failed h.refl rfl fun _ => rfl
      | some target =>
        simp only [parser, matcher, hk]
        exact ih target

/-- A choice that fails, for whatever reason, has not moved its cursor. -/
theorem tried_of_choice (g : RuleGraph) (depth : Nat) {r : RuleId} {alternatives : List RuleId}
    (hk : g.kind r = .choice alternatives) {m : Manager σ} {id : CursorId} {pos : Nat}
    (h : Stands data m id pos) :
    Tried m id pos (g.matcher data (depth + 1) r pos) (g.parser (depth + 1) r id m) := by
  simp only [parser, matcher, hk]
  exact tried_choiceFrom (g.parser_follows data depth) alternatives none h

end RuleGraph

end StreamPeg
