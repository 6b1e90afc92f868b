import StreamPeg.Proofs.Abreast

/-!
# Which alternative a choice takes

`ChoiceEnds` tells how a choice ends by how its alternatives do: with the first that does not
mismatch, or else with the earliest of the mismatches that got furthest (`FirstDeepest`). Each
alternative begins where the choice did, on whatever the ones before it have left. `Tried` goes
through them up to the one that settles the choice, and both the endings in turn (`inTurn`) and, for
what is on offer, the endings of each alternative alone are such (`tried_alone`).
-/

namespace StreamPeg

/-! ### The deepest mismatch -/

/-- Those before it got less far, and those behind it no further. -/
inductive FirstDeepest (d : Mismatch) : List Mismatch → Prop where
  | intro {before after : List Mismatch} : (∀ e ∈ before, e.offset < d.offset) →
      (∀ e ∈ after, e.offset ≤ d.offset) → FirstDeepest d (before ++ d :: after)

namespace FirstDeepest

variable {d : Mismatch} {es : List Mismatch}

theorem singleton (d : Mismatch) : FirstDeepest d [d] := by
  have h : FirstDeepest d ([] ++ [d]) := .intro nofun nofun
  exact h

theorem offset_le (h : FirstDeepest d es) {e : Mismatch} (he : e ∈ es) : e.offset ≤ d.offset := by
  obtain ⟨hb, ha⟩ := h
  rcases List.mem_append.mp he with he | he
  · exact Nat.le_of_lt (hb e he)
  · rcases List.mem_cons.mp he with rfl | he
    · exact Nat.le_refl _
    · exact ha e he

/-- One more mismatch takes the place of the deepest only if it got further. -/
theorem deeper (h : FirstDeepest d es) (e : Mismatch) :
    FirstDeepest (.deeper (some d) e) (es ++ [e]) := by
  by_cases hlt : d.offset < e.offset
  · rw [show Mismatch.deeper (some d) e = e from if_pos hlt]
    exact .intro (fun x hx => Nat.lt_of_le_of_lt (h.offset_le hx) hlt) nofun
  · rw [show Mismatch.deeper (some d) e = d from if_neg hlt]
    obtain ⟨hb, ha⟩ := h
    rw [List.append_assoc, List.cons_append]
    refine .intro hb fun x hx => ?_
    rcases List.mem_append.mp hx with hx | hx
    · exact ha x hx
    · rw [List.mem_singleton.mp hx]
      exact Nat.le_of_not_lt hlt

end FirstDeepest

/-- What a choice remembers of the mismatches that it has met. -/
def Mismatch.Remembered : Option Mismatch → List Mismatch → Prop
  | none, es => es = []
  | some d, es => FirstDeepest d es

theorem Mismatch.Remembered.deeper {deepest : Option Mismatch} {es : List Mismatch}
    (h : Remembered deepest es) (e : Mismatch) :
    Remembered (some (.deeper deepest e)) (es ++ [e]) := by
  cases deepest with
  | none =>
    obtain rfl : es = [] := h
    exact .singleton e
  | some d => exact FirstDeepest.deeper h e

/-! ### Endings -/

def Ending.IsMismatch (x : Ending) : Prop := ∃ d, x.1 = .error (.mismatch d)

/-- How a choice ends that starts at this position, if its alternatives end like this. -/
inductive ChoiceEnds (name : String) (pos : Nat) : List Ending → Ending → Prop where
  | matched {before after : List Ending} {pos' : Option Nat} : (∀ x ∈ before, x.IsMismatch) →
      ChoiceEnds name pos (before ++ (.ok (), pos') :: after) (.ok (), pos')
  | failed {before after : List Ending} {failure : ParseFailure} {pos' : Option Nat} :
      (∀ x ∈ before, x.IsMismatch) → (∀ d, failure ≠ .mismatch d) →
      ChoiceEnds name pos (before ++ (.error failure, pos') :: after) (.error failure, some pos)
  | mismatch {endings : List Ending} {es : List Mismatch} {d : Mismatch} :
      endings.map (·.1) = es.map (fun e => .error (.mismatch e)) → FirstDeepest d es →
      ChoiceEnds name pos endings (.error (.mismatch (d.within name)), some pos)

variable {σ : Type}

namespace Parser

/-- The endings of alternatives that are tried one after the other, each of them in place but in
the manager that the attempts before it have left. -/
def inTurn : List (Parser σ) → CursorId → Manager σ → List Ending
  | [], _, _ => []
  | p :: ps, id, m => ending p id m :: inTurn ps id (attempt p id m).2

/-- The endings of alternatives that are tried one after the other, until one is not a mismatch.
What is said of those behind it is of no account. -/
inductive Tried (id : CursorId) : List (Parser σ) → Manager σ → List Ending → Prop where
  | nil {m : Manager σ} : Tried id [] m []
  | mismatch {p : Parser σ} {ps : List (Parser σ)} {m : Manager σ} {endings : List Ending} :
      (ending p id m).IsMismatch → Tried id ps (attempt p id m).2 endings →
      Tried id (p :: ps) m (ending p id m :: endings)
  | settled {p : Parser σ} {ps : List (Parser σ)} {m : Manager σ} {endings : List Ending} :
      ¬ (ending p id m).IsMismatch → Tried id (p :: ps) m (ending p id m :: endings)

theorem tried_inTurn (ps : List (Parser σ)) (id : CursorId) (m : Manager σ) :
    Tried id ps m (inTurn ps id m) := by
  induction ps generalizing m with
  | nil => exact .nil
  | cons p ps ih =>
    by_cases h : (ending p id m).IsMismatch
    · exact .mismatch h (ih _)
    · exact .settled h

theorem Tried.uncons {p : Parser σ} {ps : List (Parser σ)} {id : CursorId} {m : Manager σ}
    {endings : List Ending} (h : Tried id (p :: ps) m endings) :
    ∃ rest, endings = ending p id m :: rest ∧
      ((ending p id m).IsMismatch → Tried id ps (attempt p id m).2 rest) := by
  cases h with
  | mismatch _ ht => exact ⟨_, rfl, fun _ => ht⟩
  | settled hn => exact ⟨_, rfl, fun hr => absurd hr hn⟩

/-! ### The first alternative -/

variable {name : String} {deepest : Option Mismatch} {p : Parser σ} {ps : List (Parser σ)}
  {id : CursorId} {m m' : Manager σ}

theorem choiceFrom_of_mismatch {d : Mismatch} (ha : attempt p id m = (.error (.mismatch d), m')) :
    choiceFrom name deepest (p :: ps) id m =
      choiceFrom name (some (.deeper deepest d)) ps id m' := by
  simp only [choiceFrom, ha]

theorem choiceFrom_of_settled {result : Except ParseFailure Unit}
    (ha : attempt p id m = (result, m')) (hr : ∀ d, result ≠ .error (.mismatch d)) :
    choiceFrom name deepest (p :: ps) id m = (result, m') := by
  rcases result with (d | _ | _ | _) | _
  case error.mismatch => exact absurd rfl (hr d)
  all_goals simp only [choiceFrom, ha]

/-- What is behind alternatives that have settled the choice is not tried. -/
theorem choiceFrom_append (h : ∀ d, (choiceFrom name deepest ps id m).1 ≠ .error (.mismatch d))
    (others : List (Parser σ)) :
    choiceFrom name deepest (ps ++ others) id m = choiceFrom name deepest ps id m := by
  induction ps generalizing deepest m with
  | nil =>
    cases deepest with
    | some d => exact absurd rfl (h _)
    | none =>
      cases ho : m.cursors.offset? id with
      | some pos => simp [choiceFrom, Manager.offset, ho] at h
      | none =>
        cases others with
        | nil => rfl
        | cons p others =>
          simp only [List.nil_append, choiceFrom, attempt_of_dead p ho, Manager.offset, ho]
  | cons p ps ih =>
    rw [List.cons_append]
    rcases ha : attempt p id m with ⟨result, m'⟩
    by_cases hr : ∃ d, result = .error (.mismatch d)
    · obtain ⟨d, rfl⟩ := hr
      rw [choiceFrom_of_mismatch ha] at h
      rw [choiceFrom_of_mismatch ha, choiceFrom_of_mismatch ha, ih h]
    · rw [not_exists] at hr
      rw [choiceFrom_of_settled ha hr, choiceFrom_of_settled ha hr]

/-! ### All of them -/

variable [ByteSource σ] {pos : Nat}

/-- What is on offer does not change with what is tried of it. -/
theorem tried_alone {f : Feed} {m m' : Manager σ} (h : Meets f m id pos) (h' : Meets f m' id pos)
    {ps : List Plan} (hps : ∀ p ∈ ps, p.GivesUp) :
    Tried id (ps.map Plan.run) m' ((ps.map Plan.run).map (ending · id m)) := by
  induction ps generalizing m' with
  | nil => exact .nil
  | cons p ps ih =>
    rw [List.forall_mem_cons] at hps
    rw [List.map_cons, List.map_cons, h.ending_run_eq h' hps.1]
    by_cases hr : (ending p.run id m').IsMismatch
    · refine .mismatch hr (ih ?_ hps.2)
      obtain ⟨d, hd⟩ := hr
      rcases Plan.attempt_cases (Manager.lockstep_offers f) hps.1 (h'.beside h') with
        ⟨after, n, hp, -⟩ | ⟨failure, after, n, hp, ha, hv, ho, hoffers⟩
      · simp [hp] at hd
      · rw [hp] at hd
        obtain rfl := Except.error.inj hd
        rw [ha]
        exact ⟨hv, ho, (hoffers nofun).2⟩
    · exact .settled hr

/-- Alternatives that are still to be tried, behind `earlier` ones that mismatched. -/
theorem choiceFrom_ends {ps : List Plan} (hps : ∀ p ∈ ps, p.GivesUp) {m : Manager σ}
    (h : m.Valid) (ho : m.cursors.offset? id = some pos) {endings : List Ending}
    (ht : Tried id (ps.map Plan.run) m endings) {deepest : Option Mismatch} {es : List Mismatch}
    (hd : Mismatch.Remembered deepest es) {earlier : List Ending}
    (he : earlier.map (·.1) = es.map (fun e => .error (.mismatch e)))
    (hne : deepest = none → ps ≠ []) :
    ChoiceEnds name pos (earlier ++ endings)
      (ending (choiceFrom name deepest (ps.map Plan.run)) id m) := by
  -- On the alternatives that are left; what has been tried moves from `endings` to `earlier`.
  induction ps generalizing m endings deepest es earlier with
  | nil =>
    cases ht
    cases deepest with
    | none => exact absurd rfl (hne rfl)
    | some d =>
      rw [List.append_nil, ending]
      simp only [List.map_nil, choiceFrom, ho]
      exact .mismatch he hd
  | cons p ps ih =>
    rw [List.forall_mem_cons] at hps
    have hmismatch : ∀ x ∈ earlier, x.IsMismatch := by
      intro x hx
      have hmem := List.mem_map_of_mem (f := (·.1)) hx
      rw [he] at hmem
      obtain ⟨e, _, hx⟩ := List.mem_map.mp hmem
      exact ⟨e, hx.symm⟩
    rw [List.map_cons] at ht ⊢
    obtain ⟨rest, rfl, hrest⟩ := ht.uncons
    rcases Plan.attempt_cases Manager.lockstep_abreast hps.1 ⟨h, h, ho, ho, .refl m⟩ with
      ⟨after, m', hp, ha, -, hb⟩ | ⟨failure, after, m', hp, ha, hv, ho', -⟩
    · rw [ending_eq (choiceFrom_of_settled ha (by simp)), hb.offset_eq', hp]
      exact .matched hmismatch
    · by_cases hm : ∃ d, failure = .mismatch d
      · obtain ⟨d, rfl⟩ := hm
        have htail := hrest ⟨d, by rw [hp]⟩
        rw [ha] at htail
        have hmore : ChoiceEnds name pos ((earlier ++ [ending p.run id m]) ++ rest) _ :=
          ih hps.2 hv ho' htail (hd.deeper d) (by simp [he, hp]) (by simp)
        rw [ending_congr (choiceFrom_of_mismatch ha)]
        rwa [List.append_assoc, List.singleton_append] at hmore
      · rw [not_exists] at hm
        rw [ending_eq (choiceFrom_of_settled ha (by simpa using hm)), ho', hp]
        exact .failed hmismatch hm

end Parser

/-! ### Choices of a grammar -/

namespace RuleGraph

variable [ByteSource σ]

/-- A choice, at any place that a run has brought a cursor to.

It ends as its alternatives do, each of them in the manager that those before it have left. Where a
feed is on offer, as it always is from a finite source, that is as each of them would have ended
alone. If those up to some place settle it, it makes no difference what is behind them: they are not
tried. -/
theorem choice_exact (options : StreamOptions) (source : σ) (actions : List Action) {id : CursorId}
    {pos : Nat}
    (ho : ((Manager.ofSource options source).perform actions).cursors.offset? id = some pos)
    {g : RuleGraph} {r : RuleId} {alternatives : List RuleId}
    (hk : g.kind r = .choice alternatives) (hne : alternatives ≠ []) (depth : Nat) :
    let m := (Manager.ofSource options source).perform actions
    let ps : List (Parser σ) := alternatives.map (g.parser depth)
    let out := Parser.ending (g.parser (depth + 1) r) id m
    ChoiceEnds (g.name r) pos (Parser.inTurn ps id m) out ∧
    (∀ f, m.Offers f → ChoiceEnds (g.name r) pos (ps.map (Parser.ending · id m)) out) ∧
    (∀ before after others, ps = before ++ after →
      (∀ d, (Parser.choice (g.name r) before id m).1 ≠ .error (.mismatch d)) →
      Parser.choice (g.name r) (before ++ others) id m = g.parser (depth + 1) r id m) := by
  intro m ps out
  have hm : m.Valid := Manager.valid_perform (Manager.valid_ofSource options source) actions
  have hplans : ∀ p ∈ alternatives.map (g.plan depth), p.GivesUp := by
    intro p hp
    obtain ⟨a, _, rfl⟩ := List.mem_map.mp hp
    exact g.givesUp_plan depth a
  have hps : (alternatives.map (g.plan depth)).map Plan.run = ps := by
    rw [List.map_map]
    exact List.map_congr_left fun a _ => g.run_plan depth a
  have hparser : g.parser (depth + 1) r = Parser.choice (g.name r) ps := by
    simp only [parser, hk, ps]
  have hends {endings : List Ending} (ht : Parser.Tried id ps m endings) :
      ChoiceEnds (g.name r) pos endings out := by
    have hchoice : ChoiceEnds (g.name r) pos ([] ++ endings) _ :=
      Parser.choiceFrom_ends hplans hm ho (hps ▸ ht) (show Mismatch.Remembered none [] from rfl)
        rfl fun _ => by simpa using hne
    simp only [out, hparser]
    rwa [hps] at hchoice
  refine ⟨hends (Parser.tried_inTurn ps id m), fun f hf => hends ?_, ?_⟩
  · have halone := Parser.tried_alone ⟨hm, ho, hf⟩ ⟨hm, ho, hf⟩ hplans
    rwa [hps] at halone
  · intro before after others hsplit hsettled
    rw [hparser, hsplit, Parser.choice, Parser.choiceFrom_append hsettled,
      Parser.choice, Parser.choiceFrom_append hsettled]

/-- Three ways on, of which the second gets as far as the third. -/
def ways : RuleGraph :=
  ⟨#[⟨"ways", .choice [1, 2, 3]⟩, ⟨"axx", .literal [97, 120, 120]⟩, ⟨"abx", .literal [97, 98, 120]⟩,
    ⟨"aby", .literal [97, 98, 121]⟩]⟩

/-- The cursor is not at the start, and what its first alternative has looked at is in the window
when the others are tried. -/
theorem choice_exact_ways :
    let source := Script.ofPieces [.chunk [122, 97], .chunk [98, 99], .failure ⟨.other, "lost"⟩]
    let m := (Manager.ofSource {} source).perform [.step (.branch 0), .step (.read 1 1)]
    let ps : List (Parser Script) := [1, 2, 3].map (ways.parser 1)
    let out := Parser.ending (ways.parser 2 0) 1 m
    m.cursors.offset? 1 = some 1 ∧ m.Offers m.front.feed ∧
    ChoiceEnds "ways" 1 (ps.map (Parser.ending · 1 m)) out ∧
    ps.map (Parser.ending · 1 m) =
      [(.error (.mismatch ⟨2, ["axx"], .unexpected 120 98⟩), some 4),
        (.error (.mismatch ⟨3, ["abx"], .unexpected 120 99⟩), some 4),
        (.error (.mismatch ⟨3, ["aby"], .unexpected 121 99⟩), some 4)] ∧
    out = (.error (.mismatch ⟨3, ["ways", "abx"], .unexpected 120 99⟩), some 1) := by
  intro source m ps out
  have ho : m.cursors.offset? 1 = some 1 := by decide +kernel
  obtain ⟨_, halone, _⟩ := choice_exact {} source [.step (.branch 0), .step (.read 1 1)] ho
    (show ways.kind 0 = .choice [1, 2, 3] by decide) (by simp) 1
  exact ⟨ho, m.offers_front, halone _ m.offers_front, by decide +kernel, by decide +kernel⟩

end RuleGraph

end StreamPeg
