import StreamPeg.Proofs.Again
import StreamPeg.Proofs.Reached
import StreamPeg.Proofs.Refusals

/-!
# What all alternatives begin with

A choice of sequences that all begin with the same part tries that part once for each of them,
every time on a branch of the cursor. As it does the same each time (`Plan.Takes`), the part may as
well be matched once, in place, and the choice be made behind it: alternative by alternative, what
is behind the part then begins at the same place in managers that are abreast (`attempt_factored`).
-/

namespace StreamPeg

variable {σ : Type}

theorem ParseFailure.within_of_ne_mismatch {e : ParseFailure} (h : ∀ d, e ≠ .mismatch d)
    (name : String) : e.within name = e := by
  cases e with
  | mismatch d => exact absurd rfl (h d)
  | source | unresolvedPlaceholder | tooDeep => rfl

theorem offsets_zipWith_within {xs : List (String × Plan)} {es : List Mismatch}
    (h : es.length = xs.length) :
    (xs.zipWith (fun x e => e.within x.1) es).map (·.offset) = es.map (·.offset) := by
  induction xs generalizing es with
  | nil => rw [List.length_eq_zero_iff.mp h]; rfl
  | cons x xs ih =>
    obtain ⟨e, es, rfl⟩ := List.exists_cons_of_length_eq_add_one h
    rw [List.zipWith_cons_cons, List.map_cons, List.map_cons, ih (Nat.succ.inj h)]
    rfl

namespace Plan.Takes

variable [ByteSource σ] {p : Plan} {m m' n : Manager σ} {pos after : Nat}
  {result : Except ParseFailure Unit}

theorem of_abreast (h : p.Takes m' pos result after n) (hab : m.Abreast m') :
    p.Takes m pos result after n := fun k id hab' => h k id (hab.symm.trans hab')

end Plan.Takes

namespace Parser

variable [ByteSource σ] {name : String} {p a : Plan} {id id' : CursorId} {pos after : Nat}
  {m n : Manager σ}

theorem shifts_pair (name : String) (p a : Plan) :
    (sequence (σ := σ) name [p.run, a.run]).Shifts := by
  have h : ((Plan.sequence name [p, a]).run : Parser σ).Shifts := Plan.shifts_run _
  rwa [Plan.run_sequence] at h

/-- If the first part fails, so does the attempt. -/
theorem attempt_of_takes_error (name : String) (a : Plan) {e : ParseFailure} (h : m.Valid)
    (ho : m.cursors.offset? id = some pos) (hp : p.Takes m pos (.error e) after n) :
    ∃ k, attempt (sequence name [p.run, a.run]) id m = (.error (e.within name), k) ∧
      n.Abreast k ∧ k.Valid ∧ k.cursors.offset? id = some pos := by
  obtain ⟨m₁, k, _, hb, hs, ha, hc, _, hk⟩ := exists_attempt (shifts_pair name p a) h ho
  obtain ⟨n₁, hr, hab, _, _⟩ := hp _ _ (.of_course hb) hs.valid hs.offset_self
  have hq : sequence name [p.run, a.run] m.nextId m₁ = (.error (e.within name), n₁) := by
    simp only [sequence, hr]
  rw [hq] at ha hc hk
  exact ⟨k, ha, hab.trans (.of_course hc), hk.valid, hk.offset_self⟩

/-- If it matches, the attempt goes on as the other one that starts behind it. -/
theorem attempt_factored (name : String) (a : Plan) (h : m.Valid)
    (ho : m.cursors.offset? id = some pos) (hn : n.Valid)
    (ho' : n.cursors.offset? id' = some after) (hp : p.Takes m pos (.ok ()) after n) :
    (∃ k k' o, attempt (sequence name [p.run, a.run]) id m = (.ok (), k) ∧
        attempt a.run id' n = (.ok (), k') ∧ k.Abreast k' ∧ k.cursors.offset? id = some o ∧
        k'.cursors.offset? id' = some o) ∨
      ∃ e k k', attempt (sequence name [p.run, a.run]) id m = (.error (e.within name), k) ∧
        attempt a.run id' n = (.error e, k') ∧ k.Abreast k' ∧ k.Valid ∧ k'.Valid ∧
        k.cursors.offset? id = some pos ∧ k'.cursors.offset? id' = some after := by
  obtain ⟨m₁, k, _, hb, hs, ha, hc, hin, hk⟩ := exists_attempt (shifts_pair name p a) h ho
  obtain ⟨n₁, k', _, hb', hs', ha', hc', hin', hk'⟩ := exists_attempt a.shifts_run hn ho'
  obtain ⟨m₂, hr, hab, hv, hoff⟩ := hp _ _ (.of_course hb) hs.valid hs.offset_self
  obtain ⟨hsame, o, hbeside⟩ := steady_run a
    ⟨hv, hs'.valid, hoff, hs'.offset_self, hab.symm.trans (.of_course hb')⟩
  rcases hr₁ : a.run m.nextId m₂ with ⟨result, m₃⟩
  rcases hr₂ : a.run n.nextId n₁ with ⟨result', n₂⟩
  rw [hr₁, hr₂] at hsame hbeside
  rw [hr₂] at ha' hc' hin' hk'
  dsimp only at hsame
  subst hsame
  have habreast (hc : Course m₃ [] k) : k.Abreast k' :=
    ((Manager.Abreast.of_course hc).symm.trans hbeside.related).trans (.of_course hc')
  cases result with
  | ok =>
    have hq : sequence name [p.run, a.run] m.nextId m₁ = (.ok (), m₃) := by
      simp only [sequence, hr, hr₁]
    rw [hq] at ha hc hin hk
    obtain rfl := Option.some.inj (hbeside.offset_eq.symm.trans hin)
    obtain rfl := Option.some.inj (hbeside.offset_eq'.symm.trans hin')
    exact .inl ⟨k, k', o, ha, ha', habreast hc, hk.offset_self, hk'.offset_self⟩
  | error e =>
    have hq : sequence name [p.run, a.run] m.nextId m₁ = (.error (e.within name), m₃) := by
      simp only [sequence, hr, hr₁]
    rw [hq] at ha hc hk
    exact .inr ⟨e, k, k', ha, ha', habreast hc, hk.valid, hk'.valid, hk.offset_self,
      hk'.offset_self⟩

theorem ahead_attempt (ha : a.GivesUp) (h : m.Valid) (ho : m.cursors.offset? id = some pos)
    {result : Except ParseFailure Unit} (hr : attempt a.run id m = (result, n))
    (hne : ∀ e, result ≠ .error (.source e)) : m.Ahead n := by
  have hahead := Plan.ahead_run (p := .attempt a .done) ⟨ha, fun _ => rfl, fun _ h => h⟩ h ho
  simp only [Plan.run, hr] at hahead
  exact hahead hne

/-- One after the other, as long as they mismatch, and the first part is matched again each time. -/
theorem factored_allMismatch_or_settled {xs : List (String × Plan)} (hxs : ∀ x ∈ xs, x.2.GivesUp)
    (h : m.Valid) (ho : m.cursors.offset? id = some pos) (hn : n.Valid)
    (ho' : n.cursors.offset? id' = some after) (hp : p.Takes m pos (.ok ()) after n)
    (hagain : ∀ {k}, n.Ahead k → p.Takes k pos (.ok ()) after k) (hab : xs = [] → m.Abreast n) :
    (∃ es k k', AllMismatch id (xs.map fun x => sequence x.1 [p.run, x.2.run]) m
          (xs.zipWith (fun x e => e.within x.1) es) k ∧
        AllMismatch id' (xs.map fun x => x.2.run) n es k' ∧ k.Abreast k') ∨
      ∃ result k k', Settled id (xs.map fun x => sequence x.1 [p.run, x.2.run]) m result k ∧
        Settled id' (xs.map fun x => x.2.run) n result k' ∧ k.Abreast k' ∧
        (result = .ok () →
          ∃ o, k.cursors.offset? id = some o ∧ k'.cursors.offset? id' = some o) := by
  induction xs generalizing m n with
  | nil => exact .inl ⟨[], m, n, .nil, .nil, hab rfl⟩
  | cons x xs ih =>
    rw [List.forall_mem_cons] at hxs
    rcases attempt_factored x.1 x.2 h ho hn ho' hp with
      ⟨k, k', o, ha, ha', hab, hk, hk'⟩ | ⟨e, k, k', ha, ha', hab, hv, hv', hk, hk'⟩
    · exact .inr ⟨.ok (), k, k', .here ha nofun, .here ha' nofun, hab, fun _ => ⟨o, hk, hk'⟩⟩
    · by_cases hm : ∃ d, e = .mismatch d
      · obtain ⟨d, rfl⟩ := hm
        have hahead := ahead_attempt hxs.1 hn ho' ha' nofun
        rcases ih hxs.2 hv hk hv' hk' ((hagain hahead).of_abreast hab)
          (fun hk => hagain (hahead.trans hk)) (fun _ => hab) with
          ⟨es, l, l', hl, hl', hab'⟩ | ⟨result, l, l', hl, hl', hab', hoff⟩
        · exact .inl ⟨d :: es, l, l', .cons ha hl, .cons ha' hl', hab'⟩
        · exact .inr ⟨result, l, l', .behind ha hl, .behind ha' hl', hab', hoff⟩
      · rw [not_exists] at hm
        rw [ParseFailure.within_of_ne_mismatch hm] at ha
        have hne : ∀ d, (.error e : Except ParseFailure Unit) ≠ .error (.mismatch d) := by
          simpa using hm
        exact .inr ⟨.error e, k, k', .here ha hne, .here ha' hne, hab, nofun⟩

/-- If the first part mismatches, it does so for all of them. -/
theorem allMismatch_of_takes_mismatch (xs : List (String × Plan)) {d : Mismatch} (h : m.Valid)
    (ho : m.cursors.offset? id = some pos) (hp : p.Takes m pos (.error (.mismatch d)) after n)
    (hagain : p.Takes n pos (.error (.mismatch d)) after n) (hab : xs = [] → n.Abreast m) :
    ∃ k, AllMismatch id (xs.map fun x => sequence x.1 [p.run, x.2.run]) m
        (xs.map fun x => d.within x.1) k ∧ n.Abreast k := by
  induction xs generalizing m with
  | nil => exact ⟨m, .nil, hab rfl⟩
  | cons x xs ih =>
    obtain ⟨k, ha, hk, hv, ho'⟩ := attempt_of_takes_error x.1 x.2 h ho hp
    obtain ⟨l, hl, hl'⟩ := ih hv ho' (hagain.of_abreast hk.symm) (fun _ => hk)
    exact ⟨l, .cons ha hl, hl'⟩

/-- They have all got equally far then, and the first of them is reported. -/
theorem choice_of_takes_mismatch (name : String) (x : String × Plan)
    (xs : List (String × Plan)) {d : Mismatch} (h : m.Valid)
    (ho : m.cursors.offset? id = some pos) (hp : p.Takes m pos (.error (.mismatch d)) after n)
    (hagain : p.Takes n pos (.error (.mismatch d)) after n) :
    ∃ k, choice name ((x :: xs).map fun x => sequence x.1 [p.run, x.2.run]) id m =
        (.error (.mismatch ((d.within x.1).within name)), k) ∧ n.Abreast k := by
  obtain ⟨k, hk, hab⟩ := allMismatch_of_takes_mismatch (x :: xs) h ho hp hagain nofun
  refine ⟨k, hk.choice_eq (k := 0) ⟨rfl, fun e he => ?_, by simp⟩, hab⟩
  obtain ⟨x, -, rfl⟩ := List.mem_map.mp he
  exact Nat.le_refl _

theorem choice_of_takes_failure (name : String) (x : String × Plan)
    (xs : List (String × Plan)) {e : ParseFailure} (h : m.Valid)
    (ho : m.cursors.offset? id = some pos) (hp : p.Takes m pos (.error e) after n)
    (he : ∀ d, e ≠ .mismatch d) :
    ∃ k, choice name ((x :: xs).map fun x => sequence x.1 [p.run, x.2.run]) id m = (.error e, k) ∧
      n.Abreast k := by
  obtain ⟨k, ha, hab, -, -⟩ := attempt_of_takes_error x.1 x.2 h ho hp
  rw [ParseFailure.within_of_ne_mismatch he] at ha
  exact ⟨k, choiceFrom_of_settled ha (by simpa using he), hab⟩

/-- If it matches, the choice behind it reports the same alternative as the one of all sequences. -/
theorem choice_of_takes_ok (name rest : String) {xs : List (String × Plan)} (hne : xs ≠ [])
    (hxs : ∀ x ∈ xs, x.2.GivesUp) (h : m.Valid) (ho : m.cursors.offset? id = some pos)
    (hn : n.Valid) (ho' : n.cursors.offset? id' = some after) (hp : p.Takes m pos (.ok ()) after n)
    (hagain : ∀ {k}, n.Ahead k → p.Takes k pos (.ok ()) after k) :
    (∃ es i d k k', AllMismatch id' (xs.map fun x => x.2.run) n es k' ∧ DeepestAt i d es ∧
        k.Abreast k' ∧ (∃ x, xs[i]? = some x ∧
          choice name (xs.map fun x => sequence x.1 [p.run, x.2.run]) id m =
            (.error (.mismatch ((d.within x.1).within name)), k)) ∧
        choice rest (xs.map fun x => x.2.run) id' n = (.error (.mismatch (d.within rest)), k')) ∨
      ∃ result k k', (∀ d, result ≠ .error (.mismatch d)) ∧ k.Abreast k' ∧
        choice name (xs.map fun x => sequence x.1 [p.run, x.2.run]) id m = (result, k) ∧
        choice rest (xs.map fun x => x.2.run) id' n = (result, k') ∧
        (result = .ok () →
          ∃ o, k.cursors.offset? id = some o ∧ k'.cursors.offset? id' = some o) := by
  rcases factored_allMismatch_or_settled hxs h ho hn ho' hp hagain
      (fun hnil => absurd hnil hne) with
    ⟨es, k, k', hk, hk', hab⟩ | ⟨result, k, k', hk, hk', hab, hoff⟩
  · obtain ⟨i, d, hd⟩ := hk'.exists_deepestAt (by simpa using hne)
    have hlen : es.length = xs.length := by rw [hk'.length_eq, List.length_map]
    have hi : i < xs.length := hlen ▸ (List.getElem?_eq_some_iff.mp hd.getElem?).1
    have hx : xs[i]? = some xs[i] := List.getElem?_eq_getElem hi
    have hd' : DeepestAt i (d.within xs[i].1) (xs.zipWith (fun x e => e.within x.1) es) :=
      hd.congr (offsets_zipWith_within hlen) (by simp [List.getElem?_zipWith, hd.getElem?, hx])
    exact .inl ⟨es, i, d, k, k', hk', hd, hab, ⟨xs[i], hx, hk.choice_eq hd'⟩, hk'.choice_eq hd⟩
  · exact .inr ⟨result, k, k', hk.ne_mismatch, hab, hk.choice_eq, hk'.choice_eq, hoff⟩

end Parser

/-! ### Choices of a grammar -/

namespace RuleGraph

variable [ByteSource σ]

/-- What a choice returns, on the left if each of its alternatives is a sequence of `first` and
something more, and on the right if the choice is made behind `first`. The `branches` are the
sequences, each with what it has behind `first`. -/
inductive Factored (g : RuleGraph) (spread factored rest : String) (first : RuleId)
    (branches : List (RuleId × RuleId)) (id : CursorId) (m : Manager σ) :
    Except ParseFailure Unit × Manager σ → Except ParseFailure Unit × Manager σ → Prop where
  | matched {n n' : Manager σ} {o : Nat} : n.Abreast n' → n.cursors.offset? id = some o →
      n'.cursors.offset? id = some o →
      Factored g spread factored rest first branches id m (.ok (), n) (.ok (), n')
  | stopped {b : RuleId × RuleId} {d : Mismatch} {n n' : Manager σ} :
      g.Returns first id m (.error (.mismatch d), n') → branches[0]? = some b → n.Abreast n' →
      Factored g spread factored rest first branches id m
        (.error (.mismatch ((d.within (g.name b.1)).within spread)), n)
        (.error (.mismatch (d.within factored)), n')
  | mismatch {k : Nat} {b : RuleId × RuleId} {d : Mismatch} {es : List Mismatch}
      {n₀ n n' : Manager σ} : g.Returns first id m (.ok (), n₀) →
      g.Declines id (branches.map (·.2)) n₀ es n' → DeepestAt k d es → branches[k]? = some b →
      n.Abreast n' →
      Factored g spread factored rest first branches id m
        (.error (.mismatch ((d.within (g.name b.1)).within spread)), n)
        (.error (.mismatch ((d.within rest).within factored)), n')
  | failed {e : ParseFailure} {n n' : Manager σ} : (∀ d, e ≠ .mismatch d) → n.Abreast n' →
      Factored g spread factored rest first branches id m (.error e, n) (.error e, n')

variable {g : RuleGraph} {id : CursorId} {pos : Nat} {m : Manager σ}

/-- With the same depth for all parts. -/
theorem choice_factored (g : RuleGraph) (depth : Nat) (spread factored rest : String)
    (first : RuleId) {branches : List (RuleId × RuleId)} (hne : branches ≠ []) (h : m.Valid)
    (ho : m.cursors.offset? id = some pos) :
    GivenUpOr (g.Factored spread factored rest first branches id m)
      (Parser.choice spread (branches.map fun b => Parser.sequence (g.name b.1)
        [g.parser depth first, g.parser depth b.2]) id m)
      (Parser.sequence factored [g.parser depth first,
        Parser.choice rest (branches.map fun b => g.parser depth b.2)] id m) := by
  have hfirst := g.givesUp_plan depth first
  obtain ⟨after, -, hs⟩ := (g.plan depth first).shifts_run h ho
  have htakes := Plan.takes_run h ho hs.offset_self
  have hagain {k : Manager σ} := Plan.takes_again (n := k) hfirst h ho hs.offset_self
  have hreturns {out : Except ParseFailure Unit × Manager σ}
      (hr : (g.plan depth first).run id m = out) (hne : out.1 ≠ .error .tooDeep) :
      g.Returns first id m out := returns_of_eq (by rw [← run_plan, hr]) hne
  -- The alternatives as plans, each with the name of its sequence.
  let plans (bs : List (RuleId × RuleId)) := bs.map fun b => (g.name b.1, g.plan depth b.2)
  have hspread : (branches.map fun b => Parser.sequence (σ := σ) (g.name b.1)
      [g.parser depth first, g.parser depth b.2]) =
      (plans branches).map fun x => Parser.sequence x.1 [(g.plan depth first).run, x.2.run] := by
    simp [plans, Function.comp_def, run_plan]
  have hrest : (branches.map fun b => g.parser (σ := σ) depth b.2) =
      (plans branches).map fun x => x.2.run := by
    simp [plans, Function.comp_def, run_plan]
  rw [hspread, hrest, ← g.run_plan depth first]
  rcases hr : (g.plan depth first).run id m with ⟨e | _, n⟩
  · obtain ⟨b, bs, rfl⟩ := List.exists_cons_of_ne_nil hne
    rw [hr] at htakes hagain
    by_cases hm : ∃ d, e = .mismatch d
    · obtain ⟨d, rfl⟩ := hm
      obtain ⟨k, hk, hab⟩ := Parser.choice_of_takes_mismatch spread
        (g.name b.1, g.plan depth b.2) (plans bs) h ho htakes
        (hagain (by simp) (.of_quiet (.refl n)))
      simp only [Parser.sequence, hr]
      exact hk ▸ .of_mismatch (.stopped (hreturns hr (by simp)) rfl hab.symm)
    · rw [not_exists] at hm
      obtain ⟨k, hk, hab⟩ := Parser.choice_of_takes_failure spread
        (g.name b.1, g.plan depth b.2) (plans bs) h ho htakes hm
      simp only [Parser.sequence, hr, ParseFailure.within_of_ne_mismatch hm]
      exact hk ▸ .of_same fun _ => .failed hm hab.symm
  · rw [hr] at hs htakes hagain
    have hgives : ∀ x ∈ plans branches, x.2.GivesUp := by
      intro x hx
      obtain ⟨b, -, rfl⟩ := List.mem_map.mp hx
      exact g.givesUp_plan depth b.2
    have hxs : plans branches ≠ [] := by simpa [plans] using hne
    rcases Parser.choice_of_takes_ok spread rest hxs hgives h ho hs.valid
      hs.offset_self htakes (hagain (by simp)) with
      ⟨es, i, d, k, k', hk, hd, hab, ⟨x, hx, hc⟩, hc'⟩ | ⟨result, k, k', hm, hab, hc, hc', hoff⟩
    · have hdeclines : g.Declines id (branches.map (·.2)) n es k' :=
        declines_of_allMismatch depth (by rwa [List.map_map, Function.comp_def, hrest])
      rw [List.getElem?_map, Option.map_eq_some_iff] at hx
      obtain ⟨b, hb, rfl⟩ := hx
      rw [hc]
      simp only [Parser.sequence, hr, hc']
      exact .of_mismatch (.mismatch (hreturns hr (by simp)) hdeclines hd hb hab)
    · rw [hc]
      rcases result with e | _
      · have hm : ∀ d, e ≠ .mismatch d := by simpa using hm
        simp only [Parser.sequence, hr, hc', ParseFailure.within_of_ne_mismatch hm]
        exact .of_same fun _ => .failed hm hab
      · obtain ⟨o, ho, ho'⟩ := hoff rfl
        simp only [Parser.sequence, hr, hc']
        exact .of_same fun _ => .matched hab ho ho'

/-- Alternatives that all begin with the same part, from any cursor in any manager that a run leads
to, whatever its source: to try them is to match that part and then to try what they have behind it.

Both match, and stop at the same place, or both have the same failure, or both mismatch. Then they
tell of the same mismatch, of the part itself or of what is behind it in one of the alternatives,
and differ only in the rules around that. On a source that comes to an end, both return. -/
theorem left_factoring {g : RuleGraph} {spread factored rest first : RuleId}
    {branches : List (RuleId × RuleId)} (hne : branches ≠ [])
    (hspread : g.kind spread = .choice (branches.map (·.1)))
    (hbranches : ∀ b ∈ branches, g.kind b.1 = .sequence [first, b.2])
    (hfactored : g.kind factored = .sequence [first, rest])
    (hrest : g.kind rest = .choice (branches.map (·.2))) (options : StreamOptions)
    (actions : List Action) (id : CursorId) :
    (∀ {σ : Type} [ByteSource σ] (source : σ),
      let m := (Manager.ofSource options source).perform actions
      m.cursors.offset? id ≠ none →
      g.ReturnAlike spread factored id m
        (g.Factored (g.name spread) (g.name factored) (g.name rest) first branches id m)) ∧
    ∀ {σ : Type} [FiniteSource σ] (source : σ),
      let m := (Manager.ofSource options source).perform actions
      m.cursors.offset? id ≠ none → g.NonLeftRecursive spread → g.NonLeftRecursive factored →
      g.Factored (g.name spread) (g.name factored) (g.name rest) first branches id m
        (g.parse spread id m) (g.parse factored id m) := by
  have halike {σ : Type} [ByteSource σ] {m : Manager σ} (h : m.Valid)
      (hlive : m.cursors.offset? id ≠ none) : g.ReturnAlike spread factored id m
        (g.Factored (g.name spread) (g.name factored) (g.name rest) first branches id m) := by
    obtain ⟨pos, ho⟩ := Option.ne_none_iff_exists'.mp hlive
    have hall : List.Forall₂ (g.Approaches (σ := σ)) (branches.map (·.1))
        (branches.map fun b depth =>
          Parser.sequence (g.name b.1) [g.parser depth first, g.parser depth b.2]) := by
      rw [List.forall₂_map_left_iff, List.forall₂_map_right_iff, List.forall₂_same]
      exact fun b hb => Approaches.sequence (hbranches b hb) (approaches_all g [first, b.2])
    have hleft := Approaches.choice hspread hall
    have hinner := Approaches.choice hrest (approaches_all (σ := σ) g (branches.map (·.2)))
    have hright := Approaches.sequence hfactored
      (.cons (approaches_self g first) (.cons hinner .nil))
    refine hleft.returnAlike hright fun depth => ?_
    simpa [Function.comp_def] using choice_factored g depth (g.name spread) (g.name factored)
      (g.name rest) first hne h ho
  have hvalid {σ : Type} [ByteSource σ] (source : σ) :
      ((Manager.ofSource options source).perform actions).Valid :=
    Manager.valid_perform (Manager.valid_ofSource options source) actions
  exact ⟨fun source => halike (hvalid source), fun source hlive hr hr' =>
    (halike (hvalid source) hlive).parse (hvalid source) hr hr'⟩

/-- Two words that begin alike, each as a sequence of its own, and with the choice made behind what
they have in common. -/
def words : RuleGraph :=
  ⟨#[⟨"words", .choice [2, 3]⟩, ⟨"word", .sequence [4, 5]⟩, ⟨"abb", .sequence [4, 6]⟩,
    ⟨"abc", .sequence [4, 7]⟩, ⟨"a", .literal [97]⟩, ⟨"end", .choice [6, 7]⟩,
    ⟨"bb", .literal [98, 98]⟩, ⟨"bc", .literal [98, 99]⟩]⟩

/-- Neither word is there, and both get equally far. The source would fail behind that. -/
theorem left_factoring_words :
    let source := Script.ofPieces [.chunk [122, 97], .chunk [98, 120], .failure ⟨.other, "lost"⟩]
    let m := (Manager.ofSource {} source).perform [.step (.branch 0), .step (.read 1 1)]
    let branches := [(2, 6), (3, 7)]
    branches ≠ [] ∧ words.kind 0 = .choice (branches.map (·.1)) ∧
    (∀ b ∈ branches, words.kind b.1 = .sequence [4, b.2]) ∧ words.kind 1 = .sequence [4, 5] ∧
    words.kind 5 = .choice (branches.map (·.2)) ∧ m.cursors.offset? 1 ≠ none ∧
    words.NonLeftRecursive 0 ∧ words.NonLeftRecursive 1 ∧
    words.Factored "words" "word" "end" 4 branches 1 m (words.parse 0 1 m) (words.parse 1 1 m) ∧
    (words.parse 0 1 m).1 =
      .error (.mismatch ⟨3, ["words", "abb", "bb"], .unexpected 98 120⟩) ∧
    (words.parse 1 1 m).1 =
      .error (.mismatch ⟨3, ["word", "end", "bb"], .unexpected 98 120⟩) := by
  intro source m branches
  have hr (r : RuleId) : words.NonLeftRecursive r :=
    nonLeftRecursive_of_falling (fun r => [2, 2, 1, 1, 0, 1, 0, 0].getD r 0) (by decide) r
  have hne : branches ≠ [] := List.cons_ne_nil _ _
  have hbranches : ∀ b ∈ branches, words.kind b.1 = .sequence [4, b.2] := by decide
  have hlive : m.cursors.offset? 1 ≠ none := by decide +kernel
  have h0 : words.kind 0 = .choice (branches.map (·.1)) := rfl
  have h1 : words.kind 1 = .sequence [4, 5] := rfl
  have h5 : words.kind 5 = .choice (branches.map (·.2)) := rfl
  obtain ⟨_, hparse⟩ := left_factoring hne h0 hbranches h1 h5 {}
    [.step (.branch 0), .step (.read 1 1)] 1
  exact ⟨hne, rfl, hbranches, rfl, rfl, hlive, hr 0, hr 1, hparse source hlive (hr 0) (hr 1),
    by decide +kernel, by decide +kernel⟩

end RuleGraph

end StreamPeg
