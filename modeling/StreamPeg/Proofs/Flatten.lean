import StreamPeg.Proofs.Reached
import StreamPeg.Proofs.Refusals

/-!
# Choices within choices

The alternatives of a choice that is itself an alternative are tried on branches of a branch. That
makes no difference to what they find (`Parser.Steady`), so the inner choice mismatches exactly if
all of them do, and then with the first of their mismatches that got furthest. The deepest of all
is the same whether some of them are compared among themselves first or not
(`DeepestAt.of_regrouped`), so only the name of the inner choice in the path tells the difference
(`Flattened`).
-/

namespace StreamPeg

variable {σ : Type}

/-! ### Managers that look alike -/

theorem CursorTable.size_congr {s t : CursorTable} (h : ∀ i, s.offset? i = t.offset? i) :
    s.size = t.size := by
  have hnodup (t : CursorTable) : t.entries.Nodup := .of_map _ t.nodup
  refine ((List.perm_ext_iff_of_nodup (hnodup s) (hnodup t)).mpr fun e => ?_).length_eq
  rw [s.mem_entries_iff, t.mem_entries_iff, h]

namespace Manager

/-- The source has been asked the same, every cursor is where it is in the other, and the windows
are the same size. -/
structure LookAlike (m m' : Manager σ) : Prop extends Abreast m m' where
  offset?_eq : ∀ i, m'.cursors.offset? i = m.cursors.offset? i
  stats : m'.stats = m.stats

variable {m n n' : Manager σ} {id : CursorId} {pos : Nat}

/-- Where only one cursor has moved, and to the same place. -/
theorem Abreast.lookAlike (h : Abreast n n') (hs : m.Shifted id pos n) (hs' : m.Shifted id pos n') :
    LookAlike n n' := by
  have ho (i : CursorId) : n'.cursors.offset? i = n.cursors.offset? i := by
    by_cases hi : i = id
    · rw [hi, hs.offset_self, hs'.offset_self]
    · rw [hs.offset_of_ne i hi, hs'.offset_of_ne i hi]
  have hbase : n'.base = n.base := by
    have hf := hs.valid.floor?_eq hs.offset_self
    have hf' := hs'.valid.floor?_eq hs'.offset_self
    simp only [CursorTable.floor?_eq_some_iff, ho] at hf hf'
    obtain ⟨⟨i, hi⟩, hle⟩ := hf
    obtain ⟨⟨i', hi'⟩, hle'⟩ := hf'
    exact Nat.le_antisymm (hle' i _ hi) (hle i' _ hi')
  have hsize : n'.window.size = n.window.size := by
    have hw := hs.valid.base_add_size
    have hw' := hs'.valid.base_add_size
    rw [h.received_eq] at hw'
    omega
  exact ⟨h, ho, by rw [stats, stats, hbase, hsize, CursorTable.size_congr ho]⟩

end Manager

/-! ### Mismatches in groups -/

/-- Some neighbours may be represented by the deepest of them. -/
theorem DeepestAt.of_regrouped {k k' : Nat} {d d' w : Mismatch} {xs ys zs : List Mismatch}
    (h : DeepestAt k d (xs ++ w :: zs)) (hw : DeepestAt k' d' ys) (ho : w.offset = d'.offset) :
    (∃ j, (j < xs.length ∨ xs.length + ys.length ≤ j) ∧ DeepestAt j d (xs ++ (ys ++ zs))) ∨
      d = w ∧ DeepestAt (xs.length + k') d' (xs ++ (ys ++ zs)) := by
  have hget := h.getElem?
  have hlt := h.lt
  have hk' : k' < ys.length := (List.getElem?_eq_some_iff.mp hw.getElem?).1
  have hle : ∀ e ∈ xs ++ (ys ++ zs), e.offset ≤ d.offset := by
    have hwd : w.offset ≤ d.offset := h.le w (by simp)
    intro e he
    rcases List.mem_append.mp he with he | he
    · exact h.le e (by simp [he])
    rcases List.mem_append.mp he with he | he
    · exact Nat.le_trans (hw.le e he) (ho ▸ hwd)
    · exact h.le e (by simp [he])
  rcases Nat.lt_trichotomy k xs.length with hk | rfl | hk
  · refine .inl ⟨k, .inl hk, ?_, hle, ?_⟩
    · rwa [List.getElem?_append_left hk] at hget ⊢
    · rwa [List.take_append_of_le_length (Nat.le_of_lt hk)] at hlt ⊢
  · obtain rfl : w = d := by simpa using hget
    refine .inr ⟨rfl, ?_, fun e he => ho ▸ hle e he, ?_⟩
    · rw [List.getElem?_append_right (Nat.le_add_right _ _), Nat.add_sub_cancel_left,
        List.getElem?_append_left hk', hw.getElem?]
    · rw [List.take_length_add_append, List.take_append_of_le_length (Nat.le_of_lt hk')]
      rw [List.take_left] at hlt
      intro e he
      rcases List.mem_append.mp he with he | he
      · exact ho ▸ hlt e he
      · exact hw.lt e he
  · obtain ⟨i, rfl⟩ := Nat.exists_eq_add_of_lt hk
    refine .inl ⟨xs.length + (ys.length + i), .inr (by omega), ?_, hle, ?_⟩
    · rw [List.getElem?_append_right (by omega)] at hget ⊢
      rw [List.getElem?_append_right (by omega)]
      simpa [Nat.add_sub_cancel_left, Nat.add_assoc] using hget
    · rw [Nat.add_assoc, List.take_length_add_append, List.take_succ_cons] at hlt
      rw [List.take_length_add_append, List.take_length_add_append]
      intro e he
      rcases List.mem_append.mp he with he | he
      · exact hlt e (by simp [he])
      rcases List.mem_append.mp he with he | he
      · exact Nat.lt_of_le_of_lt (ho ▸ hw.le e he) (hlt w (by simp))
      · exact hlt e (by simp [he])

/-! ### Alternatives on a branch of a branch -/

namespace Parser

variable [ByteSource σ] {id id' : CursorId} {pos : Nat} {m m' n n' : Manager σ}
  {result : Except ParseFailure Unit}

/-- In managers that are abreast the same alternatives mismatch, up to the same that is not. -/
theorem allMismatch_or_settled (ps : List Plan) (h : Beside Manager.Abreast m id m' id' pos) :
    (∃ es n n', AllMismatch id (ps.map Plan.run) m es n ∧
        AllMismatch id' (ps.map Plan.run) m' es n' ∧ Beside Manager.Abreast n id n' id' pos) ∨
      ∃ result n n' pos', Settled id (ps.map Plan.run) m result n ∧
        Settled id' (ps.map Plan.run) m' result n' ∧ (result ≠ .ok () → pos' = pos) ∧
        Beside Manager.Abreast n id n' id' pos' := by
  induction ps generalizing m m' with
  | nil => exact .inl ⟨[], m, m', .nil, .nil, h⟩
  | cons p ps ih =>
    obtain ⟨hsame, pos', hstays, hb⟩ := Steady.attempt (steady_run p) p.shifts_run h
    rcases ha : attempt p.run id m with ⟨result, n⟩
    rcases ha' : attempt p.run id' m' with ⟨result', n'⟩
    rw [ha, ha'] at hsame hb
    rw [ha] at hstays
    dsimp only at hsame hstays hb
    subst hsame
    by_cases hr : ∃ d, result = .error (.mismatch d)
    · obtain ⟨d, rfl⟩ := hr
      obtain rfl := hstays (by simp)
      rcases ih hb with ⟨es, k, k', hk, hk', hb'⟩ | ⟨result, k, k', after, hk, hk', hb'⟩
      · exact .inl ⟨d :: es, k, k', .cons ha hk, .cons ha' hk', hb'⟩
      · exact .inr ⟨result, k, k', after, .behind ha hk, .behind ha' hk', hb'⟩
    · rw [not_exists] at hr
      exact .inr ⟨result, n, n', pos', .here ha hr, .here ha' hr, hstays, hb⟩

/-- A choice that is itself tried on a branch, and its alternatives in its place. -/
theorem choice_allMismatch_or_settled (name : String) {ps : List Plan} (hne : ps ≠ [])
    (h : Beside Manager.Abreast m id m' id' pos) :
    (∃ es k d n n', DeepestAt k d es ∧ AllMismatch id' (ps.map Plan.run) m' es n' ∧
        attempt (Plan.choiceFrom name none ps).run id m =
          (.error (.mismatch (d.within name)), n) ∧
        Beside Manager.Abreast n id n' id' pos) ∨
      ∃ result n n' pos', Settled id' (ps.map Plan.run) m' result n' ∧
        attempt (Plan.choiceFrom name none ps).run id m = (result, n) ∧
        Beside Manager.Abreast n id n' id' pos' := by
  obtain ⟨n, k, after, hc, hn, ha, hc', ho, hk⟩ :=
    exists_attempt (Plan.choiceFrom name none ps).shifts_run h.valid h.offset_eq
  rw [show (Plan.choiceFrom name none ps).run m.nextId n =
    choice name (ps.map Plan.run) m.nextId n by rw [Plan.run_choiceFrom, choice]] at ha hc' ho hk
  have hbranch : Beside Manager.Abreast n m.nextId m' id' pos :=
    ⟨hn.valid, h.valid', hn.offset_self, h.offset_eq', Manager.lockstep_abreast.left hc h.related⟩
  rcases allMismatch_or_settled ps hbranch with
    ⟨es, n₁, n', hr, hr', hb⟩ | ⟨result, n₁, n', pos', hs, hs', hstays, hb⟩
  · obtain ⟨i, d, hd⟩ := hr.exists_deepestAt (by simpa using hne)
    rw [hr.choice_eq hd] at ha hc' hk
    exact .inl ⟨es, i, d, k, n', hd, hr', ha, hk.valid, hb.valid', hk.offset_self, hb.offset_eq',
      Manager.lockstep_abreast.left hc' hb.related⟩
  · rw [hs.choice_eq] at ha hc' hk ho
    obtain rfl := Option.some.inj (hb.offset_eq.symm.trans ho)
    have hpos : (if result = .ok () then pos' else pos) = pos' := by
      split
      · rfl
      · next hne => exact (hstays hne).symm
    rw [hpos] at hk
    exact .inr ⟨result, k, n', pos', hs', ha, hk.valid, hb.valid', hk.offset_self, hb.offset_eq',
      Manager.lockstep_abreast.left hc' hb.related⟩

/-- The inner choice takes part with the deepest mismatch of its alternatives. -/
theorem nested_allMismatch_or_settled (name : String) (xs : List Plan) {ys : List Plan}
    (hne : ys ≠ []) (zs : List Plan) (h : Beside Manager.Abreast m id m' id' pos) :
    (∃ exs eys ezs k d n n', exs.length = xs.length ∧ eys.length = ys.length ∧
        DeepestAt k d eys ∧
        AllMismatch id ((xs ++ Plan.choiceFrom name none ys :: zs).map Plan.run) m
          (exs ++ d.within name :: ezs) n ∧
        AllMismatch id' ((xs ++ (ys ++ zs)).map Plan.run) m' (exs ++ (eys ++ ezs)) n' ∧
        Beside Manager.Abreast n id n' id' pos) ∨
      ∃ result n n' pos',
        Settled id ((xs ++ Plan.choiceFrom name none ys :: zs).map Plan.run) m result n ∧
        Settled id' ((xs ++ (ys ++ zs)).map Plan.run) m' result n' ∧
        Beside Manager.Abreast n id n' id' pos' := by
  simp only [List.map_append, List.map_cons]
  rcases allMismatch_or_settled xs h with
    ⟨exs, m₁, m₁', hx, hx', hb⟩ | ⟨result, n, n', pos', hs, hs', -, hb⟩
  case inr => exact .inr ⟨result, n, n', pos', hs.append _, hs'.append _, hb⟩
  rcases choice_allMismatch_or_settled name hne hb with
    ⟨eys, k, d, m₂, m₂', hd, hy', ha, hb⟩ | ⟨result, n, n', pos', hs', ha, hb⟩
  case inr =>
    exact .inr ⟨result, n, n', pos', hx.settled (.here ha hs'.ne_mismatch),
      hx'.settled (hs'.append _), hb⟩
  rcases allMismatch_or_settled zs hb with
    ⟨ezs, n, n', hz, hz', hb⟩ | ⟨result, n, n', pos', hs, hs', -, hb⟩
  · have hlen := hx.length_eq
    have hlen' := hy'.length_eq
    rw [List.length_map] at hlen hlen'
    exact .inl ⟨exs, eys, ezs, k, d, n, n', hlen, hlen', hd, hx.append (.cons ha hz),
      hx'.append (hy'.append hz'), hb⟩
  · exact .inr ⟨result, n, n', pos', hx.settled (.behind ha hs), hx'.settled (hy'.settled hs'), hb⟩

/-- However two choices have come about, they move no cursor but their own. -/
theorem lookAlike_of_choices (name : String) {ps qs : List Plan}
    {result' : Except ParseFailure Unit} {pos' : Nat} (h : m.Valid)
    (ho : m.cursors.offset? id = some pos) (hp : choice name (ps.map Plan.run) id m = (result, n))
    (hq : choice name (qs.map Plan.run) id m = (result', n'))
    (hb : Beside Manager.Abreast n id n' id pos') : n.LookAlike n' := by
  obtain ⟨_, _, hs⟩ := (Plan.choiceFrom name none ps).shifts_run h ho
  obtain ⟨_, _, hs'⟩ := (Plan.choiceFrom name none qs).shifts_run h ho
  rw [Plan.run_choiceFrom, ← choice, hp] at hs
  rw [Plan.run_choiceFrom, ← choice, hq] at hs'
  obtain rfl := Option.some.inj (hb.offset_eq.symm.trans hs.offset_self)
  obtain rfl := Option.some.inj (hb.offset_eq'.symm.trans hs'.offset_self)
  exact hb.related.lookAlike hs hs'

end Parser

/-! ### Choices of a grammar -/

namespace RuleGraph

variable [ByteSource σ]

/-- What a choice returns, on the left if `count` of its alternatives, from `start` on, are a choice
of their own, and on the right if they are not. -/
inductive Flattened (g : RuleGraph) (name inner : String) (alternatives : List RuleId)
    (start count : Nat) (id : CursorId) (m : Manager σ) :
    Except ParseFailure Unit × Manager σ → Except ParseFailure Unit × Manager σ → Prop where
  | settled {result : Except ParseFailure Unit} {n n' : Manager σ} :
      (∀ d, result ≠ .error (.mismatch d)) → n.LookAlike n' →
      Flattened g name inner alternatives start count id m (result, n) (result, n')
  | outside {es : List Mismatch} {k : Nat} {d : Mismatch} {n n' : Manager σ} :
      g.Declines id alternatives m es n' → DeepestAt k d es → k < start ∨ start + count ≤ k →
      n.LookAlike n' →
      Flattened g name inner alternatives start count id m
        (.error (.mismatch (d.within name)), n) (.error (.mismatch (d.within name)), n')
  | inside {es : List Mismatch} {k : Nat} {d : Mismatch} {n n' : Manager σ} :
      g.Declines id alternatives m es n' → DeepestAt k d es → start ≤ k → k < start + count →
      n.LookAlike n' →
      Flattened g name inner alternatives start count id m
        (.error (.mismatch ((d.within inner).within name)), n)
        (.error (.mismatch (d.within name)), n')

variable {g : RuleGraph} {id : CursorId} {pos : Nat} {m : Manager σ}

/-- With the same depth for all alternatives. -/
theorem choice_flattened (g : RuleGraph) (depth : Nat) (name inner : String)
    (xs : List RuleId) {ys : List RuleId} (hne : ys ≠ []) (zs : List RuleId) (h : m.Valid)
    (ho : m.cursors.offset? id = some pos) :
    GivenUpOr (g.Flattened name inner (xs ++ (ys ++ zs)) xs.length ys.length id m)
      (Parser.choice name (xs.map (g.parser depth) ++
        Parser.choice inner (ys.map (g.parser depth)) :: zs.map (g.parser depth)) id m)
      (Parser.choice name ((xs ++ (ys ++ zs)).map (g.parser depth)) id m) := by
  have hplans (rs : List RuleId) :
      rs.map (g.parser (σ := σ) depth) = (rs.map (g.plan depth)).map Plan.run := by
    rw [List.map_map]
    exact (List.map_congr_left fun a _ => g.run_plan depth a).symm
  have hnested : xs.map (g.parser (σ := σ) depth) ++
      Parser.choice inner (ys.map (g.parser depth)) :: zs.map (g.parser depth) =
      (xs.map (g.plan depth) ++ Plan.choiceFrom inner none (ys.map (g.plan depth)) ::
        zs.map (g.plan depth)).map Plan.run := by
    rw [List.map_append, List.map_cons, Plan.run_choiceFrom, hplans, hplans, hplans, Parser.choice]
  have hflat : (xs ++ (ys ++ zs)).map (g.parser (σ := σ) depth) =
      (xs.map (g.plan depth) ++ (ys.map (g.plan depth) ++ zs.map (g.plan depth))).map Plan.run := by
    rw [hplans]
    simp only [List.map_append]
  have hself : Beside Manager.Abreast m id m id pos := ⟨h, h, ho, ho, .refl m⟩
  rw [hnested, hflat]
  rcases Parser.nested_allMismatch_or_settled inner (xs.map (g.plan depth))
    (show ys.map (g.plan depth) ≠ [] by simpa using hne) (zs.map (g.plan depth)) hself with
    ⟨exs, eys, ezs, k, d, n, n', hx, hy, hd, hr, hr', hb⟩ | ⟨result, n, n', pos', hs, hs', hb⟩
  · rw [List.length_map] at hx hy
    obtain ⟨j, e, he⟩ := hr.exists_deepestAt (by simp)
    have hdeclines : g.Declines id (xs ++ (ys ++ zs)) m (exs ++ (eys ++ ezs)) n' :=
      declines_of_allMismatch depth (by rwa [hflat])
    have hk : k < eys.length := (List.getElem?_eq_some_iff.mp hd.getElem?).1
    rcases he.of_regrouped hd rfl with ⟨i, hi, he'⟩ | ⟨rfl, hd'⟩
    · have halike := Parser.lookAlike_of_choices name h ho (hr.choice_eq he)
        (hr'.choice_eq he') hb
      rw [hr.choice_eq he, hr'.choice_eq he']
      exact .of_mismatch (.outside hdeclines he' (hx ▸ hy ▸ hi) halike)
    · have halike := Parser.lookAlike_of_choices name h ho (hr.choice_eq he)
        (hr'.choice_eq hd') hb
      rw [hr.choice_eq he, hr'.choice_eq hd']
      exact .of_mismatch (.inside hdeclines hd' (by omega) (by omega) halike)
  · have halike := Parser.lookAlike_of_choices name h ho hs.choice_eq hs'.choice_eq hb
    rw [hs.choice_eq, hs'.choice_eq]
    exact .of_same fun _ => .settled hs.ne_mismatch halike

/-- A choice within a choice, and the alternatives of both in a row, from any cursor in any manager
that a run leads to, whatever its source.

The one returns what the other does: the same answer, but for the name of the inner choice, which is
in the path exactly if the mismatch that is reported is of one of its own alternatives, and managers
that look the same. On a source that comes to an end, both return. -/
theorem choice_assoc {g : RuleGraph} {grouped group flat : RuleId} {xs ys zs : List RuleId}
    (hgrouped : g.kind grouped = .choice (xs ++ group :: zs))
    (hgroup : g.kind group = .choice ys) (hne : ys ≠ [])
    (hflat : g.kind flat = .choice (xs ++ (ys ++ zs))) (hname : g.name grouped = g.name flat)
    (options : StreamOptions) (actions : List Action) (id : CursorId) :
    (∀ {σ : Type} [ByteSource σ] (source : σ),
      let m := (Manager.ofSource options source).perform actions
      m.cursors.offset? id ≠ none →
      g.ReturnAlike grouped flat id m
        (g.Flattened (g.name flat) (g.name group) (xs ++ (ys ++ zs)) xs.length ys.length id m)) ∧
    ∀ {σ : Type} [FiniteSource σ] (source : σ),
      let m := (Manager.ofSource options source).perform actions
      m.cursors.offset? id ≠ none → g.NonLeftRecursive grouped → g.NonLeftRecursive flat →
      g.Flattened (g.name flat) (g.name group) (xs ++ (ys ++ zs)) xs.length ys.length id m
        (g.parse grouped id m) (g.parse flat id m) := by
  have halike {σ : Type} [ByteSource σ] {m : Manager σ} (h : m.Valid)
      (hlive : m.cursors.offset? id ≠ none) : g.ReturnAlike grouped flat id m
        (g.Flattened (g.name flat) (g.name group) (xs ++ (ys ++ zs)) xs.length ys.length id m) := by
    obtain ⟨pos, ho⟩ := Option.ne_none_iff_exists'.mp hlive
    have hinner := Approaches.choice hgroup (approaches_all (σ := σ) g ys)
    have houter := Approaches.choice hgrouped
      (List.rel_append (approaches_all g xs) (.cons hinner (approaches_all g zs)))
    have hrow := Approaches.choice hflat (approaches_all (σ := σ) g (xs ++ (ys ++ zs)))
    refine houter.returnAlike hrow fun depth => ?_
    simpa [hname, Function.comp_def] using
      choice_flattened g depth (g.name flat) (g.name group) xs hne zs h ho
  have hvalid {σ : Type} [ByteSource σ] (source : σ) :
      ((Manager.ofSource options source).perform actions).Valid :=
    Manager.valid_perform (Manager.valid_ofSource options source) actions
  exact ⟨fun source => halike (hvalid source), fun source hlive hr hr' =>
    (halike (hvalid source) hlive).parse (hvalid source) hr hr'⟩

/-- Three ways on, of which the first two are a choice of their own, and the same three in a row. -/
def forks : RuleGraph :=
  ⟨#[⟨"ways", .choice [1, 5]⟩, ⟨"ax", .choice [3, 4]⟩, ⟨"ways", .choice [3, 4, 5]⟩,
    ⟨"axx", .literal [97, 120, 120]⟩, ⟨"abx", .literal [97, 98, 120]⟩,
    ⟨"aby", .literal [97, 98, 121]⟩]⟩

/-- The second alternative of the inner choice gets as far as the one behind it. -/
theorem choice_assoc_forks :
    let m := (Manager.ofSource {} (Script.ofPieces [.chunk [122, 97], .chunk [98, 99]])).perform
      [.step (.branch 0), .step (.read 1 1)]
    forks.kind 0 = .choice [1, 5] ∧ forks.kind 1 = .choice [3, 4] ∧
    forks.kind 2 = .choice [3, 4, 5] ∧ forks.name 0 = forks.name 2 ∧
    m.cursors.offset? 1 ≠ none ∧ forks.NonLeftRecursive 0 ∧ forks.NonLeftRecursive 2 ∧
    forks.Flattened "ways" "ax" [3, 4, 5] 0 2 1 m (forks.parse 0 1 m) (forks.parse 2 1 m) ∧
    (forks.parse 0 1 m).1 =
      .error (.mismatch ⟨3, ["ways", "ax", "abx"], .unexpected 120 99⟩) ∧
    (forks.parse 2 1 m).1 = .error (.mismatch ⟨3, ["ways", "abx"], .unexpected 120 99⟩) := by
  intro m
  have hr (r : RuleId) : forks.NonLeftRecursive r :=
    nonLeftRecursive_of_falling (fun r => [2, 1, 1, 0, 0, 0].getD r 0) (by decide) r
  have hlive : m.cursors.offset? 1 ≠ none := by decide +kernel
  have h0 : forks.kind 0 = .choice ([] ++ 1 :: [5]) := rfl
  have h1 : forks.kind 1 = .choice [3, 4] := rfl
  have h2 : forks.kind 2 = .choice ([] ++ ([3, 4] ++ [5])) := rfl
  obtain ⟨_, hparse⟩ := choice_assoc h0 h1 (by simp) h2 (by decide) {}
    [.step (.branch 0), .step (.read 1 1)] 1
  exact ⟨rfl, rfl, rfl, by decide, hlive, hr 0, hr 2, hparse _ hlive (hr 0) (hr 2),
    by decide +kernel, by decide +kernel⟩

end RuleGraph

end StreamPeg
