import StreamPeg.Proofs.Reached
import StreamPeg.Proofs.Returns

/-!
# Where a sequence breaks off

The parts of a sequence are matched in place, so a sequence within a sequence goes through the same
managers as the parts of both in a row. It breaks off at the same part (`BreaksAt`), and only the
failure tells the difference: if the part is one of the inner sequence, it has passed through that
too (`Regrouped`).
-/

namespace StreamPeg

namespace RuleGraph

variable {σ : Type} [ByteSource σ]

/-- Rules are matched one after another in place, and the one behind `k` others is the first that
does not match. -/
inductive BreaksAt (g : RuleGraph) (id : CursorId) :
    List RuleId → Manager σ → Nat → ParseFailure → Manager σ → Prop where
  | here {p : RuleId} {ps : List RuleId} {m m' : Manager σ} {e : ParseFailure} :
      g.Returns p id m (.error e, m') → BreaksAt g id (p :: ps) m 0 e m'
  | behind {p : RuleId} {ps : List RuleId} {m m' m'' : Manager σ} {k : Nat} {e : ParseFailure} :
      g.Returns p id m (.ok (), m') → BreaksAt g id ps m' k e m'' →
      BreaksAt g id (p :: ps) m (k + 1) e m''

/-- What a sequence returns, on the left if `count` of its parts, from `start` on, are a sequence of
their own, and on the right if they are not. -/
inductive Regrouped (g : RuleGraph) (name inner : String) (parts : List RuleId)
    (start count : Nat) (id : CursorId) (m : Manager σ) :
    Except ParseFailure Unit × Manager σ → Except ParseFailure Unit × Manager σ → Prop where
  | matched {m' : Manager σ} :
      Regrouped g name inner parts start count id m (.ok (), m') (.ok (), m')
  | outside {k : Nat} {e : ParseFailure} {m' : Manager σ} : g.BreaksAt id parts m k e m' →
      k < start ∨ start + count ≤ k →
      Regrouped g name inner parts start count id m
        (.error (e.within name), m') (.error (e.within name), m')
  | inside {k : Nat} {e : ParseFailure} {m' : Manager σ} : g.BreaksAt id parts m k e m' →
      start ≤ k → k < start + count →
      Regrouped g name inner parts start count id m
        (.error ((e.within inner).within name), m') (.error (e.within name), m')

variable {g : RuleGraph} {name inner : String} {p : RuleId} {parts : List RuleId}
  {start count start' count' : Nat} {id : CursorId} {m m' : Manager σ}
  {x y : Except ParseFailure Unit × Manager σ}

/-- With one part more in front, which is one of the inner sequence or not. -/
theorem Regrouped.cons (hp : g.Returns p id m (.ok (), m'))
    (hin : ∀ k, start' ≤ k + 1 ∧ k + 1 < start' + count' ↔ start ≤ k ∧ k < start + count)
    (h : g.Regrouped name inner parts start count id m' x y) :
    g.Regrouped name inner (p :: parts) start' count' id m x y := by
  cases h with
  | matched => exact .matched
  | @outside k e m'' hb hk =>
    have hk' : ¬ (start' ≤ k + 1 ∧ k + 1 < start' + count') := by rw [hin]; omega
    exact .outside (.behind hp hb) (by omega)
  | @inside k e m'' hb hs hc =>
    have hk' := (hin k).mpr ⟨hs, hc⟩
    exact .inside (.behind hp hb) hk'.1 hk'.2

theorem within_ne_tooDeep {e : ParseFailure} (h : e ≠ .tooDeep) (name : String) :
    (.error (e.within name) : Except ParseFailure Unit) ≠ .error .tooDeep := fun he =>
  h (ParseFailure.eq_of_within nofun (Except.error.inj he))

/-! ### The same depth for all parts -/

variable {depth : Nat}

/-- The same part in front of two sequences, and not one of the inner sequence. -/
theorem regrouped_cons_outside {ps qs : List (Parser σ)}
    (hfront : 0 < start' ∨ start' + count' = 0)
    (hin : ∀ k, start' ≤ k + 1 ∧ k + 1 < start' + count' ↔ start ≤ k ∧ k < start + count)
    (h : ∀ m', GivenUpOr (g.Regrouped name inner parts start count id m')
      (Parser.sequence name ps id m') (Parser.sequence name qs id m')) :
    GivenUpOr (g.Regrouped name inner (p :: parts) start' count' id m)
      (Parser.sequence name (g.parser depth p :: ps) id m)
      (Parser.sequence name (g.parser depth p :: qs) id m) := by
  simp only [Parser.sequence]
  rcases hp : g.parser depth p id m with ⟨e | _, m'⟩
  · refine .of_same fun hne => .outside (.here (returns_of_eq hp ?_)) (by omega)
    rintro ⟨⟩
    exact hne rfl
  · rcases h m' with hdeep | ⟨hne, hne', hR⟩
    · exact .inl hdeep
    · exact .inr ⟨hne, hne', hR.cons (returns_of_eq hp (by simp)) hin⟩

/-- Without parts in the inner sequence there is no difference. -/
theorem sequence_regrouped_none (g : RuleGraph) (depth : Nat) (name inner : String)
    (zs : List RuleId) (id : CursorId) (m : Manager σ) :
    GivenUpOr (g.Regrouped name inner zs 0 0 id m)
      (Parser.sequence name (zs.map (g.parser depth)) id m)
      (Parser.sequence name (zs.map (g.parser depth)) id m) := by
  induction zs generalizing m with
  | nil => exact .of_same fun _ => .matched
  | cons a zs ih => exact regrouped_cons_outside (.inr rfl) (by omega) ih

/-- With the inner sequence in front. -/
theorem sequence_regrouped_front (g : RuleGraph) (depth : Nat) (name inner : String)
    (ys zs : List RuleId) (id : CursorId) (m : Manager σ) :
    GivenUpOr (g.Regrouped name inner (ys ++ zs) 0 ys.length id m)
      (Parser.sequence name (Parser.sequence inner (ys.map (g.parser depth)) ::
        zs.map (g.parser depth)) id m)
      (Parser.sequence name ((ys ++ zs).map (g.parser depth)) id m) := by
  induction ys generalizing m with
  | nil => exact sequence_regrouped_none g depth name inner zs id m
  | cons a ys ih =>
    simp only [List.map_cons, List.cons_append, Parser.sequence]
    rcases ha : g.parser depth a id m with ⟨e | _, m'⟩
    · by_cases he : e = .tooDeep
      · subst he
        exact .inl ⟨rfl, rfl⟩
      · have hne := within_ne_tooDeep he inner
        have ha := returns_of_eq ha (by simpa using he)
        exact .inr ⟨within_ne_tooDeep (fun h => hne (congrArg _ h)) name, within_ne_tooDeep he name,
          .inside (.here ha) (Nat.zero_le _) (by simp)⟩
    · rcases ih m' with hdeep | ⟨hne, hne', hR⟩
      · exact .inl hdeep
      · refine .inr ⟨hne, hne', hR.cons (returns_of_eq ha (by simp)) fun k => ?_⟩
        rw [List.length_cons]
        omega

theorem sequence_regrouped (g : RuleGraph) (depth : Nat) (name inner : String)
    (xs ys zs : List RuleId) (id : CursorId) (m : Manager σ) :
    GivenUpOr (g.Regrouped name inner (xs ++ (ys ++ zs)) xs.length ys.length id m)
      (Parser.sequence name (xs.map (g.parser depth) ++
        Parser.sequence inner (ys.map (g.parser depth)) :: zs.map (g.parser depth)) id m)
      (Parser.sequence name ((xs ++ (ys ++ zs)).map (g.parser depth)) id m) := by
  induction xs generalizing m with
  | nil => exact sequence_regrouped_front g depth name inner ys zs id m
  | cons a xs ih =>
    refine regrouped_cons_outside (.inl (Nat.succ_pos _)) (fun k => ?_) ih
    rw [List.length_cons]
    omega

/-! ### Sequences of a grammar -/

/-- A sequence within a sequence, and the parts of both in a row.

From any manager that a run leads to, whatever its source, the one returns what the other does: the
same manager, and the same answer but for the name of the inner sequence, which is in the path
exactly if the part that did not match is one of its own. On a source that comes to an end, both
return. -/
theorem sequence_assoc {g : RuleGraph} {grouped group flat : RuleId} {xs ys zs : List RuleId}
    (hgrouped : g.kind grouped = .sequence (xs ++ group :: zs))
    (hgroup : g.kind group = .sequence ys) (hflat : g.kind flat = .sequence (xs ++ (ys ++ zs)))
    (hname : g.name grouped = g.name flat) (options : StreamOptions) (actions : List Action)
    (id : CursorId) :
    (∀ {σ : Type} [ByteSource σ] (source : σ),
      let m := (Manager.ofSource options source).perform actions
      g.ReturnAlike grouped flat id m
        (g.Regrouped (g.name flat) (g.name group) (xs ++ (ys ++ zs)) xs.length ys.length id m)) ∧
    ∀ {σ : Type} [FiniteSource σ] (source : σ),
      let m := (Manager.ofSource options source).perform actions
      g.NonLeftRecursive grouped → g.NonLeftRecursive flat →
      g.Regrouped (g.name flat) (g.name group) (xs ++ (ys ++ zs)) xs.length ys.length id m
        (g.parse grouped id m) (g.parse flat id m) := by
  have halike {σ : Type} [ByteSource σ] (m : Manager σ) : g.ReturnAlike grouped flat id m
      (g.Regrouped (g.name flat) (g.name group) (xs ++ (ys ++ zs)) xs.length ys.length id m) := by
    have hinner := Approaches.sequence hgroup (approaches_all (σ := σ) g ys)
    have houter := Approaches.sequence hgrouped
      (List.rel_append (approaches_all g xs) (.cons hinner (approaches_all g zs)))
    have hrow := Approaches.sequence hflat (approaches_all (σ := σ) g (xs ++ (ys ++ zs)))
    refine houter.returnAlike hrow fun depth => ?_
    simpa [hname, Function.comp_def] using
      sequence_regrouped g depth (g.name flat) (g.name group) xs ys zs id m
  refine ⟨fun source => halike _, fun source hr hr' => ?_⟩
  exact (halike _).parse (Manager.valid_perform (Manager.valid_ofSource options source) actions)
    hr hr'

/-- `abc` with `bc` as a sequence of its own, and in a row. -/
def letters : RuleGraph :=
  ⟨#[⟨"abc", .sequence [3, 1]⟩, ⟨"bc", .sequence [4, 5]⟩, ⟨"abc", .sequence [3, 4, 5]⟩,
    ⟨"a", .literal [97]⟩, ⟨"b", .literal [98]⟩, ⟨"c", .literal [99]⟩]⟩

/-- The last letter is missing, and the rule that wants it belongs to the inner sequence. -/
theorem sequence_assoc_letters :
    let m := (Manager.ofSource {} (Script.ofPieces [.chunk [122, 97], .chunk [98, 98]])).perform
      [.step (.branch 0), .step (.read 1 1)]
    letters.kind 0 = .sequence [3, 1] ∧ letters.kind 1 = .sequence [4, 5] ∧
    letters.kind 2 = .sequence [3, 4, 5] ∧ letters.name 0 = letters.name 2 ∧
    letters.NonLeftRecursive 0 ∧ letters.NonLeftRecursive 2 ∧
    letters.Regrouped "abc" "bc" [3, 4, 5] 1 2 1 m (letters.parse 0 1 m) (letters.parse 2 1 m) ∧
    (letters.parse 0 1 m).1 =
      .error (.mismatch ⟨3, ["abc", "bc", "c"], .unexpected 99 98⟩) ∧
    (letters.parse 2 1 m).1 = .error (.mismatch ⟨3, ["abc", "c"], .unexpected 99 98⟩) := by
  intro m
  have hr (r : RuleId) : letters.NonLeftRecursive r :=
    nonLeftRecursive_of_falling (fun r => [2, 1, 1, 0, 0, 0].getD r 0) (by decide) r
  have h0 : letters.kind 0 = .sequence ([3] ++ 1 :: []) := rfl
  have h1 : letters.kind 1 = .sequence [4, 5] := rfl
  have h2 : letters.kind 2 = .sequence ([3] ++ ([4, 5] ++ [])) := rfl
  obtain ⟨_, hparse⟩ := sequence_assoc h0 h1 h2 (by decide) {}
    [.step (.branch 0), .step (.read 1 1)] 1
  exact ⟨rfl, rfl, rfl, by decide, hr 0, hr 2, hparse _ (hr 0) (hr 2), by decide +kernel,
    by decide +kernel⟩

end RuleGraph

end StreamPeg
