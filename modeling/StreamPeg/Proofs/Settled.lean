import StreamPeg.Proofs.Frame
import StreamPeg.Proofs.Parsing
import StreamPeg.Rule.Equivalent
import StreamPeg.Source.Memory

/-!
# Parses of sufficient depth

The depth that a parse chooses for itself is a bound and no more. On a rule without left recursion,
or with any ranks that fall where nothing is consumed, it is never exhausted
(`Ranked.parser_settles`), whether the cursor is live or not, and any greater depth gives the same
result and the same manager (`Ranked.parser_eq_parse`).
-/

namespace StreamPeg

variable {σ : Type}

namespace Parser

variable {name : String}

/-! ### More depth -/

/-- Where the one is not given up as too deep, the other does exactly the same. -/
def Extends (p p' : Parser σ) : Prop :=
  ∀ id m, (p id m).1 ≠ .error .tooDeep → p' id m = p id m

namespace Extends

variable {p p' p'' : Parser σ}

theorem refl (p : Parser σ) : p.Extends p := fun _ _ _ => rfl

theorem trans (h : p.Extends p') (h' : p'.Extends p'') : p.Extends p'' := by
  intro id m hne
  have he := h id m hne
  rw [← he] at hne ⊢
  exact h' id m hne

end Extends

theorem extends_sequence {ps ps' : List (Parser σ)} (h : List.Forall₂ Extends ps ps') :
    (sequence name ps).Extends (sequence name ps') := by
  intro id m hne
  induction h generalizing m with
  | nil => rfl
  | @cons p p' ps ps' hp _ ih =>
    have ha := hp id m
    simp only [sequence] at hne ⊢
    rcases hpm : p id m with ⟨e | _, m'⟩
    · simp only [hpm] at ha hne ⊢
      rw [ha]
      intro h
      cases h
      exact hne rfl
    · simp only [hpm] at ha hne ⊢
      rw [ha (by simp)]
      exact ih m' hne

theorem extends_attempt {p p' : Parser σ} (h : p.Extends p') :
    (attempt p).Extends (attempt p') := by
  intro id m hne
  simp only [attempt] at hne ⊢
  rcases hb : m.branch id with ⟨e | branch, m₁⟩
  · rfl
  · have ha := h branch m₁
    simp only [hb] at hne ⊢
    rcases hpm : p branch m₁ with ⟨e | _, m₂⟩
    · simp only [hpm] at ha hne ⊢
      rw [ha hne]
    · simp only [hpm] at ha ⊢
      rw [ha (by simp)]

theorem extends_choiceFrom {ps ps' : List (Parser σ)} (h : List.Forall₂ Extends ps ps')
    (deepest : Option Mismatch) :
    (choiceFrom name deepest ps).Extends (choiceFrom name deepest ps') := by
  intro id m hne
  induction h generalizing deepest m with
  | nil => rfl
  | @cons p p' ps ps' hp _ ih =>
    have ha := extends_attempt hp id m
    simp only [choiceFrom] at hne ⊢
    rcases hpm : attempt p id m with ⟨e | _, m'⟩
    · cases e with
      | mismatch d =>
        simp only [hpm] at ha hne ⊢
        rw [ha (by simp)]
        exact ih _ _ hne
      | source | unresolvedPlaceholder =>
        simp only [hpm] at ha ⊢
        rw [ha (by simp)]
      | tooDeep =>
        simp only [hpm] at hne
        exact absurd rfl hne
    · simp only [hpm] at ha ⊢
      rw [ha (by simp)]

theorem extends_times {p p' : Parser σ} (h : p.Extends p') (n : Nat) :
    (times name p n).Extends (times name p' n) := by
  rw [times_eq_sequence, times_eq_sequence]
  apply extends_sequence
  rw [List.forall₂_map_left_iff, List.forall₂_map_right_iff, List.forall₂_same]
  exact fun _ _ => h

theorem extends_upTo {p p' : Parser σ} (h : p.Extends p') (n : Nat) :
    (upTo p n).Extends (upTo p' n) := by
  intro id m hne
  induction n generalizing m with
  | zero => rfl
  | succ n ih =>
    have ha := extends_attempt h id m
    simp only [upTo] at hne ⊢
    rcases hpm : attempt p id m with ⟨e | _, m'⟩
    · cases e with
      | mismatch | source | unresolvedPlaceholder =>
        simp only [hpm] at ha ⊢
        rw [ha (by simp)]
      | tooDeep =>
        simp only [hpm] at hne
        exact absurd rfl hne
    · simp only [hpm] at ha hne ⊢
      rw [ha (by simp)]
      exact ih m' hne

theorem extends_whileMatching {stalled : Event} {p p' : Parser σ} (h : p.Extends p')
    {rounds rounds' : Nat} (hr : rounds ≤ rounds') :
    (whileMatching stalled p rounds).Extends (whileMatching stalled p' rounds') := by
  intro id m hne
  induction rounds generalizing rounds' m with
  | zero => exact absurd rfl hne
  | succ rounds ih =>
    obtain ⟨rounds', rfl⟩ : ∃ k, rounds' = k + 1 := ⟨rounds' - 1, by omega⟩
    have ha := extends_attempt h id m
    simp only [whileMatching] at hne ⊢
    rcases hb : m.offset id with e | before
    · rfl
    · simp only [hb] at hne ⊢
      rcases hpm : attempt p id m with ⟨e | _, m'⟩
      · cases e with
        | mismatch | source | unresolvedPlaceholder =>
          simp only [hpm] at ha ⊢
          rw [ha (by simp)]
        | tooDeep =>
          simp only [hpm] at hne
          exact absurd rfl hne
      · simp only [hpm] at ha hne ⊢
        rw [ha (by simp)]
        rcases hafter : m'.offset id with e | after
        · simp only [hafter]
        · simp only [hafter] at hne ⊢
          by_cases hlt : before < after
          · simp only [hlt, if_true] at hne ⊢
            exact ih (Nat.le_of_succ_le_succ hr) m' hne
          · simp only [hlt, if_false]

theorem extends_andThen {p p' q q' : Parser σ} (hp : p.Extends p') (hq : q.Extends q') :
    (andThen p q).Extends (andThen p' q') := by
  intro id m hne
  have ha := hp id m
  simp only [andThen] at hne ⊢
  rcases hpm : p id m with ⟨e | _, m'⟩
  · simp only [hpm] at ha hne ⊢
    rw [ha hne]
  · simp only [hpm] at ha hne ⊢
    rw [ha (by simp)]
    exact hq id m' hne

end Parser

/-! ### Rules -/

namespace RuleGraph

section

variable [ByteSource σ] {g g' : RuleGraph}

/-- Rules with the same name and similar kinds, and related parts of which one extends the other. -/
theorem parser_extends_of_similar {R : RuleId → RuleId → Prop} {depth depth' : Nat}
    (hd : depth ≤ depth') (hname : ∀ {p p'}, R p p' → g.name p = g'.name p')
    (hparts : ∀ {p p'}, R p p' → (g.parser (σ := σ) depth p).Extends (g'.parser depth' p'))
    {r r' : RuleId} (hown : g.ownName r = g'.ownName r')
    (hs : (g.kind r).Similar R (g'.kind r')) :
    (g.parser (σ := σ) (depth + 1) r).Extends (g'.parser (depth' + 1) r') := by
  have hall {parts parts' : List RuleId} (h : List.Forall₂ R parts parts') :
      List.Forall₂ Parser.Extends (parts.map (g.parser (σ := σ) depth))
        (parts'.map (g'.parser depth')) := by
    rw [List.forall₂_map_left_iff, List.forall₂_map_right_iff]
    exact h.imp fun _ _ => hparts
  -- Wherever its name counts, a rule is not followed further.
  have hnames (h : g.target? r = none) (h' : g'.target? r' = none) : g.name r = g'.name r' := by
    rw [name, name, follow_of_unbound h, follow_of_unbound h', hown]
  generalize hk : g.kind r = k at hs
  generalize hk' : g'.kind r' = k' at hs
  cases hs with
  | literal bytes =>
    simp only [parser, hk, hk', hnames (by simp [target?, hk]) (by simp [target?, hk'])]
    exact .refl _
  | sequence hp =>
    simp only [parser, hk, hk', hnames (by simp [target?, hk]) (by simp [target?, hk'])]
    exact Parser.extends_sequence (hall hp)
  | choice hp =>
    simp only [parser, hk, hk', hnames (by simp [target?, hk]) (by simp [target?, hk'])]
    exact Parser.extends_choiceFrom (hall hp) none
  | repetition min max hp =>
    cases max with
    | none =>
      simp only [parser, hk, hk', hnames (by simp [target?, hk]) (by simp [target?, hk']),
        hname hp]
      exact Parser.extends_andThen (Parser.extends_times (hparts hp) min)
        (Parser.extends_whileMatching (hparts hp) hd)
    | some max =>
      simp only [parser, hk, hk', hnames (by simp [target?, hk]) (by simp [target?, hk'])]
      exact Parser.extends_andThen (Parser.extends_times (hparts hp) min)
        (Parser.extends_upTo (hparts hp) (max - min))
  | bound hp =>
    simp only [parser, hk, hk']
    exact hparts hp
  | unbound =>
    simp only [parser, hk, hk', hown]
    exact .refl _

end

/-- More depth is of no use where it was enough. -/
theorem parser_extends [ByteSource σ] (g : RuleGraph) {depth depth' : Nat} (hd : depth ≤ depth')
    (r : RuleId) : (g.parser (σ := σ) depth r).Extends (g.parser depth' r) := by
  induction depth generalizing depth' r with
  | zero => exact fun id m hne => absurd rfl hne
  | succ depth ih =>
    obtain ⟨depth', rfl⟩ : ∃ k, depth' = k + 1 := ⟨depth' - 1, by omega⟩
    have hd := Nat.le_of_succ_le_succ hd
    refine parser_extends_of_similar hd ?_ ?_ rfl (.refl Eq.refl (g.kind r))
    · rintro p _ rfl
      rfl
    · rintro p _ rfl
      exact ih hd p

section

variable [FiniteSource σ] {g : RuleGraph} {m : Manager σ} {r : RuleId}

namespace Ranked

variable {rank : RuleId → Nat}

theorem parser_settles_of_live (h : m.Valid) (hr : g.Ranked r rank) {depth : Nat}
    (hd : g.depthLimit m.available ≤ depth) {id : CursorId} {pos : Nat}
    (ho : m.cursors.offset? id = some pos) : (g.parser depth r id m).1 ≠ .error .tooDeep := by
  have hst : Stands m.stream m id pos := ⟨h, rfl, ho⟩
  have hne : (g.matcher m.stream depth r pos).1 ≠ .error .tooDeep :=
    hr.matcher_ne_tooDeep (Nat.le_trans (g.depthLimit_mono hst.left_le_available) hd)
  have hout := g.parser_follows m.stream depth r hst
  revert hne hout
  rcases g.matcher m.stream depth r pos with ⟨expected, pos'⟩
  rcases g.parser depth r id m with ⟨actual, m'⟩
  intro hne hout
  cases hout with
  | ok => exact nofun
  | failed => exact hne
  | source => exact nofun

/-- Without asking for its cursor, a rule does what it would do on no data at all. -/
theorem parser_settles (h : m.Valid) (hr : g.Ranked r rank) {depth : Nat}
    (hd : g.depthLimit m.available ≤ depth) (id : CursorId) :
    (g.parser depth r id m).1 ≠ .error .tooDeep := by
  cases ho : m.cursors.offset? id with
  | some pos => exact parser_settles_of_live h hr hd ho
  | none =>
    let nothing := Manager.ofSource {} (⟨[]⟩ : Memory)
    have hnothing : (g.parser depth r .root nothing).1 ≠ .error .tooDeep :=
      parser_settles_of_live (Manager.valid_ofSource {} _) hr
        (Nat.le_trans (g.depthLimit_mono (Nat.zero_le _)) hd) rfl
    rw [← g.run_plan] at hnothing ⊢
    rcases (g.failsWith_own depth r).run_of_dead ho with hdead | ⟨result, hdone⟩
    · rw [hdead]
      exact nofun
    · rw [hdone] at hnothing ⊢
      exact hnothing

/-- Any depth from the one that a parse chooses on. -/
theorem parser_eq_parse (h : m.Valid) (hr : g.Ranked r rank) {depth : Nat}
    (hd : g.depthLimit m.available ≤ depth) (id : CursorId) :
    g.parser depth r id m = g.parse r id m :=
  g.parser_extends hd r id m (hr.parser_settles h (Nat.le_refl _) id)

end Ranked

theorem parser_settles (h : m.Valid) (hr : g.NonLeftRecursive r) {depth : Nat}
    (hd : g.depthLimit m.available ≤ depth) (id : CursorId) :
    (g.parser depth r id m).1 ≠ .error .tooDeep :=
  hr.ranked.parser_settles h hd id

theorem parser_eq_parse (h : m.Valid) (hr : g.NonLeftRecursive r) {depth : Nat}
    (hd : g.depthLimit m.available ≤ depth) (id : CursorId) :
    g.parser depth r id m = g.parse r id m :=
  hr.ranked.parser_eq_parse h hd id

end

end RuleGraph

end StreamPeg
