import StreamPeg.Proofs.Settled

/-!
# What a parse returns

More depth changes nothing where it was enough, so what a parse `Returns` is what it gives at any
depth that is enough, and a parse that goes on into itself without an end returns nothing. Two rules
`ReturnAlike` if the one returns whenever the other does, and what they return is related.

To show this, the depth may be counted in another way than rules do it: parsers that `Approach` a
rule are given up no sooner and do the same otherwise, and they may be put together from parsers
that approach its parts (`Approaches.sequence`, `Approaches.choice`).
-/

namespace StreamPeg

variable {σ : Type} [ByteSource σ]

namespace RuleGraph

/-- At any depth that is enough, a parse by the rule gives this. -/
def Returns (g : RuleGraph) (r : RuleId) (id : CursorId) (m : Manager σ)
    (out : Except ParseFailure Unit × Manager σ) : Prop :=
  out.1 ≠ .error .tooDeep ∧ ∃ depth, g.parser depth r id m = out

variable {g : RuleGraph} {r r' : RuleId} {id : CursorId} {m : Manager σ}
  {x y : Except ParseFailure Unit × Manager σ}

theorem Returns.unique (h : g.Returns r id m x) (h' : g.Returns r id m y) : x = y := by
  obtain ⟨hne, depth, rfl⟩ := h
  obtain ⟨hne', depth', rfl⟩ := h'
  rw [← g.parser_extends (Nat.le_max_left depth depth') r id m hne,
    ← g.parser_extends (Nat.le_max_right depth depth') r id m hne']

/-- The depth that a parse chooses is enough. -/
theorem returns_parse {σ : Type} [FiniteSource σ] {m : Manager σ} (h : m.Valid)
    (hr : g.NonLeftRecursive r) (id : CursorId) : g.Returns r id m (g.parse r id m) :=
  ⟨parser_settles h hr (Nat.le_refl _) id, _, rfl⟩

theorem returns_of_eq {depth : Nat} (hp : g.parser depth r id m = x)
    (hne : x.1 ≠ .error .tooDeep) : g.Returns r id m x :=
  ⟨hne, depth, hp⟩

/-- Either both return, and what they return is related, or none of them does. -/
def ReturnAlike (g : RuleGraph) (r r' : RuleId) (id : CursorId) (m : Manager σ)
    (R : Except ParseFailure Unit × Manager σ → Except ParseFailure Unit × Manager σ → Prop) :
    Prop :=
  (∀ x, g.Returns r id m x → ∃ y, g.Returns r' id m y ∧ R x y) ∧
    ∀ y, g.Returns r' id m y → ∃ x, g.Returns r id m x ∧ R x y

theorem ReturnAlike.parse {σ : Type} [FiniteSource σ] {m : Manager σ}
    {R : Except ParseFailure Unit × Manager σ → Except ParseFailure Unit × Manager σ → Prop}
    (h : g.ReturnAlike r r' id m R) (hm : m.Valid) (hr : g.NonLeftRecursive r)
    (hr' : g.NonLeftRecursive r') : R (g.parse r id m) (g.parse r' id m) := by
  obtain ⟨y, hy, hR⟩ := h.1 _ (returns_parse hm hr id)
  rwa [hy.unique (returns_parse hm hr' id)] at hR

/-! ### Counting the depth in other ways -/

/-- Both are given up as too deep, or else neither of them is and they are related. -/
def GivenUpOr
    (R : Except ParseFailure Unit × Manager σ → Except ParseFailure Unit × Manager σ → Prop)
    (x y : Except ParseFailure Unit × Manager σ) : Prop :=
  x.1 = .error .tooDeep ∧ y.1 = .error .tooDeep ∨
    x.1 ≠ .error .tooDeep ∧ y.1 ≠ .error .tooDeep ∧ R x y

section

omit [ByteSource σ]

variable {R : Except ParseFailure Unit × Manager σ → Except ParseFailure Unit × Manager σ → Prop}
  {n n' : Manager σ}

theorem GivenUpOr.of_same {result : Except ParseFailure Unit}
    (h : result ≠ .error .tooDeep → R (result, n) (result, n')) :
    GivenUpOr R (result, n) (result, n') := by
  by_cases hdeep : result = .error .tooDeep
  · exact .inl ⟨hdeep, hdeep⟩
  · exact .inr ⟨hdeep, hdeep, h hdeep⟩

theorem GivenUpOr.of_mismatch {d e : Mismatch}
    (h : R (.error (.mismatch d), n) (.error (.mismatch e), n')) :
    GivenUpOr R (.error (.mismatch d), n) (.error (.mismatch e), n') :=
  .inr ⟨by simp, by simp, h⟩

end

/-- With as much depth the parser does no less than the rule, and what it does the rule does with
some more. -/
structure Approaches (g : RuleGraph) (r : RuleId) (p : Nat → Parser σ) : Prop where
  mono : ∀ {depth depth'}, depth ≤ depth' → (p depth).Extends (p depth')
  above : ∀ depth, (g.parser depth r).Extends (p depth)
  below : ∃ k, ∀ depth, (p depth).Extends (g.parser (depth + k) r)

/-- A rule approaches itself, also with some more depth for each. -/
theorem approaches_add (g : RuleGraph) (r : RuleId) (k : Nat) :
    g.Approaches r fun depth => (g.parser (depth + k) r : Parser σ) where
  mono hd := g.parser_extends (Nat.add_le_add_right hd k) r
  above depth := g.parser_extends (Nat.le_add_right depth k) r
  below := ⟨k, fun _ => .refl _⟩

theorem approaches_self (g : RuleGraph) (r : RuleId) :
    g.Approaches r fun depth => (g.parser depth r : Parser σ) :=
  g.approaches_add r 0

variable {p q : Nat → Parser σ} {ps : List (Nat → Parser σ)} {parts : List RuleId}

theorem approaches_all (g : RuleGraph) (parts : List RuleId) :
    List.Forall₂ (g.Approaches (σ := σ)) parts (parts.map fun a depth => g.parser depth a) := by
  rw [List.forall₂_map_right_iff, List.forall₂_same]
  exact fun a _ => g.approaches_self a

namespace Approaches

theorem returns (h : g.Approaches r p) {depth : Nat} (hne : (p depth id m).1 ≠ .error .tooDeep) :
    g.Returns r id m (p depth id m) := by
  obtain ⟨k, hk⟩ := h.below
  exact ⟨hne, depth + k, hk depth id m hne⟩

/-- For rules that are approached, it is enough to look at the parsers. -/
theorem returnAlike (hp : g.Approaches r p) (hq : g.Approaches r' q)
    {R : Except ParseFailure Unit × Manager σ → Except ParseFailure Unit × Manager σ → Prop}
    (h : ∀ depth, GivenUpOr R (p depth id m) (q depth id m)) :
    g.ReturnAlike r r' id m R := by
  constructor
  · rintro _ ⟨hne, depth, rfl⟩
    have hpd := hp.above depth id m hne
    rcases h depth with ⟨hdeep, _⟩ | ⟨_, hne', hR⟩
    · rw [hpd] at hdeep
      exact absurd hdeep hne
    · rw [hpd] at hR
      exact ⟨_, hq.returns hne', hR⟩
  · rintro _ ⟨hne, depth, rfl⟩
    have hqd := hq.above depth id m hne
    rcases h depth with ⟨_, hdeep⟩ | ⟨hne', _, hR⟩
    · rw [hqd] at hdeep
      exact absurd hdeep hne
    · rw [hqd] at hR
      exact ⟨_, hp.returns hne', hR⟩

/-! ### Rules of parts -/

theorem forall₂_mono (h : List.Forall₂ g.Approaches parts ps) {depth depth' : Nat}
    (hd : depth ≤ depth') :
    List.Forall₂ Parser.Extends (ps.map (· depth)) (ps.map (· depth')) := by
  induction h with
  | nil => exact .nil
  | cons hp _ ih => exact .cons (hp.mono hd) ih

theorem forall₂_above (h : List.Forall₂ g.Approaches parts ps) (depth : Nat) :
    List.Forall₂ Parser.Extends (parts.map (g.parser (σ := σ) depth)) (ps.map (· depth)) := by
  induction h with
  | nil => exact .nil
  | cons hp _ ih => exact .cons (hp.above depth) ih

theorem forall₂_below (h : List.Forall₂ g.Approaches parts ps) :
    ∃ k, ∀ depth, List.Forall₂ Parser.Extends (ps.map (· depth))
      (parts.map (g.parser (σ := σ) (depth + k))) := by
  induction h with
  | nil => exact ⟨0, fun _ => .nil⟩
  | @cons r p parts ps hp hps ih =>
    obtain ⟨k, hk⟩ := hp.below
    obtain ⟨k', hk'⟩ := ih
    have hmore (a : RuleId) (depth : Nat) {j : Nat} (hj : j ≤ max k k') :
        (g.parser (σ := σ) (depth + j) a).Extends (g.parser (depth + max k k') a) :=
      g.parser_extends (Nat.add_le_add_left hj depth) a
    refine ⟨max k k', fun depth => .cons ?_ ?_⟩
    · exact (hk depth).trans (hmore r depth (Nat.le_max_left k k'))
    have hrest := hk' depth
    rw [List.forall₂_map_left_iff, List.forall₂_map_right_iff] at hrest ⊢
    exact hrest.imp fun _ a ha => ha.trans (hmore a depth (Nat.le_max_right k k'))

/-- A rule that is made of its parts by a combinator is approached by what the combinator makes of
parsers that approach the parts. -/
theorem of_parts {combine : List (Parser σ) → Parser σ}
    (hext : ∀ {ps ps'}, List.Forall₂ Parser.Extends ps ps' → (combine ps).Extends (combine ps'))
    (hr : ∀ depth, g.parser (depth + 1) r = combine (parts.map (g.parser depth)))
    (h : List.Forall₂ g.Approaches parts ps) :
    g.Approaches r fun depth => combine (ps.map (· depth)) where
  mono hd := hext (forall₂_mono h hd)
  above depth := by
    cases depth with
    | zero => exact fun id m hne => absurd rfl hne
    | succ depth =>
      rw [hr]
      exact (hext (forall₂_above h depth)).trans (hext (forall₂_mono h (Nat.le_succ depth)))
  below := by
    obtain ⟨k, hk⟩ := forall₂_below h
    refine ⟨k + 1, fun depth => ?_⟩
    rw [← Nat.add_assoc, hr]
    exact hext (hk depth)

theorem sequence (hk : g.kind r = .sequence parts) (h : List.Forall₂ g.Approaches parts ps) :
    g.Approaches r fun depth => Parser.sequence (g.name r) (ps.map (· depth)) :=
  of_parts Parser.extends_sequence (fun depth => by simp only [parser, hk]) h

theorem choice (hk : g.kind r = .choice parts) (h : List.Forall₂ g.Approaches parts ps) :
    g.Approaches r fun depth => Parser.choice (g.name r) (ps.map (· depth)) :=
  of_parts (fun h => Parser.extends_choiceFrom h none) (fun depth => by simp only [parser, hk]) h

end Approaches

end RuleGraph

end StreamPeg
