import StreamPeg.Proofs.Returns

/-!
# Placeholders are transparent

Nothing about a parse tells a rule from an equivalent one, and so nothing tells a placeholder from
its target or a recursive rule from its unfoldings. The two go equally deep but for the bindings
that each of them follows, of which there are never more than rules in a row
(`parser_extends_of_bisimulation`). An unfolding of a graph gives a bisimulation with it wherever
there is no left recursion, and brings none in (`Unfolds.nonLeftRecursive`).
-/

namespace StreamPeg.RuleGraph

variable {σ : Type} {g g' : RuleGraph} {r p q r' p' : RuleId} {R S : RuleId → RuleId → Prop}

/-! ### Parsing by equivalent rules -/

/-- Every binding that is followed takes one level of depth. -/
theorem exists_lag [ByteSource σ] (g : RuleGraph) (n : Nat) (r : RuleId) :
    ∃ k ≤ n, ∀ depth, g.parser (σ := σ) (depth + k) r = g.parser depth (g.followUpTo n r) := by
  induction n generalizing r with
  | zero => exact ⟨0, Nat.le_refl 0, fun _ => rfl⟩
  | succ n ih =>
    cases hk : g.kind r with
    | placeholder target =>
      cases target with
      | none => exact ⟨0, Nat.zero_le _, fun depth => by simp [followUpTo, target?, hk]⟩
      | some t =>
        obtain ⟨k, hle, hlag⟩ := ih t
        refine ⟨k + 1, Nat.succ_le_succ hle, fun depth => ?_⟩
        simp only [parser, hk, followUpTo, target?]
        exact hlag depth
    | literal | sequence | choice | repetition =>
      exact ⟨0, Nat.zero_le _, fun depth => by simp [followUpTo, target?, hk]⟩

theorem parser_extends_of_bisimulation [ByteSource σ] (h : Bisimulation g g' R)
    {depth depth' : Nat} (hd : depth * (g'.size + 1) ≤ depth') (hR : R r r') :
    (g.parser (σ := σ) depth r).Extends (g'.parser depth' r') := by
  induction depth generalizing depth' r r' with
  | zero => exact fun id m hne => absurd rfl hne
  | succ depth ih =>
    obtain ⟨k, _, hlag⟩ := g.exists_lag (σ := σ) g.size r
    obtain ⟨k', hk', hlag'⟩ := g'.exists_lag (σ := σ) g'.size r'
    rw [Nat.succ_mul] at hd
    obtain ⟨d, rfl⟩ : ∃ d, depth' = d + 1 + k' := ⟨depth' - k' - 1, by omega⟩
    have hmore : (g.parser (σ := σ) (depth + 1) r).Extends (g.parser (depth + 1 + k) r) :=
      g.parser_extends (Nat.le_add_right _ k) r
    rw [hlag] at hmore
    rw [hlag']
    have hle : depth * (g'.size + 1) ≤ d := by omega
    refine hmore.trans (parser_extends_of_similar ?_ h.name (fun hp => ih hle hp) (h.name hR)
      (h.similar hR))
    exact Nat.le_trans (Nat.le_mul_of_pos_right depth (Nat.succ_pos _)) hle

theorem Returns.of_bisimulation [ByteSource σ] {id : CursorId} {m : Manager σ}
    {out : Except ParseFailure Unit × Manager σ} (hout : g.Returns r id m out)
    (h : Bisimulation g g' R) (hR : R r r') : g'.Returns r' id m out := by
  obtain ⟨hne, depth, rfl⟩ := hout
  exact ⟨hne, _, parser_extends_of_bisimulation h (Nat.le_refl _) hR id m hne⟩

theorem returns_iff_of_bisimulation [ByteSource σ] (h : Bisimulation g g' R) (hR : R r r')
    (id : CursorId) (m : Manager σ) (out : Except ParseFailure Unit × Manager σ) :
    g.Returns r id m out ↔ g'.Returns r' id m out :=
  ⟨fun hout => hout.of_bisimulation h hR, fun hout => hout.of_bisimulation h.flip hR⟩

theorem parse_eq_of_bisimulation [FiniteSource σ] (h : Bisimulation g g' R) (hR : R r r')
    (hr : g.NonLeftRecursive r) (hr' : g'.NonLeftRecursive r') {m : Manager σ} (hm : m.Valid)
    (id : CursorId) : g.parse r id m = g'.parse r' id m :=
  ((returns_parse hm hr id).of_bisimulation h hR).unique (returns_parse hm hr' id)

theorem bisimulation_follow (g : RuleGraph) :
    Bisimulation g g fun p q => g.follow p = g.follow q where
  name h := congrArg g.ownName h
  similar {p q} h := by
    rw [h]
    exact .refl (R := fun p q => g.follow p = g.follow q) (fun _ => rfl) _

/-! ### Following without left recursion -/

theorem NonLeftRecursive.reaches (h : g.NonLeftRecursive r) (hp : g.Reaches r p) :
    g.NonLeftRecursive p :=
  fun s hs => h s (hp.trans hs)

theorem NonLeftRecursive.uses (h : g.NonLeftRecursive r) (hu : g.Uses r p) :
    g.NonLeftRecursive p :=
  h.reaches (.single hu)

theorem NonLeftRecursive.followUpTo (h : g.NonLeftRecursive r) (n : Nat) :
    g.NonLeftRecursive (g.followUpTo n r) := by
  induction n generalizing r with
  | zero => exact h
  | succ n ih =>
    rw [RuleGraph.followUpTo]
    split
    · next t ht => exact ih (h.uses (.inr ht))
    · exact h

/-- A chain of bindings is no longer than the rank of its first placeholder. -/
theorem target?_followUpTo (hr : g.NonLeftRecursive r) {n : Nat} (hn : g.leftRank r ≤ n) :
    g.target? (g.followUpTo n r) = none := by
  induction n generalizing r with
  | zero =>
    have hsize : g.size ≤ r := by
      by_contra hlt
      have := leftRank_pos (Nat.lt_of_not_le hlt)
      omega
    simp only [followUpTo, target?, kind_of_size_le hsize]
  | succ n ih =>
    rw [followUpTo]
    split
    · next t ht =>
      have hlt := leftRank_lt (.target (kind_of_target? ht)) (hr r .refl)
      exact ih (hr.uses (.inr ht)) (by omega)
    · assumption

theorem target?_follow (hr : g.NonLeftRecursive r) : g.target? (g.follow r) = none :=
  target?_followUpTo hr (g.leftRank_le_size r)

theorem followUpTo_succ {n : Nat} (h : g.target? (g.followUpTo n r) = none) :
    g.followUpTo (n + 1) r = g.followUpTo n r := by
  induction n generalizing r with
  | zero =>
    rw [followUpTo] at h
    simp only [followUpTo, h]
  | succ n ih =>
    cases ht : g.target? r with
    | none => simp only [followUpTo, ht]
    | some t =>
      simp only [followUpTo, ht] at h ih ⊢
      exact ih h

theorem follow_of_target? (hr : g.NonLeftRecursive r) (h : g.target? r = some p) :
    g.follow r = g.follow p := by
  have hl : g.LeftPart r p := .target (kind_of_target? h)
  have hlt := leftRank_lt hl (hr r .refl)
  have hle := g.leftRank_le_size r
  obtain ⟨n, hn⟩ : ∃ n, g.size = n + 1 := ⟨g.size - 1, by omega⟩
  have hp : g.target? (g.followUpTo n p) = none :=
    target?_followUpTo (hr.uses (.inr h)) (by omega)
  rw [follow, follow, hn, followUpTo_succ hp, followUpTo, h]

theorem StandsFor.follow_eq (h : g.StandsFor p q) (hp : g.NonLeftRecursive p) :
    g.follow p = g.follow q := by
  induction h using Relation.ReflTransGen.head_induction_on with
  | refl => rfl
  | head h _ ih => exact (follow_of_target? hp h).trans (ih (hp.uses (.inr h)))

/-! ### Related parts -/

theorem exists_of_forall₂ {parts parts' : List RuleId} (h : List.Forall₂ S parts parts')
    (hp : p' ∈ parts') : ∃ p ∈ parts, S p p' := by
  induction h with
  | nil => cases hp
  | @cons a b parts parts' hab _ ih =>
    rcases List.mem_cons.mp hp with rfl | hp
    · exact ⟨a, List.mem_cons_self, hab⟩
    · obtain ⟨p, hp, hS⟩ := ih hp
      exact ⟨p, List.mem_cons_of_mem a hp, hS⟩

theorem exists_split_of_forall₂ {parts before' after' : List RuleId}
    (h : List.Forall₂ S parts (before' ++ p' :: after')) :
    ∃ before p after, parts = before ++ p :: after ∧ S p p' ∧ List.Forall₂ S before before' := by
  have hbefore := List.forall₂_take_append parts before' (p' :: after') h
  have hrest := List.forall₂_drop_append parts before' (p' :: after') h
  obtain ⟨p, after, hS, _, hdrop⟩ := List.forall₂_cons_right_iff.mp hrest
  exact ⟨_, p, after, by rw [← hdrop, List.take_append_drop], hS, hbefore⟩

theorem forall₂_of_mem {parts parts' : List RuleId} (h : List.Forall₂ S parts parts')
    (hi : ∀ p ∈ parts, ∀ p' ∈ parts', S p p' → R p p') : List.Forall₂ R parts parts' := by
  rw [List.forall₂_iff_zip] at h ⊢
  refine ⟨h.1, fun hz => ?_⟩
  obtain ⟨hp, hp'⟩ := List.of_mem_zip hz
  exact hi _ hp _ hp' (h.2 hz)

theorem similar_of_uses (h : (g.kind r).Similar S (g'.kind r'))
    (hi : ∀ p p', g.Uses r p → g'.Uses r' p' → S p p' → R p p') :
    (g.kind r).Similar R (g'.kind r') := by
  unfold Uses target? at hi
  generalize g.kind r = k at h hi
  generalize g'.kind r' = k' at h hi
  cases h with
  | literal bytes => exact .literal bytes
  | sequence hp =>
    exact .sequence (forall₂_of_mem hp fun p hm p' hm' => hi p p' (.inl hm) (.inl hm'))
  | choice hp =>
    exact .choice (forall₂_of_mem hp fun p hm p' hm' => hi p p' (.inl hm) (.inl hm'))
  | repetition min max hp =>
    exact .repetition min max (hi _ _ (.inl List.mem_cons_self) (.inl List.mem_cons_self) hp)
  | bound hp => exact .bound (hi _ _ (.inr rfl) (.inr rfl) hp)
  | unbound => exact .unbound

theorem exists_uses (h : (g.kind r).Similar S (g'.kind r')) (hp : g'.Uses r' p') :
    ∃ p, g.Uses r p ∧ S p p' := by
  unfold Uses target? at *
  generalize g.kind r = k at h ⊢
  generalize g'.kind r' = k' at h hp
  cases h with
  | literal | unbound => simp [RuleKind.parts] at hp
  | sequence h | choice h =>
    obtain ⟨p, hmem, hS⟩ := exists_of_forall₂ h (by simpa [RuleKind.parts] using hp)
    exact ⟨p, .inl hmem, hS⟩
  | @repetition part part' min max h =>
    obtain rfl : p' = part' := by simpa [RuleKind.parts] using hp
    exact ⟨part, .inl List.mem_cons_self, h⟩
  | @bound t t' h =>
    obtain rfl : t' = p' := by simpa [RuleKind.parts] using hp
    exact ⟨t, .inr rfl, h⟩

/-! ### Unfoldings -/

theorem StandsFor.leftParts (h : g.StandsFor p q) : Relation.ReflTransGen g.LeftPart p q := by
  have hsub : (fun p q => g.target? p = some q) ≤ g.LeftPart :=
    fun _ _ ht => .target (kind_of_target? ht)
  exact Relation.ReflTransGen.mono hsub p q h

theorem StandsFor.reaches (h : g.StandsFor p q) : g.Reaches p q := by
  have hsub : g.LeftPart ≤ g.Uses := fun _ _ hl => hl.uses
  exact Relation.ReflTransGen.mono hsub p q h.leftParts

theorem StandsFor.nullable (h : g.StandsFor p q) (hq : g.Nullable q) : g.Nullable p := by
  induction h using Relation.ReflTransGen.head_induction_on with
  | refl => exact hq
  | head h _ ih => exact .target (kind_of_target? h) ih

namespace Unfolds

variable {origin : RuleId → RuleId} (h : Unfolds g g' origin)
include h

theorem nullable (hn : g'.Nullable r') : g.Nullable (origin r') := by
  induction hn with
  | @literal r' hk' => exact .literal (RuleKind.Similar.of_literal (hk' ▸ h.similar r'))
  | @sequence r' parts' hk' _ ih =>
    obtain ⟨parts, hk, hparts⟩ := RuleKind.Similar.of_sequence (hk' ▸ h.similar r')
    refine .sequence hk fun p hp => ?_
    obtain ⟨p', hp', hS⟩ := exists_of_forall₂ hparts.flip hp
    exact StandsFor.nullable hS (ih p' hp')
  | @choice r' p' alternatives' hk' hp' _ ih =>
    obtain ⟨alternatives, hk, halternatives⟩ := RuleKind.Similar.of_choice (hk' ▸ h.similar r')
    obtain ⟨p, hp, hS⟩ := exists_of_forall₂ halternatives hp'
    exact .choice hk hp (hS.nullable ih)
  | @optional r' p' max hk' =>
    obtain ⟨p, hk, _⟩ := RuleKind.Similar.of_repetition (hk' ▸ h.similar r')
    exact .optional hk
  | @repeated r' p' min max hk' _ ih =>
    obtain ⟨p, hk, hS⟩ := RuleKind.Similar.of_repetition (hk' ▸ h.similar r')
    exact .repeated hk (hS.nullable ih)
  | @target r' p' hk' _ ih =>
    obtain ⟨p, hk, hS⟩ := RuleKind.Similar.of_bound (hk' ▸ h.similar r')
    exact .target hk (hS.nullable ih)

/-- A left part of a copy is one of its origin, seen through placeholders. -/
theorem leftParts (hl : g'.LeftPart r' p') :
    Relation.TransGen g.LeftPart (origin r') (origin p') := by
  suffices ∃ p, g.LeftPart (origin r') p ∧ g.StandsFor p (origin p') by
    obtain ⟨p, hp, hS⟩ := this
    exact .head' hp hS.leftParts
  cases hl with
  | sequence hk' hn =>
    obtain ⟨parts, hk, hparts⟩ := RuleKind.Similar.of_sequence (hk' ▸ h.similar r')
    obtain ⟨before, p, after, rfl, hS, hbefore⟩ := exists_split_of_forall₂ hparts
    refine ⟨p, .sequence hk fun q hq => ?_, hS⟩
    obtain ⟨q', hq', hSq⟩ := exists_of_forall₂ hbefore.flip hq
    exact StandsFor.nullable hSq (h.nullable (hn q' hq'))
  | choice hk' hp' =>
    obtain ⟨alternatives, hk, halternatives⟩ := RuleKind.Similar.of_choice (hk' ▸ h.similar r')
    obtain ⟨p, hp, hS⟩ := exists_of_forall₂ halternatives hp'
    exact ⟨p, .choice hk hp, hS⟩
  | repeated hk' =>
    obtain ⟨p, hk, hS⟩ := RuleKind.Similar.of_repetition (hk' ▸ h.similar r')
    exact ⟨p, .repeated hk, hS⟩
  | target hk' =>
    obtain ⟨p, hk, hS⟩ := RuleKind.Similar.of_bound (hk' ▸ h.similar r')
    exact ⟨p, .target hk, hS⟩

theorem reaches (hr : g'.Reaches r' p') : g.Reaches (origin r') (origin p') := by
  induction hr with
  | refl => exact .refl
  | @tail s' p' _ hu ih =>
    obtain ⟨p, hp, hS⟩ := exists_uses (h.similar s') hu
    exact (ih.tail hp).trans (StandsFor.reaches hS)

/-- A way of a copy back to itself would be one of its origin. -/
theorem nonLeftRecursive (hr : g.NonLeftRecursive (origin r')) : g'.NonLeftRecursive r' := by
  intro s' hs' hc
  refine hr (origin s') (h.reaches hs') ?_
  have hall {p' : RuleId} (hc : Relation.TransGen g'.LeftPart s' p') :
      Relation.TransGen g.LeftPart (origin s') (origin p') := by
    induction hc with
    | single hl => exact h.leftParts hl
    | tail _ hl ih => exact ih.trans (h.leftParts hl)
  exact hall hc

theorem origin_followUpTo (hr : g.NonLeftRecursive (origin r')) {n : Nat}
    (hn : g'.target? (g'.followUpTo n r') = none) :
    origin (g'.followUpTo n r') = g.follow (origin r') := by
  have hlast {s' : RuleId} (ht : g'.target? s' = none) : origin s' = g.follow (origin s') := by
    refine (follow_of_unbound ?_).symm
    have hs := h.similar s'
    unfold target? at ht ⊢
    generalize g.kind (origin s') = k at hs
    generalize g'.kind s' = k' at hs ht
    cases hs with
    | bound => cases ht
    | literal | sequence | choice | repetition | unbound => rfl
  induction n generalizing r' with
  | zero => exact hlast hn
  | succ n ih =>
    rw [followUpTo] at hn ⊢
    cases ht : g'.target? r' with
    | none => exact hlast ht
    | some t' =>
      simp only [ht] at hn
      obtain ⟨t, hk, hS⟩ := RuleKind.Similar.of_bound (kind_of_target? ht ▸ h.similar r')
      have hS : g.StandsFor (origin r') (origin t') := .head (by rw [target?, hk]) hS
      rw [ih (hr.reaches hS.reaches) hn, hS.follow_eq hr]

/-- The rules of the unfolding with all those that stand for their origins. -/
theorem bisimulation : Bisimulation g g' fun r r' =>
    g.NonLeftRecursive r ∧ g'.NonLeftRecursive r' ∧ g.StandsFor r (origin r') := by
  have hfollow {r r' : RuleId} (hr : g.NonLeftRecursive r) (hr' : g'.NonLeftRecursive r')
      (hS : g.StandsFor r (origin r')) : g.follow r = origin (g'.follow r') := by
    rw [hS.follow_eq hr]
    exact (h.origin_followUpTo (hr.reaches hS.reaches) (target?_follow hr')).symm
  constructor
  · rintro r r' ⟨hr, hr', hS⟩
    rw [name, name, hfollow hr hr' hS, h.ownName]
  · rintro r r' ⟨hr, hr', hS⟩
    have hf : g.NonLeftRecursive (g.follow r) := hr.followUpTo _
    rw [hfollow hr hr' hS] at hf ⊢
    refine similar_of_uses (h.similar _) fun p p' hu hu' hp => ⟨hf.uses hu, ?_, hp⟩
    exact (hr'.followUpTo _).uses hu'

end Unfolds

/-! ### Transparency -/

/-- By either of two equivalent rules a parse returns the same on whatever cursor, or by neither of
them it returns. It has the same result, with the path and the bytes that its message is made from,
and it leaves the same manager, whose journal holds all calls of the source and all that is logged.
So it is with a rule and its copy in an unfolding of the whole graph, and in any state that a run
can lead to with the depth that a parse chooses for itself. -/
theorem parse_transparent (id : CursorId) :
    (∀ {σ : Type} [ByteSource σ] (m : Manager σ),
      (∀ {g g' : RuleGraph} {r r' : RuleId}, Equivalent g g' r r' →
        ∀ out, g.Returns r id m out ↔ g'.Returns r' id m out) ∧
      ∀ {g g' : RuleGraph} {origin : RuleId → RuleId}, Unfolds g g' origin →
        ∀ r', g.NonLeftRecursive (origin r') → g'.NonLeftRecursive r' ∧
          ∀ out, g.Returns (origin r') id m out ↔ g'.Returns r' id m out) ∧
    ∀ {σ : Type} [FiniteSource σ] (options : StreamOptions) (source : σ) (steps : List Step),
      let m := (Manager.ofSource options source).run steps
      (∀ {g g' : RuleGraph} {r r' : RuleId}, Equivalent g g' r r' →
        g.NonLeftRecursive r → g'.NonLeftRecursive r' → g.parse r id m = g'.parse r' id m) ∧
      ∀ {g g' : RuleGraph} {origin : RuleId → RuleId}, Unfolds g g' origin →
        ∀ r', g.NonLeftRecursive (origin r') →
          g'.NonLeftRecursive r' ∧ g.parse (origin r') id m = g'.parse r' id m := by
  constructor
  · intro σ _ m
    constructor
    · rintro g g' r r' ⟨R, hR, hrr⟩
      exact returns_iff_of_bisimulation hR hrr id m
    · intro g g' origin h r' hr
      have hr' := h.nonLeftRecursive hr
      exact ⟨hr', returns_iff_of_bisimulation h.bisimulation ⟨hr, hr', .refl⟩ id m⟩
  · intro σ _ options source steps m
    have hm : m.Valid := Manager.valid_run (Manager.valid_ofSource options source) steps
    constructor
    · rintro g g' r r' ⟨R, hR, hrr⟩ hr hr'
      exact parse_eq_of_bisimulation hR hrr hr hr' hm id
    · intro g g' origin h r' hr
      have hr' := h.nonLeftRecursive hr
      exact ⟨hr', parse_eq_of_bisimulation h.bisimulation ⟨hr, hr', .refl⟩ hr hr' hm id⟩

/-- `nested` with a second copy of the outer rule and of its group. The first group refers to that
copy of the outer rule, and only the second one has the placeholder. -/
def unfolded : RuleGraph :=
  ⟨#[⟨"nested", .choice [1, 4]⟩, ⟨"group", .sequence [2, 6, 3]⟩, ⟨"open", .literal [40]⟩,
    ⟨"close", .literal [41]⟩, ⟨"x", .literal [120]⟩, ⟨"nested", .placeholder (some 0)⟩,
    ⟨"nested", .choice [7, 4]⟩, ⟨"group", .sequence [2, 5, 3]⟩]⟩

def unfoldedOrigin : RuleId → RuleId
  | 6 => 0
  | 7 => 1
  | r => r

theorem unfolds_unfolded : Unfolds nested unfolded unfoldedOrigin := by
  have hbeyond {r' : RuleId} (h : 8 ≤ r') :
      nested.rule (unfoldedOrigin r') = unfolded.rule r' := by
    have ho : unfoldedOrigin r' = r' := by
      unfold unfoldedOrigin
      split
      · exact absurd h (by decide)
      · exact absurd h (by decide)
      · rfl
    rw [ho, rule_of_size_le (Nat.le_trans (by decide) h), rule_of_size_le h]
  constructor
  · intro r'
    rcases Nat.lt_or_ge r' 8 with h | h
    · interval_cases r' <;> rfl
    · rw [ownName, ownName, hbeyond h]
  · intro r'
    rcases Nat.lt_or_ge r' 8 with h | h
    · interval_cases r'
      case «0» | «6» => exact .choice (.cons .refl (.cons .refl .nil))
      case «1» => exact .sequence (.cons .refl (.cons (.single rfl) (.cons .refl .nil)))
      case «2» | «3» | «4» => exact .literal _
      case «5» => exact .bound .refl
      case «7» => exact .sequence (.cons .refl (.cons .refl (.cons .refl .nil)))
    · rw [kind, kind, hbeyond h, rule_of_size_le h]
      exact .unbound

/-- A placeholder and its target, and a rule and either of its copies, on a source whose bytes have
come in part. -/
theorem parse_transparent_nested :
    let m := (Manager.ofSource {} (Script.ofPieces [.chunk [40, 40], .chunk [120, 41, 41]])).run
      [.branch 0, .read 1 1]
    (nested.parse 0 0 m).1 = .ok () ∧ nested.parse 5 0 m = nested.parse 0 0 m ∧
      nested.parse 0 0 m = unfolded.parse 0 0 m ∧ nested.parse 0 0 m = unfolded.parse 6 0 m ∧
      unfolded.Returns 6 0 m (nested.parse 0 0 m) := by
  intro m
  obtain ⟨hreturns, hparse⟩ := parse_transparent 0
  obtain ⟨hequivalent, hunfolds⟩ := hparse {}
    (Script.ofPieces [.chunk [40, 40], .chunk [120, 41, 41]]) [.branch 0, .read 1 1]
  have h0 := nonLeftRecursive_nested
  have h5 : nested.NonLeftRecursive 5 :=
    (h0.uses (p := 1) (.inl (by decide))).uses (.inl (by decide))
  have he : Equivalent nested nested 5 0 := ⟨_, bisimulation_follow nested, rfl⟩
  have hok : (nested.parse 0 0 m).1 = .ok () := by decide +kernel
  have h6 : unfolded.Returns 6 0 m (nested.parse 0 0 m) :=
    (((hreturns m).2 unfolds_unfolded 6 h0).2 _).mp ⟨by rw [hok]; exact nofun, _, rfl⟩
  exact ⟨hok, hequivalent he h5 h0, (hunfolds unfolds_unfolded 0 h0).2,
    (hunfolds unfolds_unfolded 6 h0).2, h6⟩

end StreamPeg.RuleGraph
