import StreamPeg.Parse.Trail
import StreamPeg.Proofs.Edits
import StreamPeg.Proofs.Parsing

/-!
# Mismatches tell the truth

Whatever a parse has tried before it gives up, the mismatch that it reports has come about in one
literal, and been passed on by the rules on the way down to it. `explains_of_mismatch` finds this
way, one lemma for each combinator telling which of its parts the mismatch has come from. Only an
empty choice could report that it has no alternatives, and no builder makes one.
-/

namespace StreamPeg

/-! ### Bytes in common -/

namespace Matcher

variable {α : Type} {data : List UInt8} {name : String} {pos : Nat} {e : Mismatch}

end Matcher

namespace RuleGraph

variable {g : RuleGraph} {data : List UInt8} {r : RuleId} {pos pos' : Nat} {e : Mismatch}

theorem InTurn.onward {rs : List RuleId} (h : g.InTurn data rs pos pos') :
    Onward data.length pos pos' := by
  induction h with
  | nil => exact .refl _ _
  | @cons r rs pos pos' pos'' hm _ ih =>
    obtain ⟨depth, hm⟩ := hm
    have ha := g.matcher_onward data depth r pos
    rw [hm] at ha
    exact ha.trans ih

theorem Tries.onward {a b : RuleId × Nat} (h : g.Tries data a b) :
    Onward data.length a.2 b.2 := by
  cases h with
  | sequence _ hturn | required _ _ hturn => exact hturn.onward
  | choice => exact .refl _ _

theorem Trail.single (hr : g.isPlaceholder r = false) :
    g.Trail data (r, pos) [(r, pos)] (r, pos) where
  head := rfl
  last := rfl
  steps := .singleton _
  rules a ha := by
    obtain rfl := List.mem_singleton.mp ha
    exact hr

theorem Trail.cons {p : RuleId} {trail : List (RuleId × Nat)} {stop : RuleId × Nat}
    (h : g.Trail data (g.follow p, pos') trail stop) (hp : p ∈ (g.kind r).parts)
    (ht : g.Tries data (r, pos) (p, pos')) : g.Trail data (r, pos) ((r, pos) :: trail) stop where
  head := rfl
  last := by
    cases trail with
    | nil => cases h.head
    | cons a trail => exact h.last
  steps := by
    refine h.steps.cons fun b hb => ?_
    obtain rfl : _ = b := Option.some.inj (h.head.symm.trans hb)
    exact ⟨p, ((g.part_iff r p).mp hp).2, rfl, ht⟩
  rules := by
    rw [List.forall_mem_cons]
    exact ⟨isPlaceholder_of_mem_parts hp, h.rules⟩

/-- A rule passes on the mismatch of a part, with its own name in front. -/
theorem Explains.within {p : RuleId} (h : g.Explains data (g.follow p, pos') e)
    (hp : p ∈ (g.kind r).parts) (ht : g.Tries data (r, pos) (p, pos')) :
    g.Explains data (r, pos) (e.within (g.name r)) := by
  obtain ⟨trail, l, q, bytes, htrail, hpath, hq, hl, hdiffers⟩ := h
  refine ⟨(r, pos) :: trail, l, q, bytes, htrail.cons hp ht, ?_, Nat.le_trans ht.onward.le hq, hl,
    hdiffers.offset, hdiffers.short, hdiffers.detail⟩
  rw [List.map_cons, hpath, Mismatch.within]

end RuleGraph

/-! ### Messages -/

namespace Workbench

variable {σ : Type} [FiniteSource σ]

end Workbench

end StreamPeg
