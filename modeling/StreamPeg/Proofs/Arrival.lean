import StreamPeg.Proofs.Abreast
import StreamPeg.Proofs.Settled
import StreamPeg.Source.Input

/-!
# However the bytes arrive

A parse finds nothing of a source but what is on offer, and that is the front: the bytes before the
source first ends or fails, and which of the two it does. So a parse does not tell sources of the
same front apart (`parse_eq_of_frontOf_eq`).
-/

namespace StreamPeg.RuleGraph

variable {σ σ' : Type} [FiniteSource σ] [FiniteSource σ'] {g : RuleGraph} {r : RuleId} {source : σ}
  {source' : σ'}

theorem meets_ofSource (options : StreamOptions) (source : σ) :
    Meets (frontOf (FiniteSource.upcoming source)).feed (.ofSource options source) .root 0 where
  valid := Manager.valid_ofSource options source
  offset_eq := rfl
  offers := (Manager.ofSource options source).offers_front

/-- Each parse chooses a depth by what its own source has left. The greater one is good for both. -/
theorem endAlike_parse
    (hf : frontOf (FiniteSource.upcoming source) = frontOf (FiniteSource.upcoming source'))
    (hr : g.NonLeftRecursive r) (options options' : StreamOptions) :
    let f := (frontOf (FiniteSource.upcoming source)).feed
    EndAlike (fun m m' => m.Offers f ∧ m'.Offers f) .root .root
      (g.parse r .root (.ofSource options source))
      (g.parse r .root (.ofSource options' source')) := by
  intro f
  have h := meets_ofSource options source
  have h' := meets_ofSource options' source'
  rw [← hf] at h'
  rw [← parser_eq_parse h.valid hr (Nat.le_max_left _ _),
    ← parser_eq_parse h'.valid hr (Nat.le_max_right _ _), ← g.run_plan, ← g.run_plan]
  exact Plan.endAlike_run (Manager.lockstep_offers f) (g.givesUp_plan _ r) (h.beside h')

theorem matchSource_eq
    (hf : frontOf (FiniteSource.upcoming source) = frontOf (FiniteSource.upcoming source'))
    (hr : g.NonLeftRecursive r) : (g.matchSource r source).1 = (g.matchSource r source').1 := by
  have hends := endAlike_parse hf hr {} {}
  obtain ⟨pos, ho, ho'⟩ := hends.exists_offset
  exact matchSource_congr hends.answer
    ((Manager.offset_eq_ok_iff.mpr ho).trans (Manager.offset_eq_ok_iff.mpr ho').symm)

/-- Two sources that deliver the same bytes before they first end or fail, and then both end or both
fail with the same failure, however they cut the bytes into answers and whatever they would deliver
after that. The parses may also differ in their options. -/
theorem parse_eq_of_frontOf_eq
    (hf : frontOf (FiniteSource.upcoming source) = frontOf (FiniteSource.upcoming source'))
    (hr : g.NonLeftRecursive r) (options options' : StreamOptions) :
    let a := g.parse r .root (.ofSource options source)
    let b := g.parse r .root (.ofSource options' source')
    a.1 = b.1 ∧ (∃ pos, a.2.offset .root = .ok pos ∧ b.2.offset .root = .ok pos) ∧
      (g.matchSource r source).1 = (g.matchSource r source').1 := by
  intro a b
  have hends := endAlike_parse hf hr options options'
  obtain ⟨pos, ho, ho'⟩ := hends.exists_offset
  exact ⟨hends.answer, ⟨pos, Manager.offset_eq_ok_iff.mpr ho, Manager.offset_eq_ok_iff.mpr ho'⟩,
    matchSource_eq hf hr⟩

/-- The same bytes in memory and through a small buffer with interruptions under it, and then two
sources that fail behind the same bytes, one of which has more to come. -/
theorem parse_eq_of_frontOf_eq_nested :
    let again : SourceFailure := ⟨.interrupted, "again"⟩
    let lost : SourceFailure := ⟨.other, "lost"⟩
    let memory : Memory := ⟨[40, 40, 120, 41, 41]⟩
    let buffered := Buffered.ofPieces 2
      [.failure again, .chunk [40, 40, 120], .failure again, .chunk [41, 41]]
    let script := Script.ofPieces [.chunk [40, 40, 120], .failure lost, .chunk [41, 41]]
    let failing := Buffered.ofPieces 8
      [.chunk [40], .failure again, .chunk [40, 120], .failure lost]
    let a := nested.parse 0 .root (.ofSource {} script)
    let b := nested.parse 0 .root (.ofSource { readAhead := 3 } failing)
    (nested.matchSource 0 memory).1 = .ok 5 ∧
      (nested.matchSource 0 memory).1 = (nested.matchSource 0 buffered).1 ∧
      a.1 = .error (.source (.source lost)) ∧ a.1 = b.1 ∧
      ∃ pos, a.2.offset .root = .ok pos ∧ b.2.offset .root = .ok pos := by
  intro again lost memory buffered script failing a b
  have hr := nonLeftRecursive_nested
  have hended : frontOf (FiniteSource.upcoming memory) = frontOf (FiniteSource.upcoming buffered) :=
    by decide
  have hfailed : frontOf (FiniteSource.upcoming script) = frontOf (FiniteSource.upcoming failing) :=
    by decide
  obtain ⟨_, _, hmatch⟩ := parse_eq_of_frontOf_eq hended hr {} {}
  obtain ⟨hanswer, hoffset, _⟩ := parse_eq_of_frontOf_eq hfailed hr {} { readAhead := 3 }
  exact ⟨by decide +kernel, hmatch, by decide +kernel, hanswer, hoffset⟩

end StreamPeg.RuleGraph
