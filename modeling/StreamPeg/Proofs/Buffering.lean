import StreamPeg.Source.Buffered

/-!
# A buffer is not seen

Whatever a finite source is asked, the answers are what it had to deliver, cut into pieces, and
after that nothing but ends (`exists_deliveries_fillAll`). A buffered source has to deliver what its
reader does, without the interruptions. So neither the size of the buffer nor that of the requests
changes anything but the cuts (`buffered_transparent`).
-/

namespace StreamPeg

/-- What an answer delivers, one after the other. -/
def Answer.deliveries : Answer → List Delivery
  | .bytes [] => [.ended]
  | .bytes bs => bs.map .byte
  | .failed e => [.failure e]

/-- A step on what is to come takes the answer off its front. Only a source that has nothing left
still answers, with one more end. -/
theorem Serves.exists_deliveries {before after : List Delivery} {answer : Answer}
    (h : Serves before answer after) :
    ∃ k, answer.deliveries ++ after = before ++ List.replicate k .ended := by
  cases h with
  | @bytes bs rest hb =>
    obtain ⟨b, bs, rfl⟩ := List.exists_cons_of_ne_nil hb
    exact ⟨0, (List.append_nil _).symm⟩
  | ended => exact ⟨0, (List.append_nil _).symm⟩
  | drained => exact ⟨1, rfl⟩
  | failed => exact ⟨0, (List.append_nil _).symm⟩

namespace ByteSource

variable {σ : Type}

/-- The answers to requests that are made one after the other, and the source behind them. -/
def fillAll [ByteSource σ] : σ → List Nat → List Answer × σ
  | s, [] => ([], s)
  | s, n :: ns =>
    let (answer, s) := fill s n
    let (answers, s) := fillAll s ns
    (answer :: answers, s)

/-- What has been delivered, and what is to come, are what there was to come and then ends. -/
theorem exists_deliveries_fillAll [FiniteSource σ] (s : σ) {requests : List Nat}
    (hpos : ∀ n ∈ requests, 0 < n) :
    ∃ k, (fillAll s requests).1.flatMap Answer.deliveries ++
        FiniteSource.upcoming (fillAll s requests).2 =
      FiniteSource.upcoming s ++ List.replicate k .ended := by
  induction requests generalizing s with
  | nil => exact ⟨0, (List.append_nil _).symm⟩
  | cons n requests ih =>
    rw [List.forall_mem_cons] at hpos
    obtain ⟨j, hj⟩ := (FiniteSource.serves_fill s n hpos.1).exists_deliveries
    obtain ⟨k, hk⟩ := ih (fill s n).2 hpos.2
    refine ⟨j + k, ?_⟩
    calc (fillAll s (n :: requests)).1.flatMap Answer.deliveries ++
          FiniteSource.upcoming (fillAll s (n :: requests)).2
        = (fill s n).1.deliveries ++ ((fillAll (fill s n).2 requests).1.flatMap Answer.deliveries ++
            FiniteSource.upcoming (fillAll (fill s n).2 requests).2) := List.append_assoc ..
      _ = (fill s n).1.deliveries ++ FiniteSource.upcoming (fill s n).2 ++
            List.replicate k .ended := by rw [hk, List.append_assoc]
      _ = FiniteSource.upcoming s ++ List.replicate (j + k) .ended := by
        rw [hj, List.append_assoc, List.replicate_append_replicate]

end ByteSource

namespace Buffered

/-- What comes out of a buffered source, for any script that its reader plays, any capacity and any
requests for something: the script without its interruptions, and from then on ends. Nothing is lost
on the way: what has not come out yet is still to come. So runs that differ in their capacity and in
their requests only differ in how far they have come. -/
theorem buffered_transparent (pieces : List Piece) (capacity : Nat) (requests : List Nat)
    (hpos : ∀ n ∈ requests, 0 < n) :
    let script := (pieces.flatMap Piece.deliveries).filter passes
    let run := ByteSource.fillAll (ofPieces capacity pieces) requests
    let out := run.1.flatMap Answer.deliveries
    (∃ k, out ++ upcoming run.2 = script ++ List.replicate k .ended) ∧
    (∀ e, .failed e ∈ run.1 → e.kind ≠ .interrupted) ∧
    ∀ capacity' requests', (∀ n ∈ requests', 0 < n) →
      let out' := (ByteSource.fillAll (ofPieces capacity' pieces) requests').1.flatMap
        Answer.deliveries
      out <+: out' ∨ out' <+: out := by
  intro script run out
  have hout (c : Nat) {ns : List Nat} (hns : ∀ n ∈ ns, 0 < n) :
      ∃ k, (ByteSource.fillAll (ofPieces c pieces) ns).1.flatMap Answer.deliveries ++
        upcoming (ByteSource.fillAll (ofPieces c pieces) ns).2 =
          script ++ List.replicate k .ended :=
    ByteSource.exists_deliveries_fillAll (ofPieces c pieces) hns
  refine ⟨hout capacity hpos, fun e he => ?_, fun capacity' requests' hpos' => ?_⟩
  · obtain ⟨k, hk⟩ := hout capacity hpos
    have hmem : Delivery.failure e ∈ script ++ List.replicate k .ended := by
      rw [← hk]
      refine List.mem_append_left _ (List.mem_flatMap.mpr ⟨_, he, ?_⟩)
      exact List.mem_singleton_self _
    rcases List.mem_append.mp hmem with hmem | hmem
    · simpa [passes] using (List.mem_filter.mp hmem).2
    · cases List.eq_of_mem_replicate hmem
  · obtain ⟨k, hk⟩ := hout capacity hpos
    obtain ⟨k', hk'⟩ := hout capacity' hpos'
    -- Both are sections of the script and as many ends as either of them has.
    have hext {j : Nat} (hj : j ≤ max k k') :
        script ++ List.replicate j .ended <+: script ++ List.replicate (max k k') .ended := by
      refine (List.prefix_append_right_inj script).mpr ⟨List.replicate (max k k' - j) .ended, ?_⟩
      rw [List.replicate_append_replicate, Nat.add_sub_cancel' hj]
    have hprefix := List.IsPrefix.trans ⟨_, hk⟩ (hext (Nat.le_max_left k k'))
    have hprefix' := List.IsPrefix.trans ⟨_, hk'⟩ (hext (Nat.le_max_right k k'))
    exact List.prefix_or_prefix_of_prefix hprefix hprefix'

/-- A buffer of two bytes and none at all, over a reader that is interrupted twice, ends in between
and fails. -/
theorem buffered_transparent_small :
    let again : SourceFailure := ⟨.interrupted, "again"⟩
    let lost : SourceFailure := ⟨.other, "lost"⟩
    let pieces := [.chunk [1, 2, 3], .failure again, .chunk [], .failure again, .failure lost,
      .chunk [4]]
    let small := ByteSource.fillAll (ofPieces 2 pieces) [1, 1, 5, 1, 1, 9, 1]
    let bare := ByteSource.fillAll (ofPieces 0 pieces) [8, 8, 8]
    small.1 = [.bytes [1], .bytes [2], .bytes [3], .bytes [], .failed lost, .bytes [4], .bytes []] ∧
    bare.1 = [.bytes [1, 2, 3], .bytes [], .failed lost] ∧
    (∃ k, small.1.flatMap Answer.deliveries ++ upcoming small.2 =
      [.byte 1, .byte 2, .byte 3, .ended, .failure lost, .byte 4] ++ List.replicate k .ended) ∧
    (small.1.flatMap Answer.deliveries <+: bare.1.flatMap Answer.deliveries ∨
      bare.1.flatMap Answer.deliveries <+: small.1.flatMap Answer.deliveries) := by
  intro again lost pieces small bare
  obtain ⟨hout, _, hruns⟩ := buffered_transparent pieces 2 [1, 1, 5, 1, 1, 9, 1] (by decide)
  exact ⟨by decide, by decide, hout, hruns 0 [8, 8, 8] (by decide)⟩

end Buffered

end StreamPeg
