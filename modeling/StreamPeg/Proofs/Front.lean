import StreamPeg.Cursor.Front
import StreamPeg.Proofs.Feed

/-!
# Reads find the front

The front of a finite source is what it brings (`brings_upcoming`), and no other front is
(`Brings.front_unique`). So the front of a manager is on offer, what a read answers depends on the
front alone, and after every read but one that raises a failure the front is what it was
(`read_eq_front_read`).
-/

namespace StreamPeg

/-! ### Fronts as feeds -/

namespace Front

theorem feed_injective : Function.Injective feed := by
  rintro ⟨bs, failure⟩ ⟨bs', failure'⟩ h
  have hbytes : bs = bs' := Stream'.Seq.ofList_injective (congrArg Feed.bytes h)
  have hfailure : failure = failure' := congrArg Feed.failure h
  rw [hbytes, hfailure]

theorem read_feed (f : Front) (offset count : Nat) :
    f.feed.read offset count = f.read offset count := by
  have htake : (f.feed.bytes.drop offset).take count = (f.bytes.drop offset).take count :=
    take_ofList_drop f.bytes offset count
  unfold read
  rw [← htake]
  rfl

theorem drop_feed (f : Front) (n : Nat) :
    f.feed.drop n = (⟨f.bytes.drop n, f.failure⟩ : Front).feed := by
  refine congrArg (Feed.mk · f.failure) (Stream'.Seq.ext fun i => ?_)
  rw [Stream'.Seq.drop_get?, feed, Stream'.Seq.ofList_get?, Stream'.Seq.ofList_get?,
    List.getElem?_drop]

theorem take_feed (f : Front) (n : Nat) : f.feed.bytes.take n = f.bytes.take n :=
  take_ofList_drop f.bytes 0 n

theorem take_behind (f : Front) (bs : List UInt8) :
    (f.behind bs).feed.bytes.take bs.length = bs := by
  rw [take_feed, behind, List.take_left]

theorem drop_behind (f : Front) (bs : List UInt8) :
    (f.behind bs).feed.drop bs.length = f.feed := by
  rw [drop_feed, behind, List.drop_left]

theorem eq_behind {f : Front} {bs : List UInt8} (h : f.feed.bytes.take bs.length = bs) :
    ∃ rest : Front, f = rest.behind bs ∧ f.feed.drop bs.length = rest.feed := by
  refine ⟨⟨f.bytes.drop bs.length, f.failure⟩, ?_, f.drop_feed _⟩
  rw [take_feed] at h
  have hbytes := List.take_append_drop bs.length f.bytes
  rw [h] at hbytes
  rw [behind, hbytes]

end Front

/-! ### Finite sources -/

theorem Serves.frontOf_eq {before after : List Delivery} {answer : Answer}
    (h : Serves before answer after) :
    frontOf before =
      match answer with
      | .bytes [] => ⟨[], none⟩
      | .bytes bs => (frontOf after).behind bs
      | .failed e => ⟨[], some e⟩ := by
  cases h with
  | @bytes bs rest hb =>
    obtain ⟨b, bs, rfl⟩ := List.exists_cons_of_ne_nil hb
    exact frontOf_append_bytes (b :: bs) after
  | ended => rfl
  | drained => rfl
  | failed => rfl

section

variable {σ : Type} [ByteSource σ] {s : σ}

/-- No source brings two fronts. -/
theorem Brings.front_unique {f f' : Front} (h : Brings s f.feed) (h' : Brings s f'.feed) :
    f = f' := by
  induction hlen : f.bytes.length using Nat.strong_induction_on generalizing s f f' with
  | _ n ih =>
    have hfits := h.fits Nat.one_pos
    have hfits' := h'.fits Nat.one_pos
    rcases hs : ByteSource.fill s 1 with ⟨(_ | ⟨b, bs⟩) | e, s'⟩
    · rw [hs] at hfits hfits'
      exact Front.feed_injective (hfits.trans hfits'.symm)
    · obtain ⟨htake, hnext⟩ := h.next Nat.one_pos (List.cons_ne_nil b bs) hs
      obtain ⟨htake', hnext'⟩ := h'.next Nat.one_pos (List.cons_ne_nil b bs) hs
      obtain ⟨rest, rfl, hrest⟩ := Front.eq_behind htake
      obtain ⟨rest', rfl, hrest'⟩ := Front.eq_behind htake'
      have hlt : rest.bytes.length < n := by
        simp only [Front.behind, List.length_append, List.length_cons] at hlen
        omega
      rw [ih _ hlt (hrest ▸ hnext) (hrest' ▸ hnext') rfl]
    · rw [hs] at hfits hfits'
      exact Front.feed_injective (hfits.trans hfits'.symm)

end

section

variable {σ : Type} [FiniteSource σ]

theorem Answers.fits_frontOf {s s' : σ} {calls : List Call} (h : Answers s calls s')
    (hpos : ∀ c ∈ calls, 0 < c.requested) :
    (frontOf (FiniteSource.upcoming s)).feed.Fits (calls.map (·.answer)) := by
  induction h with
  | nil => trivial
  | @cons s s' s'' n answer calls hf _ ih =>
    have hs := FiniteSource.serves_fill s n (hpos _ List.mem_cons_self)
    rw [hf] at hs
    have hfront := hs.frontOf_eq
    rcases answer with (_ | ⟨b, bs⟩) | e
    · exact congrArg Front.feed hfront
    · rw [hfront]
      refine ⟨Front.take_behind _ _, ?_⟩
      rw [Front.drop_behind]
      exact ih fun c hc => hpos c (List.mem_cons_of_mem _ hc)
    · exact congrArg Front.feed hfront

theorem brings_upcoming (s : σ) : Brings s (frontOf (FiniteSource.upcoming s)).feed :=
  fun _ _ => Answers.fits_frontOf

namespace Manager

variable {m m' : Manager σ}

theorem front_of_held {e : SourceFailure} (h : m.held = some e) :
    m.front = (⟨[], some e⟩ : Front).behind (received m.journal) := by
  simp only [front, h, Front.behind, List.append_nil]

theorem front_of_exhausted (hh : m.held = none) (hx : m.exhausted = true) :
    m.front = (⟨[], none⟩ : Front).behind (received m.journal) := by
  simp only [front, hh, hx, if_true, Front.behind, List.append_nil]

theorem front_of_open (hh : m.held = none) (hx : m.exhausted = false) :
    m.front = (frontOf (FiniteSource.upcoming m.source)).behind (received m.journal) := by
  simp only [front, hh, hx, Bool.false_eq_true, if_false]

theorem offers_front (m : Manager σ) : m.Offers m.front.feed := by
  cases hh : m.held with
  | some e =>
    rw [front_of_held hh, Offers, Front.drop_behind]
    exact ⟨Front.take_behind _ _, by rw [hh]; rfl⟩
  | none =>
    cases hx : m.exhausted with
    | true =>
      rw [front_of_exhausted hh hx, Offers, Front.drop_behind]
      exact ⟨Front.take_behind _ _, by rw [hh, hx]; rfl⟩
    | false =>
      rw [front_of_open hh hx, Offers, Front.drop_behind]
      refine ⟨Front.take_behind _ _, ?_⟩
      simpa only [hh, hx, Bool.false_eq_true, if_false] using brings_upcoming m.source

theorem Offers.front_unique {f : Front} (h : m.Offers f.feed) : m.front = f := by
  obtain ⟨htake, hrest⟩ := h
  obtain ⟨rest, rfl, hdrop⟩ := Front.eq_behind htake
  rw [hdrop] at hrest
  cases hh : m.held with
  | some e =>
    rw [hh] at hrest
    obtain rfl : rest = ⟨[], some e⟩ := Front.feed_injective hrest
    exact front_of_held hh
  | none =>
    cases hx : m.exhausted with
    | true =>
      simp only [hh, hx, if_true] at hrest
      obtain rfl : rest = ⟨[], none⟩ := Front.feed_injective hrest
      exact front_of_exhausted hh hx
    | false =>
      simp only [hh, hx, Bool.false_eq_true, if_false] at hrest
      rw [front_of_open hh hx, (brings_upcoming m.source).front_unique hrest]

theorem Quiet.front_eq (h : Quiet m m') : m'.front = m.front :=
  (h.offers m.offers_front).front_unique

/-- A read finds what the front has at its offset. Unless it raises a failure, it leaves the front
as it was. -/
theorem read_eq_front_read (h : m.Valid) {id : CursorId} {offset : Nat}
    (ho : m.cursors.offset? id = some offset) (count : Nat) :
    (m.read id count).1 = m.front.read offset count ∧
      ∀ chunk, (m.read id count).1 = .ok chunk → (m.read id count).2.front = m.front := by
  obtain ⟨hanswer, hoffer⟩ := m.offers_front.read h ho count
  exact ⟨hanswer.trans (m.front.read_feed offset count), fun chunk hc =>
    (hoffer chunk hc).front_unique⟩

end Manager

end

end StreamPeg
