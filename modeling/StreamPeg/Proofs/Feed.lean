import StreamPeg.Cursor.Feed
import StreamPeg.Proofs.Outlook

/-!
# Reads find the feed

Pulling takes nothing from what a manager offers, as long as a failure that it meets is held back
(`Offers.defer_pull`). So what a read answers depends on the feed alone, and after every read but
one that raises a failure the same feed is still on offer (`Offers.read`).
-/

namespace StreamPeg

/-! ### Sequences -/

section

variable {α : Type} {s : Stream'.Seq α}

theorem take_add (s : Stream'.Seq α) (m n : Nat) :
    s.take (m + n) = s.take m ++ (s.drop m).take n := by
  induction m generalizing s with
  | zero => simp
  | succ m ih =>
    cases s with
    | nil => simp
    | cons a s => rw [Nat.add_right_comm]; simp [ih]

/-- Where a sequence has been cut, or has ended before that, it can be cut once more. -/
theorem take_length_take (s : Stream'.Seq α) (n : Nat) :
    s.take (s.take n).length = s.take n := by
  refine List.ext_getElem? fun i => ?_
  rw [Stream'.Seq.getElem?_take]
  split
  · next hi =>
    rw [Stream'.Seq.getElem?_take, if_pos (Nat.lt_of_lt_of_le hi Stream'.Seq.length_take_le)]
  · next hi => rw [List.getElem?_eq_none (Nat.le_of_not_lt hi)]

/-- A section of a sequence can be taken from its first elements, if these are enough or all. -/
theorem take_drop_take {m k n : Nat} (h : m + k ≤ n ∨ s.drop n = .nil) :
    ((s.take n).drop m).take k = (s.drop m).take k := by
  have hnone (i : Nat) (hi : n ≤ i) (hnil : s.drop n = .nil) : s.get? i = none := by
    rw [← Nat.add_sub_cancel' hi, ← Stream'.Seq.drop_get?, hnil, Stream'.Seq.get?_nil]
  refine List.ext_getElem? fun i => ?_
  grind

theorem take_ofList_drop (l : List α) (m n : Nat) :
    ((Stream'.Seq.ofList l).drop m).take n = (l.drop m).take n := by
  refine List.ext_getElem? fun i => ?_
  rw [Stream'.Seq.getElem?_take, List.getElem?_take, Stream'.Seq.drop_get?,
    Stream'.Seq.ofList_get?, List.getElem?_drop]

end

variable {σ : Type}

/-! ### Sources -/

section

variable [ByteSource σ] {s s' : σ} {f : Feed}

theorem Brings.fits (h : Brings s f) {n : Nat} (hn : 0 < n) : f.Fits [(ByteSource.fill s n).1] :=
  h [⟨n, (ByteSource.fill s n).1⟩] _ (.cons rfl (.nil _)) (by simpa using hn)

/-- What has come is taken off the feed. -/
theorem Brings.next (h : Brings s f) {n : Nat} (hn : 0 < n) {bs : List UInt8} (hb : bs ≠ [])
    (hf : ByteSource.fill s n = (.bytes bs, s')) :
    f.bytes.take bs.length = bs ∧ Brings s' (f.drop bs.length) := by
  obtain ⟨b, bs, rfl⟩ := List.exists_cons_of_ne_nil hb
  have hfits := h.fits hn
  rw [hf] at hfits
  refine ⟨hfits.1, fun calls s'' hcalls hpos => ?_⟩
  exact (h (⟨n, .bytes (b :: bs)⟩ :: calls) s'' (.cons hf hcalls) (by simpa [hn] using hpos)).2

/-- How a pull leaves a source that goes on to bring what is left, or has come to the end of it. -/
def Pulled.Leaves (s : σ) (rest : Feed) : Pulled → Prop
  | .satisfied => Brings s rest
  | .ended => rest = .ended
  | .failed e => rest = .failed e

theorem Feed.take_add (f : Feed) (m n : Nat) :
    f.bytes.take (m + n) = f.bytes.take m ++ (f.drop m).bytes.take n :=
  StreamPeg.take_add f.bytes m n

theorem Feed.drop_add (f : Feed) (m n : Nat) : f.drop (m + n) = (f.drop m).drop n := by
  rw [drop, drop, drop, Stream'.Seq.dropn_add]

theorem Draw.leaves {needed wanted : Nat} {cs : List Call} {out : Pulled}
    (h : Draw needed wanted s cs out s') (hw : needed ≤ wanted) (hf : Brings s f) :
    f.bytes.take (given cs).length = given cs ∧ out.Leaves s' (f.drop (given cs).length) := by
  induction h generalizing f with
  | done => exact ⟨Stream'.Seq.take_zero, hf⟩
  | @ended needed wanted s s' hn he =>
    have hfits := hf.fits (Nat.lt_of_lt_of_le hn hw)
    rw [he] at hfits
    exact ⟨Stream'.Seq.take_zero, hfits⟩
  | @failed needed wanted s s' e hn he =>
    have hfits := hf.fits (Nat.lt_of_lt_of_le hn hw)
    rw [he] at hfits
    exact ⟨Stream'.Seq.take_zero, hfits⟩
  | @more needed wanted s s' s'' bs cs out hn hb he _ ih =>
    obtain ⟨htake, hnext⟩ := hf.next (Nat.lt_of_lt_of_le hn hw) hb he
    obtain ⟨htake', hleaves⟩ := ih (by omega) hnext
    rw [given_cons, Answer.given_bytes, List.length_append, Feed.take_add, htake, htake',
      Feed.drop_add]
    exact ⟨rfl, hleaves⟩

namespace Manager

variable {m m' : Manager σ}

theorem Quiet.offers (h : Quiet m m') (hm : m.Offers f) : m'.Offers f := by
  rw [Offers, received, h.calls_eq, h.held, h.exhausted, h.source, ← received]
  exact hm

/-- With the failure that it has met held back, a pull has taken nothing from what is offered. -/
theorem Offers.defer_pull (hm : m.Offers f) {needed : Nat} {out : Pulled}
    (hp : m.pull needed = (out, m')) (available : Nat) :
    (m'.defer available out).Offers f := by
  unfold pull at hp
  by_cases hn : needed = 0
  · rw [if_pos hn] at hp
    cases hp
    exact hm
  rw [if_neg hn] at hp
  obtain ⟨htake, hrest⟩ := hm
  cases hh : m.held with
  | some e =>
    simp only [hh] at hp hrest
    cases hp
    have hr : received (defer { m with held := none } available (.failed e)).journal =
        received m.journal := received_cons rfl _
    rw [Offers, hr]
    exact ⟨htake, hrest⟩
  | none =>
    simp only [hh] at hp hrest
    cases hx : m.exhausted with
    | true =>
      simp only [hx, if_true] at hp hrest
      cases hp
      refine ⟨htake, ?_⟩
      simpa only [defer, hh, hx, if_true] using hrest
    | false =>
      obtain ⟨cs, s', hd, he⟩ := exists_draw needed needed (needed + m.readAhead) (Nat.le_refl _) m
      simp only [hx, Bool.false_eq_true, if_false] at hp hrest
      rw [hp] at hd he
      dsimp only at hd he
      subst he
      have hr : received ((m.drawn cs out s').defer available out).journal =
          received m.journal ++ given cs := by
        rw [received, (defer_fields _ available out).2.2.2.2.2.2, calls_drawn, given_append,
          received]
      obtain ⟨htake', hleaves⟩ := hd.leaves (Nat.le_add_right _ _) hrest
      rw [Offers, hr, List.length_append, Feed.take_add, htake, htake', Feed.drop_add]
      refine ⟨rfl, ?_⟩
      cases out with
      | satisfied => simpa [defer, drawn, hh, hx, Pulled.Leaves] using hleaves
      | ended => simpa [defer, drawn, hh, Pulled.Leaves] using hleaves
      | failed e => exact hleaves

/-- What is buffered after a pull for it is what the feed has there: either nothing is missing, or
all that the feed has is there. -/
theorem Offers.take_eq_buffered (h : m.Valid) {offset count : Nat} {cs : List Call} {out : Pulled}
    (hb : m.base ≤ offset) (hl : offset ≤ (received m.journal).length)
    (hp : Pull m (count - (m.buffered offset count).length) cs out m') {available : Nat}
    (hf : (m'.defer available out).Offers f) :
    (f.bytes.drop offset).take count = m'.buffered offset count := by
  obtain ⟨htake, hrest⟩ := hf
  have hj : received (m'.defer available out).journal = received m'.journal := by
    rw [received, (defer_fields m' available out).2.2.2.2.2.2, received]
  rw [hj] at htake hrest
  have hbuf : m'.buffered offset count = ((received m'.journal).drop offset).take count :=
    (hp.valid h).buffered_eq (hp.base ▸ hb) count
  rw [hbuf]
  suffices offset + count ≤ (received m'.journal).length ∨
      f.bytes.drop (received m'.journal).length = .nil by
    rw [← take_drop_take this, htake]
  cases out with
  | satisfied =>
    have hfull := (hp.length_buffered h hb hl).1 rfl
    rw [hbuf, List.length_take, List.length_drop] at hfull
    have hle : offset ≤ (received m'.journal).length := by
      rw [hp.received_eq, List.length_append]
      omega
    exact .inl (by omega)
  | ended =>
    obtain ⟨hheld, hx⟩ := hp.ended rfl
    simp only [defer, hheld, hx, if_true] at hrest
    exact .inr (congrArg Feed.bytes hrest)
  | failed e => exact .inr (congrArg Feed.bytes hrest)

/-- A read finds what is offered at its offset. Unless it raises a failure, it leaves the offer as
it was. -/
theorem Offers.read (hf : m.Offers f) (h : m.Valid) {id : CursorId} {offset : Nat}
    (ho : m.cursors.offset? id = some offset) (count : Nat) :
    (m.read id count).1 = f.read offset count ∧
      ∀ chunk, (m.read id count).1 = .ok chunk → (m.read id count).2.Offers f := by
  obtain ⟨cs, out, m', hq, hp, hr⟩ := exists_read h ho count
  have hn := h.note (.requested id count) rfl
  have hoffer (k : Nat) : (m'.defer k out).Offers f :=
    ((quiet_note m rfl).offers hf).defer_pull hq k
  have hfound : (f.bytes.drop offset).take count = m'.buffered offset count :=
    (hoffer 0).take_eq_buffered hn (h.le_offset ho) (h.offset_le ho) hp
  have hlen := hp.length_buffered hn (h.le_offset ho) (h.offset_le ho)
  rcases hr with ⟨e, rfl, hnil, hr⟩ | ⟨hne, hr⟩
  · have hlt := (hlen.2 (by simp)).1
    have hfail : f.failure = some e := congrArg Feed.failure (hoffer 0).2
    rw [hr, Feed.read, hfound, hfail, if_neg (Nat.ne_of_lt hlt), hnil]
    exact ⟨rfl, by simp⟩
  · rw [hr]
    refine ⟨?_, fun _ _ => (quiet_advance _ id _).offers (hoffer _)⟩
    rw [Feed.read, hfound]
    cases out with
    | satisfied => rw [if_pos (hlen.1 rfl)]; rfl
    | ended =>
      have hend : f.failure = none := by
        have hrest := (hoffer 0).2
        obtain ⟨hheld, hx⟩ := hp.ended rfl
        simp only [defer, hheld, hx, if_true] at hrest
        exact congrArg Feed.failure hrest
      rw [if_neg (Nat.ne_of_lt (hlen.2 (by simp)).1), hend]
      rfl
    | failed e =>
      have hfail : f.failure = some e := congrArg Feed.failure (hoffer 0).2
      obtain ⟨b, bs, hb⟩ := List.exists_cons_of_ne_nil (hne e rfl)
      rw [if_neg (Nat.ne_of_lt (hlen.2 (by simp)).1), hfail, hb]
      rfl

end Manager

end

end StreamPeg
