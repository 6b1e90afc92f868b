import StreamPeg.Proofs.Follows
import StreamPeg.Proofs.Front
import StreamPeg.Proofs.Reached

/-!
# What a literal finds

How a literal ends is decided by the feed that is on offer where its cursor stands (`LiteralEnds`),
whatever of it is in the window already and however the source cuts the rest. All bytes that are
there are compared before the end or the failure behind them counts (`literalEnds_literalFrom`), so
the first byte that differs is reported even if there is a failure right behind it.
-/

namespace StreamPeg

/-- How a literal ends that starts at this position, and where it leaves its cursor. -/
inductive LiteralEnds (f : Feed) (name : String) (pos : Nat) :
    List UInt8 → Except ParseFailure Unit → Nat → Prop where
  | matched {bytes : List UInt8} : (f.bytes.drop pos).take bytes.length = bytes →
      LiteralEnds f name pos bytes (.ok ()) (pos + bytes.length)
  | unexpected {cs es fs : List UInt8} {expected found : UInt8} :
      (f.bytes.drop pos).take (cs ++ expected :: es).length = cs ++ found :: fs →
      expected ≠ found →
      LiteralEnds f name pos (cs ++ expected :: es)
        (.error (.mismatch ⟨pos + cs.length, [name], .unexpected expected found⟩))
        (pos + (cs ++ found :: fs).length)
  | endOfData {cs es : List UInt8} : es ≠ [] →
      (f.bytes.drop pos).take (cs ++ es).length = cs → f.failure = none →
      LiteralEnds f name pos (cs ++ es)
        (.error (.mismatch ⟨pos + cs.length, [name], .endOfData⟩)) (pos + cs.length)
  | source {cs es : List UInt8} {e : SourceFailure} : es ≠ [] →
      (f.bytes.drop pos).take (cs ++ es).length = cs → f.failure = some e →
      LiteralEnds f name pos (cs ++ es) (.error (.source (.source e))) (pos + cs.length)

variable {f : Feed} {name : String} {pos : Nat}

/-- Bytes that are there may be passed over. -/
theorem LiteralEnds.append {cs bytes : List UInt8} {result : Except ParseFailure Unit} {pos' : Nat}
    (hcs : (f.bytes.drop pos).take cs.length = cs)
    (h : LiteralEnds f name (pos + cs.length) bytes result pos') :
    LiteralEnds f name pos (cs ++ bytes) result pos' := by
  have htake (n : Nat) : (f.bytes.drop pos).take (cs.length + n) =
      cs ++ (f.bytes.drop (pos + cs.length)).take n := by
    rw [take_add, hcs, Stream'.Seq.dropn_add]
  cases h with
  | @matched bytes h =>
    rw [Nat.add_assoc, ← List.length_append]
    exact .matched (by rw [List.length_append, htake, h])
  | @unexpected ds es fs expected found h hne =>
    rw [Nat.add_assoc, Nat.add_assoc, ← List.length_append, ← List.length_append,
      ← List.append_assoc, ← List.append_assoc]
    refine .unexpected ?_ hne
    rw [List.append_assoc, List.length_append, htake, h, List.append_assoc]
  | @endOfData ds es hes h hf =>
    rw [Nat.add_assoc, ← List.length_append, ← List.append_assoc]
    refine .endOfData hes ?_ hf
    rw [List.append_assoc, List.length_append, htake, h]
  | @source ds es e hes h hf =>
    rw [Nat.add_assoc, ← List.length_append, ← List.append_assoc]
    refine .source hes ?_ hf
    rw [List.append_assoc, List.length_append, htake, h]

variable {σ : Type} [ByteSource σ]

/-- A valid manager with this on offer, and a cursor at this position. -/
structure Meets (f : Feed) (m : Manager σ) (id : CursorId) (pos : Nat) : Prop where
  valid : m.Valid
  offset_eq : m.cursors.offset? id = some pos
  offers : m.Offers f

namespace Meets

variable {m m' : Manager σ} {id : CursorId} {count : Nat}

theorem of_read_ok (h : Meets f m id pos) {chunk : Chunk}
    (hr : m.read id count = (.ok chunk, m')) :
    chunk.start = pos ∧ (f.bytes.drop pos).take count = chunk.bytes ∧
      Meets f m' id (pos + chunk.bytes.length) ∧
      (chunk.bytes.length < count →
        if chunk.atEnd then f.failure = none else chunk.bytes ≠ [] ∧ f.failure ≠ none) := by
  obtain ⟨hanswer, hoffers⟩ := h.offers.read h.valid h.offset_eq count
  rw [hr] at hanswer hoffers
  have hshifted := (Manager.given_of_read h.valid h.offset_eq hr).shifted
  have hmeets : Meets f m' id (pos + chunk.bytes.length) :=
    ⟨hshifted.valid, hshifted.offset_self, hoffers chunk rfl⟩
  simp only [Feed.read] at hanswer
  split at hanswer
  · next hfull =>
    cases hanswer
    exact ⟨rfl, rfl, hmeets, fun hlt => absurd hfull (Nat.ne_of_lt hlt)⟩
  · split at hanswer
    · next hf =>
      cases hanswer
      exact ⟨rfl, rfl, hmeets, fun _ => hf⟩
    · cases hanswer
    · next failure hf hne =>
      cases hanswer
      exact ⟨rfl, rfl, hmeets, fun _ => ⟨hne, by simp [hf]⟩⟩

theorem of_read_error (h : Meets f m id pos) {e : StreamError}
    (hr : m.read id count = (.error e, m')) :
    ∃ failure, e = .source failure ∧ f.failure = some failure ∧
      (f.bytes.drop pos).take count = [] ∧ m'.cursors.offset? id = some pos := by
  obtain ⟨hanswer, _⟩ := h.offers.read h.valid h.offset_eq count
  rw [hr] at hanswer
  have hshifted := (Manager.shifted_of_failed_read h.valid h.offset_eq hr).1
  simp only [Feed.read] at hanswer
  split at hanswer
  · cases hanswer
  · split at hanswer
    · cases hanswer
    · next failure hf hnil =>
      cases hanswer
      exact ⟨failure, rfl, hf, hnil, hshifted.offset_self⟩
    · cases hanswer

end Meets

/-- The first read gets all that is there. If that is not all that is wanted and a failure is behind
it, another read raises the failure. -/
theorem literalEnds_literalFrom (name : String) {tries : Nat} {wanted : List UInt8}
    (hw : wanted.length ≤ tries) {m : Manager σ} {id : CursorId} (h : Meets f m id pos) :
    ∃ pos', (Parser.literalFrom name tries wanted id m).2.cursors.offset? id = some pos' ∧
      LiteralEnds f name pos wanted (Parser.literalFrom name tries wanted id m).1 pos' := by
  fun_induction Parser.literalFrom name tries wanted id m generalizing pos with
  | case1 tries id m => exact ⟨pos, h.offset_eq, .matched Stream'.Seq.take_zero⟩
  | case2 => cases hw
  | case3 tries wanted id m hne e m' hr =>
    obtain ⟨failure, rfl, hf, hnil, ho⟩ := h.of_read_error hr
    have hends : LiteralEnds f name pos ([] ++ wanted) _ (pos + 0) := .source hne hnil hf
    exact ⟨pos, ho, hends⟩
  | case4 tries wanted id m hne chunk m' hr i expected found hd =>
    obtain ⟨hstart, hfound, hmeets, _⟩ := h.of_read_ok hr
    obtain ⟨cs, es, fs, rfl, hc, rfl, hdiffer⟩ := exists_of_firstDifference_eq_some hd
    refine ⟨_, hmeets.offset_eq, ?_⟩
    rw [hc] at hfound ⊢
    rw [hstart]
    exact .unexpected hfound hdiffer
  | case5 tries wanted id m hne chunk m' hr hd hdone =>
    obtain ⟨_, hfound, hmeets, _⟩ := h.of_read_ok hr
    have hle : chunk.bytes.length ≤ wanted.length := hfound ▸ Stream'.Seq.length_take_le
    rw [List.drop_eq_nil_iff] at hdone
    have hc : chunk.bytes = wanted :=
      (prefix_of_firstDifference_eq_none hd hle).eq_of_length_le hdone
    rw [hc] at hfound
    exact ⟨_, hc ▸ hmeets.offset_eq, .matched hfound⟩
  | case6 tries wanted id m hne chunk m' hr hd hend hleft =>
    obtain ⟨hstart, hfound, hmeets, hshort⟩ := h.of_read_ok hr
    have hle : chunk.bytes.length ≤ wanted.length := hfound ▸ Stream'.Seq.length_take_le
    obtain ⟨left, rfl⟩ := prefix_of_firstDifference_eq_none hd hle
    rw [List.drop_left] at hleft
    have hlt : chunk.bytes.length < (chunk.bytes ++ left).length := by
      rw [List.length_append]
      exact Nat.lt_add_of_pos_right (List.length_pos_iff.mpr hleft)
    have hf : f.failure = none := by
      have hlast := hshort hlt
      split at hlast
      · exact hlast
      · next hat => exact absurd hend (by simp [hat, hlast.1])
    rw [hstart]
    exact ⟨_, hmeets.offset_eq, .endOfData hleft hfound hf⟩
  | case7 tries wanted id m hne chunk m' hr hd hend hleft ih =>
    obtain ⟨_, hfound, hmeets, _⟩ := h.of_read_ok hr
    have hle : chunk.bytes.length ≤ wanted.length := hfound ▸ Stream'.Seq.length_take_le
    obtain ⟨left, rfl⟩ := prefix_of_firstDifference_eq_none hd hle
    rw [not_or] at hend
    have hpos := List.length_pos_iff.mpr hend.2
    rw [List.length_append] at hw
    rw [List.drop_left] at ih ⊢
    obtain ⟨pos', ho, hends⟩ := ih (by omega) hmeets
    have hpassed := take_length_take (f.bytes.drop pos) (chunk.bytes ++ left).length
    rw [hfound] at hpassed
    exact ⟨pos', ho, hends.append hpassed⟩

/-! ### Literals of a grammar -/

namespace LiteralEnds

variable {bytes : List UInt8} {result : Except ParseFailure Unit} {pos' : Nat}

theorem offset_eq (h : LiteralEnds f name pos bytes result pos') :
    pos' = pos + ((f.bytes.drop pos).take bytes.length).length := by
  cases h with
  | matched h => rw [h]
  | unexpected h | endOfData _ h | source _ h => rw [h]

theorem matched_of_take_eq (h : LiteralEnds f name pos bytes result pos')
    (hbytes : (f.bytes.drop pos).take bytes.length = bytes) : result = .ok () := by
  cases h with
  | matched => rfl
  | unexpected h hne =>
    have hcons := List.append_cancel_left (h.symm.trans hbytes)
    exact absurd (List.cons.inj hcons).1.symm hne
  | endOfData hne h | source hne h =>
    exact absurd (List.self_eq_append_right.mp (h.symm.trans hbytes)) hne

/-- Behind the part of the literal that is there, there is nothing. -/
theorem get?_of_take_eq {cs es : List UInt8} (hne : es ≠ [])
    (h : (f.bytes.drop pos).take (cs ++ es).length = cs) :
    (f.bytes.drop pos).get? cs.length = none := by
  have hlt : cs.length < (cs ++ es).length := by
    rw [List.length_append]
    exact Nat.lt_add_of_pos_right (List.length_pos_iff.mpr hne)
  have hget := Stream'.Seq.getElem?_take cs.length (cs ++ es).length (f.bytes.drop pos)
  rwa [h, if_pos hlt, List.getElem?_eq_none (Nat.le_refl _), eq_comm] at hget

/-- A literal that is not there fails behind the bytes that it has in common with what is there. -/
theorem failed_of_take_ne (h : LiteralEnds f name pos bytes result pos')
    (hbytes : (f.bytes.drop pos).take bytes.length ≠ bytes) :
    let i := commonLength bytes ((f.bytes.drop pos).take bytes.length)
    ∃ expected, bytes[i]? = some expected ∧
      result = .error (match (f.bytes.drop pos).get? i, f.failure with
        | some found, _ => .mismatch ⟨pos + i, [name], .unexpected expected found⟩
        | none, none => .mismatch ⟨pos + i, [name], .endOfData⟩
        | none, some e => .source (.source e)) ∧
      ∀ e, result = .error (.mismatch e) → e.detail.message =
        match (f.bytes.drop pos).get? i with
        | some found =>
          "expected '" ++ Text.ofByte expected ++ "' found '" ++ Text.ofByte found ++ "'"
        | none => "EOF" := by
  intro i
  cases h with
  | matched h => exact absurd h hbytes
  | @unexpected cs es fs expected found h hne =>
    have hi : i = cs.length := by
      show commonLength _ _ = _
      rw [h, commonLength_append, commonLength, if_neg hne, Nat.add_zero]
    have hget := Stream'.Seq.getElem?_take cs.length (cs ++ expected :: es).length
      (f.bytes.drop pos)
    rw [h, if_pos (by simp)] at hget
    refine ⟨expected, by simp [hi], by simp [hi, ← hget], ?_⟩
    rintro e ⟨⟩
    simp [hi, ← hget, Detail.message]
  | @endOfData cs es hne h hf =>
    have hi : i = cs.length := by
      show commonLength _ _ = _
      rw [h, commonLength_append_left]
    obtain ⟨expected, es, rfl⟩ := List.exists_cons_of_ne_nil hne
    have hget := get?_of_take_eq hne h
    refine ⟨expected, by simp [hi], by simp only [hi, hget, hf], ?_⟩
    rintro e ⟨⟩
    simp only [hi, hget, Detail.message]
  | @source cs es e hne h hf =>
    have hi : i = cs.length := by
      show commonLength _ _ = _
      rw [h, commonLength_append_left]
    obtain ⟨expected, es, rfl⟩ := List.exists_cons_of_ne_nil hne
    refine ⟨expected, by simp [hi], by simp only [hi, get?_of_take_eq hne h, hf], fun e he => ?_⟩
    cases he

end LiteralEnds

namespace RuleGraph

/-- A literal, at any place that a run has brought a cursor to, against what is on offer from there.

The cursor passes as many bytes as the literal has, or all that there are. If they are those of the
literal, it matches. If not, it fails behind the bytes that both have in common: where a byte is
that differs, this is the mismatch, whatever follows, and its message shows what was expected and
what was found; where the data ends, the end is; and where the source fails, its failure is passed
on. The depth that a parse chooses is never zero. -/
theorem literal_exact (options : StreamOptions) (source : σ) (actions : List Action) {id : CursorId}
    {pos : Nat} {f : Feed}
    (ho : ((Manager.ofSource options source).perform actions).cursors.offset? id = some pos)
    (hf : ((Manager.ofSource options source).perform actions).Offers f)
    {g : RuleGraph} {r : RuleId} {bytes : List UInt8} (hk : g.kind r = .literal bytes)
    (depth : Nat) :
    let m := (Manager.ofSource options source).perform actions
    let ahead := f.bytes.drop pos
    let i := commonLength bytes (ahead.take bytes.length)
    let out := g.parser (depth + 1) r id m
    out.2.cursors.offset? id = some (pos + (ahead.take bytes.length).length) ∧
    (ahead.take bytes.length = bytes → out.1 = .ok ()) ∧
    (ahead.take bytes.length ≠ bytes → ∃ expected, bytes[i]? = some expected ∧
      out.1 = .error (match ahead.get? i, f.failure with
        | some found, _ => .mismatch ⟨pos + i, [g.name r], .unexpected expected found⟩
        | none, none => .mismatch ⟨pos + i, [g.name r], .endOfData⟩
        | none, some e => .source (.source e)) ∧
      ∀ e, out.1 = .error (.mismatch e) → e.detail.message = match ahead.get? i with
        | some found =>
          "expected '" ++ Text.ofByte expected ++ "' found '" ++ Text.ofByte found ++ "'"
        | none => "EOF") := by
  intro m ahead i out
  have hmeets : Meets f m id pos :=
    ⟨Manager.valid_perform (Manager.valid_ofSource options source) actions, ho, hf⟩
  have hout : out = Parser.literalFrom (g.name r) bytes.length bytes id m := by
    simp only [out, parser, hk, Parser.literal]
  obtain ⟨pos', hoffset, hends⟩ :=
    literalEnds_literalFrom (g.name r) (Nat.le_refl bytes.length) hmeets
  rw [← hout] at hoffset hends
  rw [hends.offset_eq] at hoffset
  exact ⟨hoffset, hends.matched_of_take_eq, hends.failed_of_take_ne⟩

/-- Two literals that both start as the data does. -/
def abcs : RuleGraph :=
  ⟨#[⟨"abc", .literal [97, 98, 99]⟩, ⟨"acc", .literal [97, 99, 99]⟩]⟩

/-- There is a byte in the window and one in the source, and then the source fails. -/
theorem literal_exact_abcs :
    let source := Script.ofPieces [.chunk [97, 98], .failure ⟨.other, "lost"⟩]
    let m := (Manager.ofSource {} source).perform [.step (.branch 0), .step (.read 0 1)]
    let f : Front := ⟨[97, 98], some ⟨.other, "lost"⟩⟩
    m.cursors.offset? 1 = some 0 ∧ m.Offers f.feed ∧
    (abcs.parser 1 0 1 m).1 = .error (.source (.source ⟨.other, "lost"⟩)) ∧
    (abcs.parser 1 0 1 m).2.cursors.offset? 1 = some 2 ∧
    (abcs.parser 1 1 1 m).1 = .error (.mismatch ⟨1, ["acc"], .unexpected 99 98⟩) ∧
    (Detail.unexpected 99 98).message = "expected 'c' found 'b'" ∧
    (abcs.parser 1 1 1 m).2.cursors.offset? 1 = some 2 := by
  intro source m f
  have ho : m.cursors.offset? 1 = some 0 := by decide +kernel
  have hfront : m.front = f := by decide +kernel
  have hf : m.Offers f.feed := hfront ▸ m.offers_front
  have htake : (f.feed.bytes.drop 0).take 3 = [97, 98] := by decide
  have hcommon : commonLength [97, 98, 99] [97, 98] = 2 := by decide
  have hcommon' : commonLength [97, 99, 99] [97, 98] = 1 := by decide
  have hlast : (f.feed.bytes.drop 0).get? 2 = none := by decide
  have hsecond : (f.feed.bytes.drop 0).get? 1 = some 98 := by decide
  obtain ⟨habc, -, hlost⟩ := literal_exact {} source [.step (.branch 0), .step (.read 0 1)] ho hf
    (show abcs.kind 0 = .literal [97, 98, 99] by decide) 0
  obtain ⟨hacc, -, hdiffers⟩ := literal_exact {} source [.step (.branch 0), .step (.read 0 1)] ho hf
    (show abcs.kind 1 = .literal [97, 99, 99] by decide) 0
  simp only [List.length_cons, List.length_nil, Nat.reduceAdd, htake] at habc hacc hlost hdiffers
  obtain ⟨_, _, hlost, -⟩ := hlost (by decide)
  obtain ⟨c, hc, hdiffers, hmessage⟩ := hdiffers (by decide)
  rw [hcommon, hlast] at hlost
  rw [hcommon'] at hc
  rw [hcommon', hsecond] at hdiffers hmessage
  obtain rfl : 99 = c := Option.some.inj hc
  have htext : (Detail.unexpected 99 98).message = "expected 'c' found 'b'" :=
    (hmessage _ hdiffers).trans (by decide)
  refine ⟨ho, hf, ?_⟩
  -- Behind a name of its own the manager would be evaluated to see that it is the same.
  simp only [m]
  exact ⟨hlost, habc, hdiffers, htext, hacc⟩

end RuleGraph

end StreamPeg
