import StreamPeg.Parse.Combinators
import StreamPeg.Parse.Positional

/-!
# Literals in pieces

What a literal matches does not depend on how its bytes are cut into pieces: a part that agrees with
the data can be taken off the front (`literal_append`). The other lemmas say how a literal ends in
terms of the bytes that it finds.
-/

namespace StreamPeg

theorem exists_of_firstDifference_eq_some {es fs : List UInt8} {i : Nat} {e f : UInt8}
    (h : firstDifference es fs = some (i, e, f)) :
    ∃ cs es' fs', es = cs ++ e :: es' ∧ fs = cs ++ f :: fs' ∧ cs.length = i ∧ e ≠ f := by
  fun_induction firstDifference es fs generalizing i with
  | case1 es c fs ih =>
    obtain ⟨⟨j, e', f'⟩, hj, hij⟩ := Option.map_eq_some_iff.mp h
    cases hij
    obtain ⟨cs, es', fs', rfl, rfl, rfl, hne⟩ := ih hj
    exact ⟨c :: cs, es', fs', rfl, rfl, rfl, hne⟩
  | case2 e' es f' fs hne =>
    cases h
    exact ⟨[], es, fs, rfl, rfl, rfl, hne⟩
  | case3 => cases h

/-- Without a difference the shorter one is the start of the other. -/
theorem prefix_of_firstDifference_eq_none {es fs : List UInt8} (h : firstDifference es fs = none)
    (hl : fs.length ≤ es.length) : fs <+: es := by
  fun_induction firstDifference es fs with
  | case1 es c fs ih =>
    rw [Option.map_eq_none_iff] at h
    obtain ⟨left, rfl⟩ := ih h (Nat.le_of_succ_le_succ hl)
    exact ⟨left, rfl⟩
  | case2 => cases h
  | case3 es fs hnil =>
    cases fs with
    | nil => exact List.nil_prefix
    | cons f fs =>
      cases es with
      | nil => simp at hl
      | cons e es => exact absurd rfl (hnil e es f fs rfl)

theorem commonLength_append (cs es fs : List UInt8) :
    commonLength (cs ++ es) (cs ++ fs) = cs.length + commonLength es fs := by
  induction cs with
  | nil => simp
  | cons c cs ih =>
    rw [List.cons_append, List.cons_append, commonLength, if_pos rfl, ih, List.length_cons]
    omega

@[simp] theorem commonLength_nil_right (es : List UInt8) : commonLength es [] = 0 := by
  cases es <;> rfl

/-- A part of a literal has all of itself in common with the literal. -/
theorem commonLength_append_left (cs es : List UInt8) :
    commonLength (cs ++ es) cs = cs.length := by
  simpa using commonLength_append cs es []

namespace Matcher

variable {data : List UInt8} {name : String} {pos : Nat}

/-- The bytes that a literal finds in its place, as far as there are any, decide how it ends. -/
theorem literal_of_found {bytes : List UInt8}
    (h : (data.drop pos).take bytes.length = bytes) :
    literal data name bytes pos = (.ok (), pos + bytes.length) := by
  have hc : commonLength bytes bytes = bytes.length := by
    simpa using commonLength_append_left bytes []
  simp [literal, h, hc]

theorem literal_of_unexpected {cs es fs : List UInt8} {e f : UInt8} (hne : e ≠ f)
    (h : (data.drop pos).take (cs ++ e :: es).length = cs ++ f :: fs) :
    literal data name (cs ++ e :: es) pos =
      (.error (.mismatch ⟨pos + cs.length, [name], .unexpected e f⟩),
        pos + (cs ++ f :: fs).length) := by
  have hc : commonLength (cs ++ e :: es) (cs ++ f :: fs) = cs.length := by
    rw [commonLength_append, commonLength, if_neg hne, Nat.add_zero]
  simp only [literal, h, hc]
  simp

theorem literal_of_end {cs es : List UInt8} (hne : es ≠ [])
    (h : (data.drop pos).take (cs ++ es).length = cs) :
    literal data name (cs ++ es) pos =
      (.error (.mismatch ⟨pos + cs.length, [name], .endOfData⟩), pos + cs.length) := by
  obtain ⟨e, es, rfl⟩ := List.exists_cons_of_ne_nil hne
  simp only [literal, h, commonLength_append_left]
  simp

/-- A part of a literal that the data has may be passed over. -/
theorem literal_append {cs : List UInt8} (h : (data.drop pos).take cs.length = cs)
    (es : List UInt8) :
    literal data name (cs ++ es) pos = literal data name es (pos + cs.length) := by
  have hf : (data.drop pos).take (cs ++ es).length =
      cs ++ (data.drop (pos + cs.length)).take es.length := by
    rw [List.length_append, List.take_add, h, List.drop_drop]
  simp only [literal, hf, commonLength_append,
    List.getElem?_append_right (Nat.le_add_right cs.length _), Nat.add_sub_cancel_left]
  simp only [List.length_append, Nat.add_assoc]

end Matcher

end StreamPeg
