import StreamPeg.Cursor.Run

/-!
# What is still to come

Of what a finite source has yet to deliver, `bytesOf` are the bytes up to the first end, with the
failures in between passed over, and `failuresOf` are all failures. A manager's `stream` is then the
whole byte string that its cursors read from, whether it has come yet or not, and `failuresLeft` are
the failures that are still to be raised, the one held back first.
-/

namespace StreamPeg

def bytesOf : List Delivery → List UInt8
  | [] => []
  | .byte b :: ds => b :: bytesOf ds
  | .failure _ :: ds => bytesOf ds
  | .ended :: _ => []

def failuresOf : List Delivery → List SourceFailure
  | [] => []
  | .failure e :: ds => e :: failuresOf ds
  | _ :: ds => failuresOf ds

theorem bytesOf_append_bytes (bs : List UInt8) (ds : List Delivery) :
    bytesOf (bs.map .byte ++ ds) = bs ++ bytesOf ds := by
  induction bs with
  | nil => rfl
  | cons b bs ih => rw [List.map_cons, List.cons_append, bytesOf, ih, List.cons_append]

theorem failuresOf_append_bytes (bs : List UInt8) (ds : List Delivery) :
    failuresOf (bs.map .byte ++ ds) = failuresOf ds := by
  induction bs with
  | nil => rfl
  | cons b bs ih => rw [List.map_cons, List.cons_append, failuresOf, ih]; exact nofun

theorem length_bytesOf_le (ds : List Delivery) : (bytesOf ds).length ≤ ds.length := by
  induction ds with
  | nil => exact Nat.le_refl 0
  | cons d ds ih =>
    cases d with
    | byte b => simpa [bytesOf] using ih
    | failure e => simp only [bytesOf, List.length_cons]; omega
    | ended => simp [bytesOf]

/-! ### One answer and many -/

theorem Serves.bytesOf_eq {before after : List Delivery} {answer : Answer}
    (h : Serves before answer after) :
    bytesOf before = answer.given ++ if answer = .bytes [] then [] else bytesOf after := by
  cases h with
  | @bytes bs rest hb => simp [bytesOf_append_bytes, hb]
  | ended => rfl
  | drained => rfl
  | failed => simp [bytesOf]

theorem Serves.failuresOf_eq {before after : List Delivery} {answer : Answer}
    (h : Serves before answer after) :
    failuresOf before = answer.failure?.toList ++ failuresOf after := by
  cases h with
  | bytes => simp [failuresOf_append_bytes, Answer.failure?]
  | ended => rfl
  | drained => rfl
  | failed => rfl

section

variable {σ : Type} [FiniteSource σ]

theorem Answers.bytesOf_eq {s s' : σ} {cs : List Call} (h : Answers s cs s')
    (hc : ∀ c ∈ cs, 0 < c.requested) :
    bytesOf (FiniteSource.upcoming s) =
      delivered cs ++ if cs.any (·.ends) then [] else bytesOf (FiniteSource.upcoming s') := by
  induction h with
  | nil => rfl
  | @cons s s' s'' n answer cs hf _ ih =>
    have hs := FiniteSource.serves_fill s n (hc ⟨n, answer⟩ List.mem_cons_self)
    rw [hf] at hs
    rw [hs.bytesOf_eq]
    by_cases he : answer = .bytes []
    · subst he
      rfl
    · have hends : Call.ends ⟨n, answer⟩ = false := by simp [Call.ends, he]
      have hd : delivered (⟨n, answer⟩ :: cs) = answer.given ++ delivered cs := by
        rw [delivered, List.takeWhile_cons_of_pos (by simp [hends]), given_cons, delivered]
      rw [if_neg he, ih fun c h => hc c (List.mem_cons_of_mem _ h), hd, List.any_cons, hends,
        Bool.false_or, List.append_assoc]

theorem Answers.failuresOf_eq {s s' : σ} {cs : List Call} (h : Answers s cs s')
    (hc : ∀ c ∈ cs, 0 < c.requested) :
    failuresOf (FiniteSource.upcoming s) =
      failuresIn cs ++ failuresOf (FiniteSource.upcoming s') := by
  induction h with
  | nil => rfl
  | @cons s s' s'' n answer cs hf _ ih =>
    have hs := FiniteSource.serves_fill s n (hc ⟨n, answer⟩ List.mem_cons_self)
    rw [hf] at hs
    rw [hs.failuresOf_eq, ih fun c h => hc c (List.mem_cons_of_mem _ h), failuresIn_cons,
      List.append_assoc]

namespace Manager

/-- The bytes that the cursors read from, those that have come and those that have not. -/
def stream (m : Manager σ) : List UInt8 :=
  received m.journal ++ if m.exhausted then [] else bytesOf (FiniteSource.upcoming m.source)

/-- The failures that are still to be raised. -/
def failuresLeft (m : Manager σ) : List SourceFailure :=
  m.held.toList ++ failuresOf (FiniteSource.upcoming m.source)

end Manager

end

end StreamPeg
