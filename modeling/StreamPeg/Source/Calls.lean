import StreamPeg.Source.Basic

/-!
# The calls of a source

`Answers s calls s'` says that a source in state `s` answers these calls one after the other, and is
then in state `s'`. `given` is what the calls have brought, and `delivered` what they brought before
the first end of the data: a failure in between brings nothing and stops nothing. `failuresIn` are
the failures that the calls have met.
-/

namespace StreamPeg

inductive Answers {σ : Type} [ByteSource σ] : σ → List Call → σ → Prop where
  | nil (s : σ) : Answers s [] s
  | cons {s s' s'' : σ} {n : Nat} {answer : Answer} {calls : List Call} :
      ByteSource.fill s n = (answer, s') → Answers s' calls s'' →
      Answers s (⟨n, answer⟩ :: calls) s''

theorem Answers.append {σ : Type} [ByteSource σ] {s s' s'' : σ} {calls calls' : List Call}
    (h : Answers s calls s') (h' : Answers s' calls' s'') : Answers s (calls ++ calls') s'' := by
  induction h with
  | nil => exact h'
  | cons hf _ ih => exact .cons hf (ih h')

/-- The source was asked for bytes and had none left. -/
def Call.ends (call : Call) : Bool := call.answer = .bytes []

/-- The bytes that the calls have brought, in their order. -/
def given (calls : List Call) : List UInt8 := calls.flatMap (·.answer.given)

@[simp] theorem given_nil : given [] = [] := rfl

@[simp] theorem given_cons (call : Call) (calls : List Call) :
    given (call :: calls) = call.answer.given ++ given calls := List.flatMap_cons

@[simp] theorem given_append (calls calls' : List Call) :
    given (calls ++ calls') = given calls ++ given calls' := List.flatMap_append

/-- The bytes up to the first end of the data. -/
def delivered (calls : List Call) : List UInt8 := given (calls.takeWhile (!·.ends))

/-- Before an end the calls have delivered all that they gave, and what follows adds to it. -/
theorem delivered_append {calls : List Call} (h : ∀ call ∈ calls, call.ends = false)
    (calls' : List Call) : delivered (calls ++ calls') = given calls ++ delivered calls' := by
  rw [delivered, List.takeWhile_append_of_pos (by simpa using h), given_append, delivered]

/-- Behind an end nothing adds to what is delivered. -/
theorem delivered_append_of_ends {calls : List Call} (h : ∃ call ∈ calls, call.ends = true)
    (calls' : List Call) : delivered (calls ++ calls') = delivered calls := by
  induction calls with
  | nil => simp at h
  | cons call calls ih =>
    cases he : call.ends with
    | true => simp [delivered, he]
    | false =>
      have h' : ∃ call ∈ calls, call.ends = true := by simpa [he] using h
      simpa [delivered, he] using ih h'

def Answer.failure? : Answer → Option SourceFailure
  | .bytes _ => none
  | .failed e => some e

def failuresIn (calls : List Call) : List SourceFailure := calls.filterMap (·.answer.failure?)

@[simp] theorem failuresIn_nil : failuresIn [] = [] := rfl

theorem failuresIn_cons (call : Call) (calls : List Call) :
    failuresIn (call :: calls) = call.answer.failure?.toList ++ failuresIn calls := by
  cases h : call.answer.failure? <;> simp [failuresIn, h]

@[simp] theorem failuresIn_append (calls calls' : List Call) :
    failuresIn (calls ++ calls') = failuresIn calls ++ failuresIn calls' := List.filterMap_append

theorem exists_failed_of_mem {calls : List Call} {e : SourceFailure} (h : e ∈ failuresIn calls) :
    ∃ c ∈ calls, c.answer = .failed e := by
  obtain ⟨c, hc, he⟩ := List.mem_filterMap.mp h
  refine ⟨c, hc, ?_⟩
  cases ha : c.answer with
  | bytes bs => simp [ha, Answer.failure?] at he
  | failed e' => simpa [ha, Answer.failure?] using he

end StreamPeg
