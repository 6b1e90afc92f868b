import Mathlib.Data.Seq.Basic
import StreamPeg.Cursor.Front

/-!
# Feeds

A source that never ends has no front that a list could hold. A feed is what a source brings before
it first ends or fails, be it without an end, and which of the two it does if it comes to that.
`Brings s f` says that this is what comes from a source, however it is asked: the answers to any
requests, cut as they may be, are the feed up to the first end or failure. What the source does
behind that is left open. A manager `Offers` the feed that its cursors can find, from the start of
the data on.
-/

namespace StreamPeg

/-- The failure of a feed without an end never comes. -/
structure Feed where
  bytes : Stream'.Seq UInt8
  failure : Option SourceFailure

namespace Feed

def ended : Feed := ⟨.nil, none⟩

def failed (e : SourceFailure) : Feed := ⟨.nil, some e⟩

def drop (f : Feed) (n : Nat) : Feed := ⟨f.bytes.drop n, f.failure⟩

/-- Answers to requests for something, one after the other. -/
def Fits : Feed → List Answer → Prop
  | _, [] => True
  | f, .bytes [] :: _ => f = .ended
  | f, .bytes bs :: answers => f.bytes.take bs.length = bs ∧ (f.drop bs.length).Fits answers
  | f, .failed e :: _ => f = .failed e

/-- What a read of so many bytes from an offset finds. A failure only comes up if there is nothing
before it. -/
def read (f : Feed) (offset count : Nat) : Except StreamError Chunk :=
  let found := (f.bytes.drop offset).take count
  if found.length = count then .ok ⟨offset, found, false⟩
  else
    match f.failure, found with
    | none, found => .ok ⟨offset, found, true⟩
    | some e, [] => .error (.source e)
    | some _, found => .ok ⟨offset, found, false⟩

end Feed

def Front.feed (f : Front) : Feed := ⟨.ofList f.bytes, f.failure⟩

variable {σ : Type} [ByteSource σ]

def Brings (s : σ) (f : Feed) : Prop :=
  ∀ calls s', Answers s calls s' → (∀ c ∈ calls, 0 < c.requested) → f.Fits (calls.map (·.answer))

def Manager.Offers (m : Manager σ) (f : Feed) : Prop :=
  let come := received m.journal
  f.bytes.take come.length = come ∧
    match m.held with
    | some e => f.drop come.length = .failed e
    | none =>
      if m.exhausted then f.drop come.length = .ended
      else Brings m.source (f.drop come.length)

end StreamPeg
