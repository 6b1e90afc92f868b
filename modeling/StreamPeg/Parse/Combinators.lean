import StreamPeg.Parse.Failure

/-!
# Parsers on a cursor

A parser moves a cursor over what it matches. On failure the cursor stays where the parser left it,
so whatever may have to be taken back is run by `attempt` on a branch of the cursor: the branch is
committed if it succeeds and released if it fails, and the cursor itself only moves in the first
case. Required parts run in place.
-/

namespace StreamPeg

abbrev Parser (σ : Type) := CursorId → Manager σ → Except ParseFailure Unit × Manager σ

/-- The first place where two byte strings differ, and the bytes there. -/
def firstDifference : List UInt8 → List UInt8 → Option (Nat × UInt8 × UInt8)
  | e :: es, f :: fs =>
    if e = f then (firstDifference es fs).map fun (i, x, y) => (i + 1, x, y)
    else some (0, e, f)
  | _, _ => none

namespace Parser

variable {σ : Type}

/-! ### Literals -/

/-- Compares the bytes still wanted with what is read, chunk by chunk. A chunk that falls short
brings a byte at least or ends the literal, so `tries` bounds the number of chunks. -/
def literalFrom [ByteSource σ] (name : String) : (tries : Nat) → (wanted : List UInt8) → Parser σ
  | _, [], _, m => (.ok (), m)
  | 0, _ :: _, _, m => (.error .tooDeep, m)
  | tries + 1, wanted, id, m =>
    match m.read id wanted.length with
    | (.error e, m) => (.error (.source e), m)
    | (.ok chunk, m) =>
      match firstDifference wanted chunk.bytes with
      | some (i, expected, found) =>
        (.error (.mismatch ⟨chunk.start + i, [name], .unexpected expected found⟩), m)
      | none =>
        match wanted.drop chunk.bytes.length with
        | [] => (.ok (), m)
        | left =>
          if chunk.atEnd ∨ chunk.bytes = [] then
            (.error (.mismatch ⟨chunk.start + chunk.bytes.length, [name], .endOfData⟩), m)
          else literalFrom name tries left id m

/-- Exactly these bytes. All that are missing are asked for in one read. -/
def literal [ByteSource σ] (name : String) (bytes : List UInt8) : Parser σ :=
  literalFrom name bytes.length bytes

/-! ### Sequences -/

/-- One after another, in place. -/
def sequence (name : String) : List (Parser σ) → Parser σ
  | [], _, m => (.ok (), m)
  | p :: ps, id, m =>
    match p id m with
    | (.ok (), m) => sequence name ps id m
    | (.error e, m) => (.error (e.within name), m)

/-! ### Choices -/

/-- Runs a parser on a branch. -/
def attempt (p : Parser σ) : Parser σ := fun id m =>
  match m.branch id with
  | (.error e, m) => (.error (.source e), m)
  | (.ok branch, m) =>
    match p branch m with
    | (.ok (), m) =>
      match m.adopt id branch with
      | (.ok (), m) => (.ok (), m)
      | (.error e, m) => (.error (.source e), m)
    | (.error e, m) => (.error e, m.release branch)

/-- The alternatives that are left, with the deepest mismatch of those before. -/
def choiceFrom (name : String) : Option Mismatch → List (Parser σ) → Parser σ
  | some deepest, [], _, m => (.error (.mismatch (deepest.within name)), m)
  | none, [], id, m =>
    match m.offset id with
    | .ok offset => (.error (.mismatch ⟨offset, [name], .noAlternatives⟩), m)
    | .error e => (.error (.source e), m)
  | deepest, p :: ps, id, m =>
    match attempt p id m with
    | (.error (.mismatch e), m) => choiceFrom name (some (.deeper deepest e)) ps id m
    | result => result

/-- The first that matches. If none does, the mismatch that got furthest is reported. -/
def choice (name : String) (ps : List (Parser σ)) : Parser σ :=
  choiceFrom name none ps

/-! ### Repetitions -/

/-- So many times, in place. -/
def times (name : String) (p : Parser σ) : Nat → Parser σ
  | 0, _, m => (.ok (), m)
  | n + 1, id, m =>
    match p id m with
    | (.ok (), m) => times name p n id m
    | (.error e, m) => (.error (e.within name), m)

/-- A parser so many times in a row is a sequence of itself. -/
theorem times_eq_sequence (name : String) (p : Parser σ) (n : Nat) :
    times name p n = sequence name ((List.replicate n ()).map fun _ => p) := by
  induction n with
  | zero => rfl
  | succ n ih =>
    funext id m
    simp only [times, List.replicate_succ, List.map_cons, sequence, ih]

/-- As often as it matches, but at most so many times. -/
def upTo (p : Parser σ) : Nat → Parser σ
  | 0, _, m => (.ok (), m)
  | n + 1, id, m =>
    match attempt p id m with
    | (.ok (), m) => upTo p n id m
    | (.error (.mismatch _), m) => (.ok (), m)
    | result => result

/-- As often as it matches. A match that consumes nothing is the last one, and noted as `stalled`;
every other brings the cursor forward, so the data left bounds the `rounds`. -/
def whileMatching (stalled : Event) (p : Parser σ) : (rounds : Nat) → Parser σ
  | 0, _, m => (.error .tooDeep, m)
  | rounds + 1, id, m =>
    match m.offset id with
    | .error e => (.error (.source e), m)
    | .ok before =>
      match attempt p id m with
      | (.error (.mismatch _), m) => (.ok (), m)
      | (.error e, m) => (.error e, m)
      | (.ok (), m) =>
        match m.offset id with
        | .error e => (.error (.source e), m)
        | .ok after =>
          if before < after then whileMatching stalled p rounds id m
          else (.ok (), m.note stalled)

/-- One parser, then another if it succeeds. -/
def andThen (p q : Parser σ) : Parser σ := fun id m =>
  match p id m with
  | (.ok (), m) => q id m
  | result => result

end Parser

end StreamPeg
