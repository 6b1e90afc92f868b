import StreamPeg.Parse.Failure
import StreamPeg.Rule.Graph

/-!
# Matching by position

What rules mean on a byte string alone: `matcher data depth r` goes from a position to a result and
the position where matching stopped. There are no cursors and no source, and to take an attempt
back is to go on from the old position. A parse on a stream has to agree with it.
-/

namespace StreamPeg

abbrev Matcher := Nat → Except ParseFailure Unit × Nat

/-- How many bytes two byte strings have in common at their start. -/
def commonLength : List UInt8 → List UInt8 → Nat
  | e :: es, f :: fs => if e = f then commonLength es fs + 1 else 0
  | _, _ => 0

namespace Matcher

/-- Looks at as many bytes as it has, and has then passed those that are there. -/
def literal (data : List UInt8) (name : String) (bytes : List UInt8) : Matcher := fun pos =>
  let found := (data.drop pos).take bytes.length
  let i := commonLength bytes found
  match bytes[i]?, found[i]? with
  | none, _ => (.ok (), pos + found.length)
  | some _, none => (.error (.mismatch ⟨pos + i, [name], .endOfData⟩), pos + found.length)
  | some e, some f => (.error (.mismatch ⟨pos + i, [name], .unexpected e f⟩), pos + found.length)

def sequence (name : String) : List Matcher → Matcher
  | [], pos => (.ok (), pos)
  | p :: ps, pos =>
    match p pos with
    | (.ok (), pos) => sequence name ps pos
    | (.error e, pos) => (.error (e.within name), pos)

/-- Every alternative starts at the same position, and a failure ends there. -/
def choiceFrom (name : String) : Option Mismatch → List Matcher → Matcher
  | some deepest, [], pos => (.error (.mismatch (deepest.within name)), pos)
  | none, [], pos => (.error (.mismatch ⟨pos, [name], .noAlternatives⟩), pos)
  | deepest, p :: ps, pos =>
    match p pos with
    | (.ok (), after) => (.ok (), after)
    | (.error (.mismatch e), _) => choiceFrom name (some (.deeper deepest e)) ps pos
    | (.error e, _) => (.error e, pos)

def times (name : String) (p : Matcher) : Nat → Matcher
  | 0, pos => (.ok (), pos)
  | n + 1, pos =>
    match p pos with
    | (.ok (), pos) => times name p n pos
    | (.error e, pos) => (.error (e.within name), pos)

theorem times_eq_sequence (name : String) (p : Matcher) (n : Nat) :
    times name p n = sequence name ((List.replicate n ()).map fun _ => p) := by
  induction n with
  | zero => rfl
  | succ n ih =>
    funext pos
    simp only [times, List.replicate_succ, List.map_cons, sequence, ih]

def upTo (p : Matcher) : Nat → Matcher
  | 0, pos => (.ok (), pos)
  | n + 1, pos =>
    match p pos with
    | (.ok (), after) => upTo p n after
    | (.error (.mismatch _), _) => (.ok (), pos)
    | (.error e, _) => (.error e, pos)

/-- Goes on for as long as matches move the position. -/
def whileMatching (p : Matcher) : (rounds : Nat) → Matcher
  | 0, pos => (.error .tooDeep, pos)
  | rounds + 1, pos =>
    match p pos with
    | (.ok (), after) => if pos < after then whileMatching p rounds after else (.ok (), after)
    | (.error (.mismatch _), _) => (.ok (), pos)
    | (.error e, _) => (.error e, pos)

def andThen (p q : Matcher) : Matcher := fun pos =>
  match p pos with
  | (.ok (), pos) => q pos
  | result => result

end Matcher

namespace RuleGraph

def matcher (g : RuleGraph) (data : List UInt8) : (depth : Nat) → RuleId → Matcher
  | 0, _ => fun pos => (.error .tooDeep, pos)
  | depth + 1, r =>
    match g.kind r with
    | .literal bytes => .literal data (g.name r) bytes
    | .sequence parts => .sequence (g.name r) (parts.map (g.matcher data depth))
    | .choice alternatives =>
      .choiceFrom (g.name r) none (alternatives.map (g.matcher data depth))
    | .repetition part min none =>
      (Matcher.times (g.name r) (g.matcher data depth part) min).andThen
        (.whileMatching (g.matcher data depth part) depth)
    | .repetition part min (some max) =>
      (Matcher.times (g.name r) (g.matcher data depth part) min).andThen
        (.upTo (g.matcher data depth part) (max - min))
    | .placeholder (some target) => g.matcher data depth target
    | .placeholder none => fun pos => (.error (.unresolvedPlaceholder (g.ownName r)), pos)

end RuleGraph

end StreamPeg
