import StreamPeg.Cursor.Streams
import StreamPeg.Parse.Combinators
import StreamPeg.Rule.Graph

/-!
# Parsing by a rule

`parser depth r` matches rule `r` at a cursor, with rules nested in it at most `depth` deep. Each
step down either stays at an offset, which a grammar without left recursion allows only so many
times as it has rules, or has consumed a byte; `depthLimit` counts both, so `parse` is never stopped
by the limit on such a grammar.
-/

namespace StreamPeg.RuleGraph

variable {σ : Type}

def parser [ByteSource σ] (g : RuleGraph) : (depth : Nat) → RuleId → Parser σ
  | 0, _ => fun _ m => (.error .tooDeep, m)
  | depth + 1, r =>
    match g.kind r with
    | .literal bytes => .literal (g.name r) bytes
    | .sequence parts => .sequence (g.name r) (parts.map (g.parser depth))
    | .choice alternatives => .choice (g.name r) (alternatives.map (g.parser depth))
    | .repetition part min none =>
      (Parser.times (g.name r) (g.parser depth part) min).andThen
        (.whileMatching (.stalled (g.name r) (g.name part)) (g.parser depth part) depth)
    | .repetition part min (some max) =>
      (Parser.times (g.name r) (g.parser depth part) min).andThen
        (.upTo (g.parser depth part) (max - min))
    | .placeholder (some target) => g.parser depth target
    | .placeholder none => fun _ m => (.error (.unresolvedPlaceholder (g.ownName r)), m)

/-- How deep rules can nest over so many bytes. -/
def depthLimit (g : RuleGraph) (available : Nat) : Nat :=
  (available + 1) * (g.size + 1) + 1

def parse [FiniteSource σ] (g : RuleGraph) (r : RuleId) : Parser σ := fun id m =>
  g.parser (g.depthLimit m.available) r id m

/-- Parses with one of several streams' cursors. -/
def parseAt [FiniteSource σ] (g : RuleGraph) (r : RuleId) (s : Streams σ) (c : Cursor) :
    Except ParseFailure Unit × Streams σ :=
  s.onStream c.stream (.error (.source (.unknownCursor c.id))) (g.parse r c.id)

/-- Matches a rule at the start of a source and says how many bytes it matched. The cursor it used
is released again. -/
def matchSource [FiniteSource σ] (g : RuleGraph) (r : RuleId) (source : σ) :
    Except ParseFailure Nat × Manager σ :=
  match g.parse r .root (.ofSource {} source) with
  | (.error e, m) => (.error e, m.release .root)
  | (.ok (), m) =>
    match m.offset .root with
    | .ok matched => (.ok matched, m.release .root)
    | .error e => (.error (.source e), m.release .root)

end StreamPeg.RuleGraph
