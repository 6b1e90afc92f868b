import StreamPeg.Rule.Graph
import StreamPeg.Text.Bytes

/-!
# Building rules

Each builder adds a rule to a graph under a default name and answers with its number. A sequence, a
choice or a byte set of nothing is refused, and so are bounds whose maximum is below the minimum.
-/

namespace StreamPeg

inductive GrammarError where
  | emptySequence
  | emptyChoice
  | emptyByteSet
  | invalidBounds (min max : Nat)
  deriving DecidableEq, Repr

def GrammarError.message : GrammarError → String
  | .emptySequence => "sequence needs at least one rule"
  | .emptyChoice => "choice needs at least one alternative"
  | .emptyByteSet => "byte set needs at least one byte"
  | .invalidBounds min max =>
    "repetition bounds are inverted: min " ++ toString min ++ " > max " ++ toString max

namespace RuleGraph

def add (g : RuleGraph) (name : String) (kind : RuleKind) : RuleId × RuleGraph :=
  (g.size, ⟨g.rules.push ⟨name, kind⟩⟩)

/-- Matches exactly these bytes. -/
def literal (g : RuleGraph) (bytes : List UInt8) : RuleId × RuleGraph :=
  g.add ("'" ++ Text.decodeLossy bytes ++ "'") (.literal bytes)

/-- Matches the parts one after another. -/
def sequence (g : RuleGraph) (parts : List RuleId) : Except GrammarError RuleId × RuleGraph :=
  match parts with
  | [] => (.error .emptySequence, g)
  | parts => (g.add "Sequence" (.sequence parts)).map .ok id

/-- Matches the first alternative that does. -/
def choice (g : RuleGraph) (alternatives : List RuleId) :
    Except GrammarError RuleId × RuleGraph :=
  match alternatives with
  | [] => (.error .emptyChoice, g)
  | alternatives => (g.add "Choice" (.choice alternatives)).map .ok id

/-- A literal for each byte. -/
def byteLiterals (g : RuleGraph) : List UInt8 → List RuleId × RuleGraph
  | [] => ([], g)
  | b :: bs =>
    let (r, g) := g.literal [b]
    let (rs, g) := g.byteLiterals bs
    (r :: rs, g)

/-- The name of a byte set, such as `{+|-}`. -/
def byteSetName (bytes : List UInt8) : String :=
  "\x7b" ++ String.intercalate "|" (bytes.map Text.ofByte) ++ "\x7d"

/-- Matches any one of the bytes. -/
def oneOfBytes (g : RuleGraph) (bytes : List UInt8) : Except GrammarError RuleId × RuleGraph :=
  match bytes with
  | [] => (.error .emptyByteSet, g)
  | bytes =>
    let (alternatives, g) := g.byteLiterals bytes
    (g.add (byteSetName bytes) (.choice alternatives)).map .ok id

/-- Matches `part` at least `min` and at most `max` times. -/
def repetition (g : RuleGraph) (part : RuleId) (min : Nat) (max : Option Nat) :
    Except GrammarError RuleId × RuleGraph :=
  match max with
  | none => (g.add "Repeat" (.repetition part min none)).map .ok id
  | some max =>
    if max < min then (.error (.invalidBounds min max), g)
    else (g.add "Repeat" (.repetition part min (some max))).map .ok id

def atLeast (g : RuleGraph) (part : RuleId) (n : Nat) : RuleId × RuleGraph :=
  g.add "AtLeast" (.repetition part n (some n))

def asManyAs (g : RuleGraph) (part : RuleId) (n : Nat) : RuleId × RuleGraph :=
  g.add "AsManyAs" (.repetition part 0 (some n))

def zeroOrMore (g : RuleGraph) (part : RuleId) : RuleId × RuleGraph :=
  g.add "ZeroOrMore" (.repetition part 0 none)

def oneOrMore (g : RuleGraph) (part : RuleId) : RuleId × RuleGraph :=
  g.add "OneOrMore" (.repetition part 1 none)

def zeroOrOne (g : RuleGraph) (part : RuleId) : RuleId × RuleGraph :=
  g.add "ZeroOrOne" (.repetition part 0 (some 1))

/-- Stands for the rule of this name, once it has been resolved. -/
def placeholder (g : RuleGraph) (name : String) : RuleId × RuleGraph :=
  g.add name (.placeholder none)

end RuleGraph

end StreamPeg
