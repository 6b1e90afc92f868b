import StreamPeg.Cursor.Manager
import StreamPeg.Text.Bytes

/-!
# How a parse fails

A mismatch says where the input stops matching, which literal was tried there and through which
rules it was reached, outermost first. It drives backtracking. Every other failure ends the parse
and passes through all rules as it is.
-/

namespace StreamPeg

/-- What was wrong at the offset of a mismatch. -/
inductive Detail where
  | endOfData
  | unexpected (expected found : UInt8)
  | noAlternatives
  | note (text : String)
  deriving DecidableEq, Repr

def Detail.message : Detail → String
  | .endOfData => "EOF"
  | .unexpected expected found =>
    "expected '" ++ Text.ofByte expected ++ "' found '" ++ Text.ofByte found ++ "'"
  | .noAlternatives => "no alternatives"
  | .note text => text

structure Mismatch where
  offset : Nat
  path : List String
  detail : Detail
  deriving DecidableEq, Repr

namespace Mismatch

/-- Puts the name of an enclosing rule in front of the path. -/
def within (e : Mismatch) (rule : String) : Mismatch := { e with path := rule :: e.path }

def message (e : Mismatch) : String :=
  "error at offset " ++ toString e.offset ++ " in rule " ++ String.intercalate ">" e.path ++ ". " ++
    e.detail.message

/-- The one that got further; of two that got equally far, the earlier. -/
def deeper : Option Mismatch → Mismatch → Mismatch
  | none, e => e
  | some d, e => if d.offset < e.offset then e else d

end Mismatch

/-- `tooDeep` answers a rule that goes on into itself without an end, consuming nothing. -/
inductive ParseFailure where
  | mismatch (error : Mismatch)
  | source (error : StreamError)
  | unresolvedPlaceholder (name : String)
  | tooDeep
  deriving DecidableEq, Repr

instance decidableAnswer : DecidableEq (Except ParseFailure Unit)
  | .ok (), .ok () => isTrue rfl
  | .ok (), .error _ => isFalse (by simp)
  | .error _, .ok () => isFalse (by simp)
  | .error e, .error f => decidable_of_iff (e = f) (by simp)

namespace ParseFailure

/-- Only a mismatch keeps account of the rules it passes through. -/
def within (failure : ParseFailure) (rule : String) : ParseFailure :=
  match failure with
  | .mismatch error => .mismatch (error.within rule)
  | failure => failure

def message : ParseFailure → String
  | .mismatch error => error.message
  | .source error => error.message
  | .unresolvedPlaceholder name => "placeholder '" ++ name ++ "' is not resolved"
  | .tooDeep => "rules are nested too deeply"

end ParseFailure

end StreamPeg
