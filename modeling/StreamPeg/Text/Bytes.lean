/-!
# Bytes as text

`ofByte b` is how a byte is shown in a rule's name or a diagnostic: printable ASCII stands for
itself, tab, carriage return and line feed have their letters, and any other byte is `\x` with its
two hex digits.

`decodeLossy` reads well-formed UTF-8 as it stands and puts one U+FFFD for each maximal ill-formed
part: the longest start of some character that the bytes cut short, or else a single byte. A
character under way is a `Partial`: the bits gathered, the number of continuation bytes still owed,
and the range the next of them must lie in. The range is narrower than `80–BF` only behind `E0`,
`ED`, `F0` and `F4`, where it shuts out overlong forms, surrogates and values above U+10FFFF.
-/

namespace StreamPeg.Text

/-- The two lower-case hex digits of a byte. -/
def hexPair (b : UInt8) : String :=
  String.ofList [Nat.digitChar (b.toNat / 16), Nat.digitChar (b.toNat % 16)]

def ofByte (b : UInt8) : String :=
  if 0x20 ≤ b ∧ b ≤ 0x7e then String.singleton (Char.ofNat b.toNat)
  else if b = 0x09 then "\\t"
  else if b = 0x0d then "\\r"
  else if b = 0x0a then "\\n"
  else "\\x" ++ hexPair b

/-! ### Reading bytes as UTF-8, whatever they are -/

/-- A character of which some bytes have been read and `owed` are still to come. -/
structure Partial where
  code : Nat
  owed : Nat
  lo : UInt8
  hi : UInt8
  deriving DecidableEq, Repr

/-- What a byte means where a character may start. -/
inductive Lead where
  | whole (c : Char)
  | partly (p : Partial)
  | invalid
  deriving DecidableEq, Repr

def lead (b : UInt8) : Lead :=
  if b ≤ 0x7f then .whole (Char.ofNat b.toNat)
  else if b < 0xc2 then .invalid
  else if b ≤ 0xdf then .partly ⟨b.toNat - 0xc0, 1, 0x80, 0xbf⟩
  else if b ≤ 0xef then
    .partly ⟨b.toNat - 0xe0, 2, if b = 0xe0 then 0xa0 else 0x80, if b = 0xed then 0x9f else 0xbf⟩
  else if b ≤ 0xf4 then
    .partly ⟨b.toNat - 0xf0, 3, if b = 0xf0 then 0x90 else 0x80, if b = 0xf4 then 0x8f else 0xbf⟩
  else .invalid

/-- Stands for bytes that are no character. -/
def replacement : Char := '\uFFFD'

/-- The characters of the bytes, behind a character under way if there is one. -/
def decodeFrom : Option Partial → List UInt8 → List Char
  | none, [] => []
  | some _, [] => [replacement]
  | none, b :: bs =>
    match lead b with
    | .whole c => c :: decodeFrom none bs
    | .partly p => decodeFrom (some p) bs
    | .invalid => replacement :: decodeFrom none bs
  | some p, b :: bs =>
    if p.lo ≤ b ∧ b ≤ p.hi then
      let code := p.code * 64 + (b.toNat - 0x80)
      if p.owed ≤ 1 then Char.ofNat code :: decodeFrom none bs
      else decodeFrom (some ⟨code, p.owed - 1, 0x80, 0xbf⟩) bs
    else
      match lead b with
      | .whole c => replacement :: c :: decodeFrom none bs
      | .partly q => replacement :: decodeFrom (some q) bs
      | .invalid => replacement :: replacement :: decodeFrom none bs

def decodeLossy (bytes : List UInt8) : String :=
  String.ofList (decodeFrom none bytes)

end StreamPeg.Text
