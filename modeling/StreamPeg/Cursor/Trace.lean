import StreamPeg.Cursor.Run

/-!
# The log, and what it tells

`Manager.log` is what a manager has written into the log, line by line. Its lines at the level of
the trace can be read back: `Record.event?` finds the event that such a line was written for
(`told_of_words_ne_nil`), and nothing in any other line (`told_of_words_eq_nil`). So the log alone
tells which cursors are live, when it is replayed from its first line on (`replayLog`), and by which
stretches the window has shrunk (`shrinks`). Where a line is cut at its blanks, the words come back
that it was made of (`Text.words_intercalate`), and a number from its digits (`Text.number?_repr`).
-/

namespace StreamPeg

/-! ### Words and numbers -/

namespace Text

def words (s : String) : List String := (s.toList.splitOn ' ').map String.ofList

def number? (s : String) : Option Nat :=
  if s ≠ "" ∧ s.toList.all Char.isDigit then some (Nat.ofDigitChars 10 s.toList 0) else none

theorem words_intercalate {ws : List String} (hn : ws ≠ []) (hw : ∀ w ∈ ws, ' ' ∉ w.toList) :
    words (" ".intercalate ws) = ws := by
  have hblank : ∀ l ∈ ws.map String.toList, ' ' ∉ l := by
    intro l hl
    obtain ⟨w, hmem, rfl⟩ := List.mem_map.mp hl
    exact hw w hmem
  rw [words, String.toList_intercalate, show " ".toList = [' '] from rfl,
    List.splitOn_intercalate ' ' hblank (by simpa using hn), List.map_map]
  simp

theorem isDigit_of_mem_toDigits {n : Nat} {c : Char} (h : c ∈ Nat.toDigits 10 n) :
    c.isDigit = true :=
  Nat.isDigit_of_mem_toDigits (by decide) (by decide) h

@[simp] theorem blank_not_mem_toDigits (n : Nat) : ' ' ∉ Nat.toDigits 10 n :=
  fun h => absurd (isDigit_of_mem_toDigits h) (by decide)

@[simp] theorem number?_repr (n : Nat) : number? n.repr = some n := by
  have hdigits : n.repr.toList.all Char.isDigit := by
    rw [Nat.toList_repr]
    exact List.all_eq_true.mpr fun _ => isDigit_of_mem_toDigits
  rw [number?, if_pos ⟨Nat.repr_ne_empty, hdigits⟩, Nat.toList_repr,
    Nat.ofDigitChars_ten_toDigits]

end Text

/-! ### Lines of the trace -/

/-- The words of the line that an event has in the trace; without any, it has none. -/
def Event.words : Event → List String
  | .opened id offset => ["opened", "cursor", id.text, "at", "offset", toString offset]
  | .branched id parent offset =>
    ["branched", "cursor", id.text, "from", parent.text, "at", "offset", toString offset]
  | .committed branch target offset =>
    ["committed", "cursor", branch.text, "into", target.text, "at", "offset", toString offset]
  | .disposed id => ["disposed", "cursor", id.text]
  | .released id => ["released", "cursor", id.text]
  | .shrunk old new =>
    ["window", "shrunk", "from", "offset", toString old, "to", toString new]
  | _ => []

def CursorId.ofText? (s : String) : Option CursorId :=
  match s.toList with
  | '#' :: digits => Text.number? (String.ofList digits)
  | _ => none

/-- The event that a line of the trace was written for. -/
def Record.event? (record : Record) : Option Event :=
  if record.level = .trace then
    match Text.words record.text with
    | ["opened", "cursor", id, "at", "offset", offset] =>
      return .opened (← CursorId.ofText? id) (← Text.number? offset)
    | ["branched", "cursor", id, "from", parent, "at", "offset", offset] =>
      return .branched (← CursorId.ofText? id) (← CursorId.ofText? parent) (← Text.number? offset)
    | ["committed", "cursor", branch, "into", target, "at", "offset", offset] =>
      return .committed (← CursorId.ofText? branch) (← CursorId.ofText? target)
        (← Text.number? offset)
    | ["disposed", "cursor", id] => return .disposed (← CursorId.ofText? id)
    | ["released", "cursor", id] => return .released (← CursorId.ofText? id)
    | ["window", "shrunk", "from", "offset", old, "to", new] =>
      return .shrunk (← Text.number? old) (← Text.number? new)
    | _ => none
  else none

theorem CursorId.toList_text (id : CursorId) : id.text.toList = '#' :: (Nat.repr id).toList := by
  rw [text, String.toList_append]
  rfl

@[simp] theorem CursorId.blank_not_mem_text (id : CursorId) : ' ' ∉ id.text.toList := by
  simp [toList_text]

@[simp] theorem CursorId.ofText?_text (id : CursorId) : ofText? id.text = some id := by
  simp only [ofText?, toList_text, String.ofList_toList, Text.number?_repr]

namespace Event

variable {event : Event} {record : Record}

theorem record?_of_words_ne_nil (h : event.words ≠ []) :
    event.record? = some ⟨.trace, " ".intercalate event.words⟩ := by
  cases event with
  | opened | branched | committed | disposed | released | shrunk =>
    refine congrArg (fun text => some (Record.mk .trace text)) (String.ext ?_)
    simp [words, String.append_assoc]
  | _ => exact absurd rfl h

/-- Without words an event has no line, or one of another level. -/
theorem event?_of_words_eq_nil (h : event.words = []) (hr : event.record? = some record) :
    record.event? = none := by
  refine if_neg ?_
  cases event with
  | exhausted | deferred | stalled =>
    cases hr
    nofun
  | requested | filled | advanced => cases hr
  | _ => cases h

theorem blank_not_mem_words : ∀ w ∈ event.words, ' ' ∉ w.toList := by
  cases event <;> simp [words]

theorem event?_of_words_ne_nil (h : event.words ≠ []) :
    (Record.mk .trace (" ".intercalate event.words)).event? = some event := by
  have hw := Text.words_intercalate h blank_not_mem_words
  cases event with
  | opened | branched | committed | disposed | released | shrunk =>
    simp_all [Record.event?, words]
  | _ => exact absurd rfl h

end Event

/-! ### The log as a whole -/

/-- The lines that a journal has in the log, the oldest first. -/
def logOf (journal : List Event) : List Record := (journal.filterMap Event.record?).reverse

def Manager.log {σ : Type} (m : Manager σ) : List Record := logOf m.journal

/-- The events that a log tells of, the oldest first. -/
def told (records : List Record) : List Event := records.filterMap Record.event?

/-- What an event says about the table of live cursors. -/
def Event.apply (t : CursorTable) : Event → CursorTable
  | .opened id offset => t.put id offset
  | .branched id _ offset => t.put id offset
  | .advanced id offset => t.put id offset
  | .committed branch target offset => (t.erase branch).put target offset
  | .disposed id => t.erase id
  | .released id => t.erase id
  | _ => t

/-- The cursors that a log leaves live, each where a line of the log has last put it. -/
def replayLog (records : List Record) : CursorTable := (told records).foldl Event.apply .empty

def Event.shrunk? : Event → Option (Nat × Nat)
  | .shrunk old new => some (old, new)
  | _ => none

/-- Where the window started before and after each of the times that a log has it shrink. -/
def shrinks (records : List Record) : List (Nat × Nat) := (told records).filterMap Event.shrunk?

theorem logOf_cons (event : Event) (journal : List Event) :
    logOf (event :: journal) = logOf journal ++ event.record?.toList := by
  rw [logOf, List.filterMap_cons]
  cases event.record? with
  | none => exact (List.append_nil _).symm
  | some record => exact List.reverse_cons

theorem logOf_filled (cs : List Call) (journal : List Event) :
    logOf ((cs.map .filled).reverse ++ journal) = logOf journal := by
  rw [logOf, filterMap_filled fun _ => rfl, logOf]

theorem told_append (records records' : List Record) :
    told (records ++ records') = told records ++ told records' := List.filterMap_append

theorem shrinks_append (records records' : List Record) :
    shrinks (records ++ records') = shrinks records ++ shrinks records' := by
  rw [shrinks, told_append, List.filterMap_append, shrinks, shrinks]

theorem told_of_words_ne_nil {event : Event} (h : event.words ≠ []) :
    told event.record?.toList = [event] := by
  rw [Event.record?_of_words_ne_nil h]
  exact List.filterMap_cons_some (Event.event?_of_words_ne_nil h)

theorem told_of_words_eq_nil {event : Event} (h : event.words = []) :
    told event.record?.toList = [] := by
  cases hr : event.record? with
  | none => rfl
  | some record => exact List.filterMap_cons_none (Event.event?_of_words_eq_nil h hr)

end StreamPeg
