import StreamPeg.Proofs.Again
import StreamPeg.Proofs.Choice
import StreamPeg.Proofs.Reached
import StreamPeg.Proofs.Release

/-!
# Byte sets

A byte set is a choice of literals of one byte each, and each of them is tried on a branch of its
own. What the first of them reads is in the window for the others (`Finds.again`), and as none of
them gets anywhere without matching, the first is the one that is reported (`choiceFrom_bytes`). So
to parse by a byte set is to read one byte and to look it up (`lookUp`), and no more is asked of the
source than by that read (`AsksOnce`).
-/

namespace StreamPeg

variable {σ : Type}

/-- How a look for one of these bytes ends that starts at this position, by what is read there. -/
def lookUp (path : List String) (first : UInt8) (rest : List UInt8) (pos : Nat) :
    Except StreamError (Option UInt8) → Ending
  | .error e => (.error (.source e), some pos)
  | .ok none => (.error (.mismatch ⟨pos, path, .endOfData⟩), some pos)
  | .ok (some b) =>
    if b ∈ first :: rest then (.ok (), some (pos + 1))
    else (.error (.mismatch ⟨pos, path, .unexpected first b⟩), some pos)

section

variable {path : List String} {first : UInt8} {rest : List UInt8} {pos : Nat}

theorem lookUp_snd (found : Except StreamError (Option UInt8)) :
    (lookUp path first rest pos found).2 =
      some (if (lookUp path first rest pos found).1 = .ok () then pos + 1 else pos) := by
  rcases found with e | _ | b
  · rfl
  · rfl
  · rw [lookUp]
    split <;> rfl

theorem lookUp_of_mem {b : UInt8} (h : b ∈ first :: rest) :
    lookUp path first rest pos (.ok (some b)) = (.ok (), some (pos + 1)) := if_pos h

/-- What is wrong with what is there, if it is none of the bytes. -/
def missed (first : UInt8) : Option UInt8 → Detail
  | none => .endOfData
  | some b => .unexpected first b

theorem lookUp_of_not_mem {found : Option UInt8} (h : ∀ b ∈ first :: rest, found ≠ some b) :
    lookUp path first rest pos (.ok found) =
      (.error (.mismatch ⟨pos, path, missed first found⟩), some pos) := by
  cases found with
  | none => rfl
  | some b => exact if_neg fun hb => h b hb rfl

/-- A byte that is there and none of the set is shown beside the first of the set. -/
theorem lookUp_message {found : Option UInt8} {e : Mismatch} :
    (lookUp path first rest pos (.ok found)).1 = .error (.mismatch e) →
      e.detail.message = match found with
        | some b => "expected '" ++ Text.ofByte first ++ "' found '" ++ Text.ofByte b ++ "'"
        | none => "EOF" := by
  intro h
  by_cases hin : ∃ b ∈ first :: rest, found = some b
  · obtain ⟨b, hb, rfl⟩ := hin
    rw [lookUp_of_mem hb] at h
    cases h
  · rw [lookUp_of_not_mem (by simpa using hin)] at h
    cases h
    cases found <;> rfl

end

/-! ### Reading one byte -/

/-- What a read of one byte from an offset finds. -/
def Feed.byteAt (f : Feed) (offset : Nat) : Except StreamError (Option UInt8) :=
  match f.bytes.get? offset, f.failure with
  | some b, _ => .ok (some b)
  | none, none => .ok none
  | none, some e => .error (.source e)

/-- At most one call, and only for a byte that has not come yet. -/
structure AsksOnce (m : Manager σ) (pos : Nat) (cs : List Call) : Prop where
  length_le : cs.length ≤ 1
  requested : ∀ c ∈ cs, c.requested = 1 + m.readAhead
  length_given_le : (given cs).length ≤ 1 + m.readAhead
  cause : cs ≠ [] → m.base + m.window.size ≤ pos ∧ m.held = none ∧ m.exhausted = false

theorem OnDemand.length_le_one {missing readAhead : Nat} {cs : List Call}
    (h : OnDemand missing readAhead cs) (hm : missing ≤ 1) : cs.length ≤ 1 := by
  rcases cs with _ | ⟨c, _ | ⟨c', cs⟩⟩
  · exact Nat.zero_le 1
  · exact Nat.le_refl 1
  · -- The second call would come behind one that has brought what is missing.
    obtain ⟨hlt, -, hgiven⟩ := h.asks [c] c' cs rfl
    have hpos := List.length_pos_iff.mpr (hgiven c (List.mem_singleton_self c))
    rw [given_cons, given_nil, List.append_nil] at hlt
    omega

namespace Manager

variable [ByteSource σ] {m k n : Manager σ} {id : CursorId} {pos : Nat} {found : Option UInt8}

theorem exists_asked_of_readByte (h : m.Valid) (ho : m.cursors.offset? id = some pos) :
    ∃ cs, Asked m cs (m.readByte id).2 ∧ AsksOnce m pos cs := by
  obtain ⟨cs, hcs, hcause, hgiven, hdemand⟩ := exists_asked_of_read h ho 1
  refine ⟨cs, hcs, ?_⟩
  have hlack : pos + 1 - (m.base + m.window.size) ≤ 1 := by
    have hle := h.base_add_size ▸ h.offset_le ho
    omega
  by_cases hnil : cs = []
  · subst hnil
    exact ⟨Nat.zero_le 1, by simp, Nat.zero_le _, fun hne => absurd rfl hne⟩
  · obtain ⟨hlt, hheld, hopen⟩ := hcause hnil
    have honce := (hdemand hheld hopen).length_le_one hlack
    refine ⟨honce, fun c hc => ?_, by omega, fun _ => ⟨by omega, hheld, hopen⟩⟩
    obtain rfl : cs = [c] := by
      rcases cs with _ | ⟨c', _ | _⟩
      · cases hc
      · rw [List.mem_singleton.mp hc]
      · simp at honce
    obtain ⟨hpos, hrequested, -⟩ := (hdemand hheld hopen).asks [] c [] rfl
    rw [given_nil, List.length_nil] at hpos hrequested
    omega

theorem Offers.readByte {f : Feed} (hf : m.Offers f) (h : m.Valid)
    (ho : m.cursors.offset? id = some pos) : (m.readByte id).1 = f.byteAt pos := by
  have hread := (hf.read h ho 1).1
  have hget := Stream'.Seq.getElem?_take 0 1 (f.bytes.drop pos)
  have hlen : ((f.bytes.drop pos).take 1).length ≤ 1 := Stream'.Seq.length_take_le
  rw [if_pos Nat.one_pos, Stream'.Seq.drop_get?, Nat.add_zero] at hget
  simp only [Manager.readByte, hread, Feed.read, Feed.byteAt, ← hget]
  generalize (f.bytes.drop pos).take 1 = bs at hlen
  rcases bs with _ | ⟨b, _ | _⟩
  · cases f.failure <;> rfl
  · rfl
  · simp at hlen

/-- A read of one byte here finds this, and leaves a manager abreast of `n`. -/
structure Finds (m : Manager σ) (id : CursorId) (pos : Nat) (found : Option UInt8)
    (n : Manager σ) : Prop where
  valid : m.Valid
  offset_eq : m.cursors.offset? id = some pos
  answer : (m.readByte id).1 = .ok found
  abreast : n.Abreast (m.readByte id).2

/-- What has been read once is found in the same place again. -/
theorem Finds.again (h : Finds m id pos found n) (hk : n.Abreast k) (hv : k.Valid)
    (ho : k.cursors.offset? id = some pos) : Finds k id pos found n := by
  have hanswer := h.answer
  have habreast := h.abreast
  rcases hr : m.read id 1 with ⟨e | chunk, m'⟩
  · simp [readByte, hr, Except.map] at hanswer
  · simp only [readByte, hr] at hanswer habreast
    have hahead : m'.Ahead k := .of_quiet (habreast.symm.trans hk).toQuiet
    obtain ⟨hsame, hafter⟩ := hahead.read_again h.valid h.offset_eq hr hv ho
    refine ⟨hv, ho, ?_, hk.trans hafter⟩
    simp only [readByte, hsame]
    exact hanswer

end Manager

namespace Parser

variable [ByteSource σ] {m n : Manager σ} {id : CursorId} {pos : Nat} {found : Option UInt8}

/-! ### Literals of one byte -/

/-- A literal of one byte is a set of one byte, but where the byte is not there it leaves its cursor
behind what it has read. -/
theorem literal_singleton (name : String) (b : UInt8) (h : m.Valid)
    (ho : m.cursors.offset? id = some pos) :
    let out := literal name [b] id m
    out.1 = (lookUp [name] b [] pos (m.readByte id).1).1 ∧ out.2 = (m.readByte id).2 ∧
      (out.1 = .ok () → out.2.cursors.offset? id = some (pos + 1)) := by
  rcases hr : m.read id 1 with ⟨e | ⟨start, bytes, atEnd⟩, m'⟩
  · simp [literal, literalFrom, hr, Manager.readByte, Except.map, lookUp]
  · have hg := Manager.given_of_read h ho hr
    obtain rfl : start = pos := hg.start
    have hself := hg.shifted.offset_self
    have hlen : bytes.length ≤ 1 := hg.length_le
    rcases bytes with _ | ⟨c, _ | _⟩
    · simp [literal, literalFrom, hr, Manager.readByte, Except.map, lookUp, firstDifference]
    · by_cases hc : b = c
      · subst hc
        simpa [literal, literalFrom, hr, Manager.readByte, Except.map, lookUp, firstDifference]
          using hself
      · simp [literal, literalFrom, hr, Manager.readByte, Except.map, lookUp, firstDifference, hc,
          Ne.symm hc]
    · simp at hlen

/-- Tried on a branch, it ends as a look for its byte. -/
theorem attempt_literal_singleton (name : String) (b : UInt8) (h : m.Valid)
    (ho : m.cursors.offset? id = some pos) :
    ∃ k, attempt (literal name [b]) id m = ((lookUp [name] b [] pos (m.readByte id).1).1, k) ∧
      (m.readByte id).2.Abreast k ∧ k.Valid ∧
      k.cursors.offset? id = (lookUp [name] b [] pos (m.readByte id).1).2 := by
  have hshifts : (literal (σ := σ) name [b]).Shifts := by
    have hplan : ((Plan.literalFrom name 1 [b]).run : Parser σ).Shifts := Plan.shifts_run _
    rwa [Plan.run_literalFrom] at hplan
  obtain ⟨l, k, pos', hb, hs, ha, hc, hin, hk⟩ := exists_attempt hshifts h ho
  -- The branch reads what the cursor itself would have read.
  obtain ⟨hsame, hafter⟩ := Manager.Abreast.read
    ⟨h, hs.valid, ho, hs.offset_self, .of_course hb⟩ 1
  obtain ⟨hresult, hleft, hmoved⟩ := literal_singleton name b hs.valid hs.offset_self
  have hanswer : (l.readByte m.nextId).1 = (m.readByte id).1 := by
    simp only [Manager.readByte, hsame]
  rw [hanswer] at hresult
  rw [hresult] at ha hmoved hk
  rw [hleft] at hc hin hmoved
  refine ⟨k, ha, hafter.trans (.of_course hc), hk.valid, ?_⟩
  rw [hk.offset_self, lookUp_snd]
  split
  · next hok => rw [← hin, hmoved hok]
  · rfl

/-! ### Choices of them -/

/-- None of the literals that are left gets further than the one that is remembered. -/
theorem choiceFrom_bytes (name : String) {d : Mismatch} (hd : d.offset = pos)
    {ps : List (Parser σ)} {bytes : List UInt8}
    (hps : List.Forall₂ (fun p b => ∃ name, p = literal name [b]) ps bytes)
    (h : m.Finds id pos found n) (hab : n.Abreast m) :
    ∃ k, n.Abreast k ∧
      ((∃ b ∈ bytes, found = some b) ∧ choiceFrom name (some d) ps id m = (.ok (), k) ∧
          k.cursors.offset? id = some (pos + 1) ∨
        (∀ b ∈ bytes, found ≠ some b) ∧
          choiceFrom name (some d) ps id m = (.error (.mismatch (d.within name)), k) ∧
          k.cursors.offset? id = some pos) := by
  -- On the literals that are left. Whatever has been tried, the manager is abreast of the one that
  -- the first read has left.
  induction hps generalizing m with
  | nil => exact ⟨m, hab, .inr ⟨by simp, rfl, h.offset_eq⟩⟩
  | @cons p b ps bytes hp _ ih =>
    obtain ⟨own, rfl⟩ := hp
    obtain ⟨k, ha, hk, hv, ho⟩ := attempt_literal_singleton own b h.valid h.offset_eq
    have hnk : n.Abreast k := h.abreast.trans hk
    rw [h.answer] at ha ho
    by_cases hb : found = some b
    · subst hb
      rw [lookUp_of_mem (List.mem_singleton_self b)] at ha ho
      exact ⟨k, hnk, .inl ⟨⟨b, List.mem_cons_self, rfl⟩, choiceFrom_of_settled ha (by simp), ho⟩⟩
    · rw [lookUp_of_not_mem (by simpa using hb)] at ha ho
      have hkeep : Mismatch.deeper (some d) ⟨pos, [own], missed b found⟩ = d :=
        if_neg (Nat.not_lt_of_le (Nat.le_of_eq hd.symm))
      obtain ⟨l, hl, hends⟩ := ih (h.again hnk hv ho) hnk
      rw [choiceFrom_of_mismatch ha, hkeep]
      refine ⟨l, hl, hends.imp ?_ ?_⟩
      · rintro ⟨⟨c, hc, hfound⟩, hends⟩
        exact ⟨⟨c, List.mem_cons_of_mem b hc, hfound⟩, hends⟩
      · rintro ⟨hnone, hends⟩
        exact ⟨List.forall_mem_cons.mpr ⟨hb, hnone⟩, hends⟩

/-- The first literal reads what there is, and whether it is one of the bytes decides the choice. -/
theorem choice_bytes (name first : String) (b : UInt8) {ps : List (Parser σ)} {bytes : List UInt8}
    (hps : List.Forall₂ (fun p b => ∃ name, p = literal name [b]) ps bytes) (h : m.Valid)
    (ho : m.cursors.offset? id = some pos) :
    let ends := lookUp [name, first] b bytes pos (m.readByte id).1
    ∃ k, choice name (literal first [b] :: ps) id m = (ends.1, k) ∧
      (m.readByte id).2.Abreast k ∧ k.cursors.offset? id = ends.2 := by
  obtain ⟨k, ha, hk, hv, hok⟩ := attempt_literal_singleton first b h ho
  rcases hanswer : (m.readByte id).1 with e | found
  · rw [hanswer] at ha hok
    exact ⟨k, choiceFrom_of_settled ha (by simp [lookUp]), hk, hok⟩
  have hfinds : m.Finds id pos found (m.readByte id).2 := ⟨h, ho, hanswer, .refl _⟩
  rw [hanswer] at ha hok
  by_cases hb : found = some b
  · subst hb
    rw [lookUp_of_mem (List.mem_singleton_self b)] at ha hok
    rw [lookUp_of_mem List.mem_cons_self]
    exact ⟨k, choiceFrom_of_settled ha (by simp), hk, hok⟩
  · rw [lookUp_of_not_mem (by simpa using hb)] at ha hok
    have hdeepest : (⟨pos, [first], missed b found⟩ : Mismatch).offset = pos := rfl
    obtain ⟨l, hl, hends⟩ := choiceFrom_bytes name hdeepest hps (hfinds.again hk hv hok) hk
    rw [choice, choiceFrom_of_mismatch ha]
    rcases hends with ⟨⟨c, hc, rfl⟩, hends, ho'⟩ | ⟨hnone, hends, ho'⟩
    · rw [lookUp_of_mem (List.mem_cons_of_mem b hc)]
      exact ⟨l, hends, hl, ho'⟩
    · rw [lookUp_of_not_mem (List.forall_mem_cons.mpr ⟨hb, hnone⟩)]
      exact ⟨l, hends, hl, ho'⟩

end Parser

namespace RuleGraph

variable {g : RuleGraph} {r first : RuleId} {b : UInt8} {bs : List UInt8}

/-! ### Byte sets of a grammar -/

/-- A choice of a literal for each of these bytes, in their order, which begins with `first`. -/
structure IsByteSet (g : RuleGraph) (r first : RuleId) (b : UInt8) (bs : List UInt8) : Prop where
  literal : g.kind first = .literal [b]
  choice : ∃ others, g.kind r = .choice (first :: others) ∧
    List.Forall₂ (fun a b => g.kind a = .literal [b]) others bs

theorem forall₂_byteLiterals (g : RuleGraph) (bytes : List UInt8) :
    List.Forall₂ (fun a b => (g.byteLiterals bytes).2.rule a =
      ⟨"'" ++ Text.decodeLossy [b] ++ "'", .literal [b]⟩) (g.byteLiterals bytes).1 bytes := by
  induction bytes generalizing g with
  | nil => exact .nil
  | cons b bytes ih =>
    refine .cons ?_ (ih (g.literal [b]).2)
    have hadds := (adds_byteLiterals (.refl (g := (g.literal [b]).2)) bytes).1
    have hlt : g.size < (g.literal [b]).2.size := by simp [RuleGraph.literal]
    show ((g.literal [b]).2.byteLiterals bytes).2.rule g.size = _
    rw [hadds.rule_eq hlt, RuleGraph.literal, rule_add, if_pos rfl]

/-- The literals stand before the set, and the first of them where the graph ended. -/
theorem exists_oneOfBytes (g : RuleGraph) (b : UInt8) (bs : List UInt8) :
    ∃ set built, g.oneOfBytes (b :: bs) = (.ok set, built) ∧ built.IsByteSet set g.size b bs ∧
      built.ownName set = byteSetName (b :: bs) ∧
      built.ownName g.size = "'" ++ Text.decodeLossy [b] ++ "'" := by
  let literals := g.byteLiterals (b :: bs)
  have hlt : ∀ r ∈ literals.1, r < literals.2.size := (adds_byteLiterals .refl (b :: bs)).2
  let built := (literals.2.add (byteSetName (b :: bs)) (.choice literals.1)).2
  have hset : built.rule literals.2.size = ⟨byteSetName (b :: bs), .choice literals.1⟩ := by
    rw [rule_add, if_pos rfl]
  have hall : List.Forall₂ (fun a c => built.rule a =
      ⟨"'" ++ Text.decodeLossy [c] ++ "'", .literal [c]⟩) literals.1 (b :: bs) := by
    refine ((List.forall₂_and_left _ _).mpr ⟨hlt, g.forall₂_byteLiterals (b :: bs)⟩).imp ?_
    rintro a c ⟨ha, hrule⟩
    rw [rule_add, if_neg (Nat.ne_of_lt ha), hrule]
  obtain ⟨hfirst, hothers⟩ := List.forall₂_cons.mp hall
  exact ⟨literals.2.size, built, rfl, ⟨congrArg Rule.kind hfirst, _, congrArg Rule.kind hset,
    hothers.imp fun _ _ hrule => congrArg Rule.kind hrule⟩, congrArg Rule.name hset,
    congrArg Rule.name hfirst⟩

theorem IsByteSet.run {w : Workbench} (h : w.graph.IsByteSet r first b bs) (edits : List Edit) :
    (w.run edits).graph.IsByteSet r first b bs := by
  obtain ⟨hfirst, others, hchoice, hothers⟩ := h
  have hkeeps {s : RuleId} {kind : RuleKind} (hk : w.graph.kind s = kind)
      (hrule : kind.isPlaceholder = false) : (w.run edits).graph.kind s = kind := by
    rw [Workbench.kind_run (by rw [isPlaceholder, hk, hrule]), hk]
  exact ⟨hkeeps hfirst rfl, others, hkeeps hchoice rfl, hothers.imp fun _ _ hk => hkeeps hk rfl⟩

theorem exists_depthLimit_eq (g : RuleGraph) (available : Nat) :
    ∃ depth, g.depthLimit available = depth + 2 := by
  have hpos : 0 < (available + 1) * (g.size + 1) := Nat.mul_pos (by omega) (by omega)
  exact ⟨(available + 1) * (g.size + 1) - 1, by rw [depthLimit]; omega⟩

/-- What a parse returns that looks for one of these bytes, compared with a read of one byte. -/
structure LooksUp [ByteSource σ] (path : List String) (b : UInt8) (bs : List UInt8)
    (id : CursorId) (pos : Nat) (m : Manager σ) (out : Except ParseFailure Unit × Manager σ) :
    Prop where
  ends : (out.1, out.2.cursors.offset? id) = lookUp path b bs pos (m.readByte id).1
  message : ∀ found e, (m.readByte id).1 = .ok found → out.1 = .error (.mismatch e) →
    e.detail.message = match found with
      | some c => "expected '" ++ Text.ofByte b ++ "' found '" ++ Text.ofByte c ++ "'"
      | none => "EOF"
  abreast : (m.readByte id).2.Abreast out.2
  asked : ∃ cs, calls out.2.journal = calls m.journal ++ cs ∧ AsksOnce m pos cs

theorem IsByteSet.looksUp [ByteSource σ] (hset : g.IsByteSet r first b bs) {m : Manager σ}
    {id : CursorId} {pos : Nat} (h : m.Valid) (ho : m.cursors.offset? id = some pos)
    (depth : Nat) :
    LooksUp [g.name r, g.name first] b bs id pos m (g.parser (depth + 2) r id m) := by
  obtain ⟨hfirst, others, hchoice, hothers⟩ := hset
  have hliteral {a : RuleId} {c : UInt8} (hk : g.kind a = .literal [c]) :
      g.parser (σ := σ) (depth + 1) a = Parser.literal (g.name a) [c] := by
    simp only [parser, hk]
  have hps : List.Forall₂ (fun p c => ∃ name, p = Parser.literal (σ := σ) name [c])
      (others.map (g.parser (depth + 1))) bs :=
    List.forall₂_map_left_iff.mpr (hothers.imp fun _ _ hk => ⟨_, hliteral hk⟩)
  have hparser : g.parser (depth + 2) r = Parser.choice (g.name r)
      (Parser.literal (σ := σ) (g.name first) [b] :: others.map (g.parser (depth + 1))) := by
    rw [parser, hchoice]
    simp only [List.map_cons, hliteral hfirst]
  obtain ⟨k, hends, hk, hok⟩ := Parser.choice_bytes (g.name r) (g.name first) b hps h ho
  obtain ⟨cs, hasked, honce⟩ := Manager.exists_asked_of_readByte h ho
  rw [hparser, hends]
  exact ⟨Prod.ext rfl hok, fun _ _ hfound he => lookUp_message (hfound ▸ he), hk, cs,
    hk.calls_eq.trans hasked.calls_eq, honce⟩

/-- A set of any bytes, at least one and be there repetitions, from any cursor in any manager that a
run leads to, whatever its source and whatever has been done to other rules since it was built.

To parse by it is to read one byte and to look it up: it is passed if it is one of the set, and if
not, the mismatch is where the cursor stands, behind the names of the set and of its first literal,
and its message shows the first byte of the set and the one that is there, or says that there is
none. A failure of the source is passed on. The source is left as by that one read, whose byte is
the next of the feed that is on offer, if there is one. -/
theorem oneOfBytes_looksUp (g : RuleGraph) (b : UInt8) (bs : List UInt8) :
    ∃ set built, g.oneOfBytes (b :: bs) = (.ok set, built) ∧
      built.name set = byteSetName (b :: bs) ∧
      built.name g.size = "'" ++ Text.decodeLossy [b] ++ "'" ∧
      ∀ (grammars : List Grammar) (edits : List Edit),
        let later := (Workbench.run ⟨built, grammars⟩ edits).graph
        later.kind g.size = .literal [b] ∧
        ∀ (options : StreamOptions) (actions : List Action) (id : CursorId) (pos : Nat),
          (∀ {σ : Type} [ByteSource σ] (source : σ),
            let m := (Manager.ofSource options source).perform actions
            m.cursors.offset? id = some pos →
            m.readAhead = options.readAhead ∧
            (∀ f, m.Offers f → (m.readByte id).1 = f.byteAt pos) ∧
            ∀ depth, LooksUp [later.name set, later.name g.size] b bs id pos m
              (later.parser (depth + 2) set id m)) ∧
          ∀ {σ : Type} [FiniteSource σ] (source : σ),
            let m := (Manager.ofSource options source).perform actions
            m.cursors.offset? id = some pos →
            LooksUp [later.name set, later.name g.size] b bs id pos m (later.parse set id m) := by
  obtain ⟨set, built, hbuilt, hset, hname, hfirst⟩ := g.exists_oneOfBytes b bs
  have hown {r : RuleId} {kind : RuleKind} (hk : built.kind r = kind)
      (hrule : kind.isPlaceholder = false) : built.name r = built.ownName r :=
    name_of_isPlaceholder_eq_false (by rw [isPlaceholder, hk, hrule])
  obtain ⟨others, hchoice, -⟩ := hset.choice
  refine ⟨set, built, hbuilt, (hown hchoice rfl).trans hname, (hown hset.literal rfl).trans hfirst,
    fun grammars edits => ?_⟩
  have hlater := IsByteSet.run (w := ⟨built, grammars⟩) hset edits
  refine ⟨hlater.literal, fun options actions id pos => ?_⟩
  have hvalid {σ : Type} [ByteSource σ] (source : σ) :
      ((Manager.ofSource options source).perform actions).Valid :=
    Manager.valid_perform (Manager.valid_ofSource options source) actions
  constructor
  · intro σ _ source m ho
    refine ⟨?_, fun f hf => hf.readByte (hvalid source) ho, hlater.looksUp (hvalid source) ho⟩
    obtain ⟨cs, hasked⟩ := Manager.exists_asked_of_run (Manager.valid_ofSource options source)
      ((Manager.ofSource options source).steps actions)
    rw [Manager.run_steps] at hasked
    exact hasked.readAhead
  · intro σ _ source m ho
    obtain ⟨depth, hdepth⟩ := (Workbench.run ⟨built, grammars⟩ edits).graph.exists_depthLimit_eq
      m.available
    rw [parse, hdepth]
    exact hlater.looksUp (hvalid source) ho depth

/-- A sign is looked for where there is one and where there is none, and behind that, where the
source fails. -/
theorem oneOfBytes_looksUp_signs :
    let signs := (empty.oneOfBytes [43, 45]).2
    let source := Script.ofPieces [.chunk [45, 122], .failure ⟨.other, "lost"⟩]
    let m := (Manager.ofSource {} source).perform
      [.step (.branch 0), .step (.read 1 1), .step (.branch 1), .step (.read 2 1)]
    let path := ["\x7b+|-\x7d", "'+'"]
    (empty.oneOfBytes [43, 45]).1 = .ok 2 ∧ [signs.name 2, signs.name 0] = path ∧
    (∀ id ∈ [0, 1, 2], m.cursors.offset? id = some id) ∧
    (∀ id ∈ [0, 1, 2], LooksUp path 43 [45] id id m (signs.parse 2 id m)) ∧
    Parser.ending (signs.parse 2) 0 m = (.ok (), some 1) ∧
    Parser.ending (signs.parse 2) 1 m =
      (.error (.mismatch ⟨1, path, .unexpected 43 122⟩), some 1) ∧
    (Detail.unexpected 43 122).message = "expected '+' found 'z'" ∧
    Parser.ending (signs.parse 2) 2 m = (.error (.source (.source ⟨.other, "lost"⟩)), some 2) := by
  intro signs source m path
  obtain ⟨set, built, hbuilt, hname, hfirst, hlater⟩ := oneOfBytes_looksUp empty 43 [45]
  obtain rfl : 2 = set := Except.ok.inj (congrArg Prod.fst hbuilt)
  obtain rfl : signs = built := congrArg Prod.snd hbuilt
  have hpath : [signs.name 2, signs.name 0] = path := by decide +kernel
  have ho : ∀ id ∈ [0, 1, 2], m.cursors.offset? id = some id := by decide +kernel
  have hlooks : ∀ id ∈ [0, 1, 2], LooksUp path 43 [45] id id m (signs.parse 2 id m) := by
    intro id hid
    obtain ⟨-, hparse⟩ := (hlater [] []).2 {}
      [.step (.branch 0), .step (.read 1 1), .step (.branch 1), .step (.read 2 1)] id id
    exact hpath ▸ hparse source (ho id hid)
  have hmissed : Parser.ending (signs.parse 2) 1 m =
      (.error (.mismatch ⟨1, path, .unexpected 43 122⟩), some 1) :=
    (hlooks 1 (by simp)).ends.trans (by decide +kernel)
  have htext : (Detail.unexpected 43 122).message = "expected '+' found 'z'" :=
    ((hlooks 1 (by simp)).message (some 122) ⟨1, path, .unexpected 43 122⟩ (by decide +kernel)
      (by decide +kernel)).trans (by decide)
  exact ⟨rfl, hpath, ho, hlooks, (hlooks 0 (by simp)).ends.trans (by decide +kernel), hmissed,
    htext, (hlooks 2 (by simp)).ends.trans (by decide +kernel)⟩

end RuleGraph

end StreamPeg
