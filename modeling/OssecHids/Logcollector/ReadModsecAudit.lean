import OssecHids.Lib.Lines
import OssecHids.Lib.Transition
import OssecHids.Logcollector.LogrFgets

/-!
# Audit logs of ModSecurity

`read_modsec_audit` collects the lines of a transaction, from its line `--id-A--` to its line
`--id-Z--`, and goes back to the first one when the last one has not been written yet.

- `processLine`: what a line does, whatever a position in the file is;
- `readModsecAudit`: a visit;
- `feedAll`: the same on a list of lines;
- `readModsecLoop_spec`: a visit is some of the lines in front of the reader.
-/

open CString Transition Framing List

namespace Logcollector

def MODSEC_MAX_CACHE : ℕ := 96

def MODSEC_ID_MAX : ℕ := 64

def isAlnum (b : UInt8) : Bool :=
  (chr '0' ≤ b && b ≤ chr '9') || (chr 'a' ≤ b && b ≤ chr 'z') || (chr 'A' ≤ b && b ≤ chr 'Z')

/-- Parse `--<id>-X--` into id and section. -/
def parseModsecBoundary (line : Bytes) : Option (Bytes × UInt8) :=
  if line.headD 0 ≠ chr '-' ∨ line.tail.headD 0 ≠ chr '-' then none
  else
    let p := line.drop 2
    let id := (p.takeWhile isAlnum).take (MODSEC_ID_MAX - 1)
    let p := p.drop id.length
    if id = [] then none
    else if isAlnum (p.headD 0) then none
    else
      match p with
      | c₀ :: sect :: c₂ :: c₃ :: p =>
        if c₀ = chr '-' ∧ sect ≠ 0 ∧ c₂ = chr '-' ∧ c₃ = chr '-' ∧
            (p.headD 0 = 0 ∨ p.headD 0 = chr '\r') then some (id, sect)
        else none
      | _ => none

/-- The lines that are collected, and the caches that were given to `modsec_send_msg`. A position
in the file is a `P`. -/
structure Modsec (P : Type) where
  cache : List Bytes := []
  txn : Bytes := []
  txn_start : Option P := none
  sent : List (List Bytes) := []

/-- The text that `modsec_send_msg` makes of a cache: the lines that fit, with spaces between
them. -/
def modsecMessage (cache : List Bytes) : Bytes :=
  cache.foldl
    (fun message line =>
      if message.length + line.length + 1 < OS_MAXSTR then
        if message = [] then line else message ++ chr ' ' :: line
      else message) []

namespace Modsec

variable {P Q : Type}

/-- A line is added; a transaction of too many lines is discarded. -/
def addLine (st : Modsec P) (buffer : Bytes) : Modsec P :=
  if st.cache.length ≥ MODSEC_MAX_CACHE then { st with cache := [], txn := [], txn_start := none }
  else { st with cache := st.cache ++ [buffer] }

/-- `modsec_send_msg` -/
def sendMsg (st : Modsec P) (v : Visit) : Modsec P :=
  if !v.drop_it ∧ modsecMessage st.cache ≠ [] then { st with sent := st.sent ++ [st.cache] } else st

/-- What a line at the position `offset` does. -/
def processLine (v : Visit) (offset : P) (st : Modsec P) (buffer : Bytes) : Modsec P :=
  match parseModsecBoundary buffer with
  | some (bid, sect) =>
    if sect = chr 'A' ∧ st.cache = [] then
      { st with txn := bid, txn_start := some offset, cache := [buffer] }
    else if st.txn ≠ [] ∧ st.txn = bid then
      let st := st.addLine buffer
      if sect = chr 'Z' ∧ st.cache ≠ [] ∧ st.txn ≠ [] then
        { st.sendMsg v with cache := [], txn := [], txn_start := none }
      else st
    else if st.cache ≠ [] then st.addLine buffer
    else st
  | none => if st.txn ≠ [] then st.addLine buffer else st

/-- Another notion of a position. -/
def map (f : P → Q) (st : Modsec P) : Modsec Q :=
  { cache := st.cache, txn := st.txn, txn_start := st.txn_start.map f, sent := st.sent }

end Modsec

/-- A monitored file, and what was sent of it. -/
structure ModsecFile where
  fp : Tail := {}
  skip_to_nl : Bool := false
  sent : List (List Bytes) := []

/-- The loop of `read_modsec_audit`: what is collected, the position, and whether the rest of a line
is still to be discarded. -/
def readModsecLoop (v : Visit) :
    ℕ → ℕ → Tail → Modsec Tail → Tail → Option (Modsec Tail × Tail × Bool)
  | 0, _, _, _, _ => none
  | fuel + 1, lines_read, offset, st, fp =>
    match logrConsumeLine v lines_read with
    | none => some (st, fp, false)
    | some lines_read =>
      let (buffer, fp) := fgetsNoNul OS_MAXSTR fp
      if buffer = [] then some (st, fp, false)
      else if chr '\n' ∈ buffer then
        let buffer := buffer.dropLast
        if buffer = [] ∧ st.cache = [] then readModsecLoop v fuel lines_read fp st fp
        else readModsecLoop v fuel lines_read fp (st.processLine v offset buffer) fp
      else if buffer.length = OS_MAXSTR - 1 then
        match drainLoop v OS_MAXSTR (fp.unread.length + 1) lines_read fp with
        | none => none
        | some (.newline, lines_read, fp) => readModsecLoop v fuel lines_read fp st fp
        | some (_, _, fp) => some (st, fp, true)
      else some (st, offset, false)

/-- The end of a visit: an incomplete transaction is rewound to its start. -/
def ModsecFile.finish : Modsec Tail × Tail × Bool → ModsecFile
  | (st, fp, skip_to_nl) =>
    { fp := if st.cache ≠ [] then st.txn_start.getD fp else fp, skip_to_nl, sent := st.sent }

/-- `read_modsec_audit` -/
def readModsecAudit (v : Visit) (s : ModsecFile) : Option ModsecFile :=
  -- the position is taken before the rest of a line is discarded
  let offset := s.fp
  if s.skip_to_nl then
    match drainLoop v (OS_MAXSTR - OS_LOG_HEADER) (s.fp.unread.length + 1) 0 s.fp with
    | none => none
    | some (.newline, lines_read, fp) =>
      (readModsecLoop v (fp.unread.length + 1) lines_read offset { sent := s.sent } fp).map
        ModsecFile.finish
    | some (_, _, fp) => some { s with fp }
  else
    (readModsecLoop v (s.fp.unread.length + 1) 0 offset { sent := s.sent } s.fp).map
      ModsecFile.finish

/-- The writer adds a piece, or the file is visited, with a budget of lines or, for 0, without. -/
inductive ModsecEvent
  | append (piece : Bytes)
  | poll (max_lines : ℕ)

def ModsecFile.Step (s : ModsecFile) : ModsecEvent → ModsecFile → Prop
  | .append piece, s' => s' = { s with fp := s.fp.append piece }
  | .poll max_lines, s' => readModsecAudit ⟨max_lines, false⟩ s = some s'

/-! ## Lines -/

/-- A line that does not fit in the buffer is passed over. -/
def MODSEC_LINE : ℕ := OS_MAXSTR - 1

/-- What a line does; its position is its number. -/
def feed (v : Visit) (i : ℕ) (st : Modsec ℕ) (line : Bytes) : Modsec ℕ :=
  if MODSEC_LINE ≤ line.length then st
  else if line = [] ∧ st.cache = [] then st
  else st.processLine v i (line.map noNul)

/-- What the lines from number `i` on do. -/
def feedAll (v : Visit) : ℕ → Modsec ℕ → List Bytes → Modsec ℕ
  | _, st, [] => st
  | i, st, line :: lines => feedAll v (i + 1) (feed v i st line) lines

/-- The reads that a line takes. -/
def modsecCost (line : Bytes) : ℕ :=
  if line.length < MODSEC_LINE then 1 else 1 + ((line.length - MODSEC_LINE) / MODSEC_LINE + 1)

def modsecReads (lines : List Bytes) : ℕ := (lines.map modsecCost).sum

/-- The budget is not spent after `n` reads. -/
def Visit.Goes (v : Visit) (n : ℕ) : Prop := v.max_lines = 0 ∨ n < v.max_lines

/-- The visit does not stop in a line that is too long. -/
structure Whole (v : Visit) (n : ℕ) (text : Bytes) : Prop where
  short : v.Goes (n + modsecReads (frames (chr '\n') text)) →
    (rest (chr '\n') text).length < MODSEC_LINE
  whole : ∀ i line, (frames (chr '\n') text)[i]? = some line → MODSEC_LINE ≤ line.length →
    v.Goes (n + modsecReads ((frames (chr '\n') text).take i)) →
      v.max_lines = 0 ∨
        n + modsecReads ((frames (chr '\n') text).take (i + 1)) ≤ v.max_lines

/-- The visits that do not stop in a line that is too long. -/
def ModsecFile.Meets (s : ModsecFile) : ModsecEvent → Prop
  | .append _ => True
  | .poll max_lines => Whole ⟨max_lines, false⟩ 0 s.fp.unread

def ModsecFile.GoodStep (s : ModsecFile) (e : ModsecEvent) (s' : ModsecFile) : Prop :=
  s.Step e s' ∧ s.Meets e

variable {v : Visit} {n k : ℕ} {l r text tail read : Bytes} {todo done lines : List Bytes}
  {fp : Tail}

/-- A message begins with the first line. -/
theorem modsecMessage_ne_nil {lines : List Bytes} (hne : l ≠ []) (hlen : l.length + 1 < OS_MAXSTR) :
    modsecMessage (l :: lines) ≠ [] := by
  have hkeep : ∀ (lines : List Bytes) (message : Bytes), message ≠ [] → lines.foldl
      (fun message line =>
        if message.length + line.length + 1 < OS_MAXSTR then
          if message = [] then line else message ++ chr ' ' :: line
        else message) message ≠ [] := by
    intro lines
    induction lines with
    | nil => exact fun _ h => h
    | cons line lines ih =>
      intro message hmessage
      rw [foldl_cons]
      apply ih
      split_ifs
      · exact append_ne_nil_of_left_ne_nil hmessage _
      · exact hmessage
  rw [modsecMessage, foldl_cons]
  apply hkeep
  rw [if_pos (by rw [length_nil, zero_add]; exact hlen), if_pos rfl]
  exact hne

/-! ## Positions -/

namespace Modsec

variable {P Q : Type} {f : P → Q} {st : Modsec P}

/-- What a line does is the same wherever it is. -/
theorem processLine_map (v : Visit) (f : P → Q) (offset : P) (st : Modsec P) (buffer : Bytes) :
    (st.processLine v offset buffer).map f = (st.map f).processLine v (f offset) buffer := by
  have hadd : (st.addLine buffer).map f = (st.map f).addLine buffer := by
    rw [addLine, addLine, show (st.map f).cache = st.cache from rfl]
    split_ifs
    · rfl
    · rfl
  have hsend : ∀ st : Modsec P, (st.sendMsg v).sent = ((st.map f).sendMsg v).sent := by
    intro st
    rw [sendMsg, sendMsg, show (st.map f).cache = st.cache from rfl]
    split_ifs
    · rfl
    · rfl
  rw [processLine.eq_def, processLine.eq_def]
  cases parseModsecBoundary buffer with
  | none =>
    show (if st.txn ≠ [] then _ else _ : Modsec P).map f = if st.txn ≠ [] then _ else _
    split_ifs
    · exact hadd
    · rfl
  | some boundary =>
    obtain ⟨bid, sect⟩ := boundary
    dsimp only
    rw [show (st.map f).cache = st.cache from rfl, show (st.map f).txn = st.txn from rfl, ← hadd,
      show ((st.addLine buffer).map f).cache = (st.addLine buffer).cache from rfl,
      show ((st.addLine buffer).map f).txn = (st.addLine buffer).txn from rfl, ← hsend]
    split_ifs
    · rfl
    · rfl
    · rfl
    · rfl
    · rfl

end Modsec

/-- A reader of whole lines, behind the first `i` of them. -/
def lineStart (read : Bytes) (lines : List Bytes) (tail : Bytes) (i : ℕ) : Tail :=
  ⟨read ++ unlines (lines.take i), unlines (lines.drop i) ++ tail⟩

theorem bytes_lineStart (read : Bytes) (lines : List Bytes) (tail : Bytes) (i : ℕ) :
    (lineStart read lines tail i).bytes = read ++ (unlines lines ++ tail) := by
  have hlines : unlines lines = unlines (lines.take i) ++ unlines (lines.drop i) := by
    rw [← unlines_append, take_append_drop]
  rw [Tail.bytes, lineStart, hlines]
  simp only [append_assoc]

theorem lineStart_done (read : Bytes) (done todo : List Bytes) (tail : Bytes) :
    lineStart read (done ++ todo) tail done.length =
      ⟨read ++ unlines done, unlines todo ++ tail⟩ := by
  rw [lineStart, take_left, drop_left]

theorem lineStart_succ (read : Bytes) (done : List Bytes) (line : Bytes) (todo : List Bytes)
    (tail : Bytes) : lineStart read (done ++ line :: todo) tail (done.length + 1) =
      ⟨(read ++ unlines done) ++ (line ++ [chr '\n']), unlines todo ++ tail⟩ := by
  have hcons : done ++ line :: todo = (done ++ [line]) ++ todo := by simp
  have hlen : done.length + 1 = (done ++ [line]).length := by simp
  rw [hcons, hlen, lineStart_done, unlines_append, unlines_cons, unlines_nil, append_assoc]

/-! ## Whole lines -/

theorem modsecReads_cons (line : Bytes) (lines : List Bytes) :
    modsecReads (line :: lines) = modsecCost line + modsecReads lines := sum_cons

theorem goes_of_consume (hdrop : v.drop_it = false) (h : logrConsumeLine v n = some k) :
    v.Goes n := by
  by_cases hzero : v.max_lines = 0
  · exact .inl hzero
  · exact .inr (consume_limited h ⟨hdrop, hzero⟩).1

/-- A line has been read. -/
theorem Whole.line (h : Whole v n (l ++ chr '\n' :: r)) (hl : chr '\n' ∉ l)
    (hk : v.max_lines = 0 ∨ k = n + modsecCost l) : Whole v k r := by
  have hframes := frames_append_cons (c := chr '\n') (r := r) hl
  have hgoes : ∀ m, v.Goes (k + m) → v.Goes (n + (modsecCost l + m)) := by
    intro m hm
    obtain hzero | rfl := hk
    · exact .inl hzero
    · rwa [add_assoc] at hm
  exact {
    short := fun hend => by
      have hall := h.short (by rw [hframes, modsecReads_cons]; exact hgoes _ hend)
      rwa [rest_append_cons hl] at hall
    whole := fun i line hi hlong hend => by
      have hall := h.whole (i + 1) line (by rw [hframes]; exact hi) hlong
        (by rw [hframes, take_succ_cons, modsecReads_cons]; exact hgoes _ hend)
      rw [hframes, take_succ_cons, modsecReads_cons] at hall
      obtain hzero | rfl := hk
      · exact .inl hzero
      · exact hall.imp_right fun hle => by rwa [add_assoc] }

theorem exists_consume (v : Visit) (hgoes : v.Goes n) :
    ∃ k, logrConsumeLine v n = some k ∧ (v.max_lines = 0 ∨ k ≤ n + 1) := by
  rw [logrConsumeLine]
  split_ifs with hlim hspent
  · obtain hzero | hlt := hgoes
    · exact absurd hzero hlim.2
    · exact absurd hspent (not_le.mpr hlt)
  · exact ⟨n + 1, rfl, .inr le_rfl⟩
  · exact ⟨n, rfl, .inr (Nat.le_succ n)⟩

/-- The rest of a line is discarded, when the budget is large enough. -/
theorem drainLoop_within {size fuel : ℕ} {m : Bytes} (hsize : 1 < size) (hm : chr '\n' ∉ m)
    (h : fp.unread = m ++ chr '\n' :: r) (hfuel : fp.unread.length < fuel)
    (hwithin : v.max_lines = 0 ∨ n + (m.length / (size - 1) + 1) ≤ v.max_lines) :
    ∃ k, drainLoop v size fuel n fp = some (.newline, k, ⟨fp.read ++ (m ++ [chr '\n']), r⟩) := by
  induction fuel generalizing n fp m with
  | zero => cases hfuel
  | succ fuel ih =>
    have hgoes : v.Goes n := by
      obtain hzero | hle := hwithin
      · exact .inl hzero
      · exact .inr ((Nat.lt_add_of_pos_right (Nat.succ_pos _)).trans_le hle)
    obtain ⟨n', hconsume, hle⟩ := exists_consume v hgoes
    rw [drainLoop, hconsume]
    dsimp only
    by_cases hlen : m.length < size - 1
    case pos =>
      have hmem := @newline_mem_line m
      rw [fgetsNoNul, Tail.getLine_line hm hlen h, if_neg (ne_nil_of_mem hmem), if_pos hmem]
      exact ⟨n', rfl⟩
    case neg =>
      -- a piece of the line, and the rest of it by induction
      have hlen := not_lt.mp hlen
      have hfirst : chr '\n' ∉ m.take (size - 1) := fun hmem => hm (mem_of_mem_take hmem)
      have hsplit : fp.unread = m.take (size - 1) ++ (m.drop (size - 1) ++ chr '\n' :: r) := by
        rw [← append_assoc, take_append_drop, h]
      have hne : m.take (size - 1) ≠ [] := by
        refine ne_nil_of_length_pos ?_
        rw [length_take]
        omega
      rw [fgetsNoNul, Tail.getLine_full hfirst (length_take_of_le hlen) hsplit,
        if_neg (by simpa using hne), if_neg fun hmem => hfirst (newline_mem_map_noNul.mp hmem)]
      have hdiv : m.length / (size - 1) = (m.length - (size - 1)) / (size - 1) + 1 :=
        Nat.div_eq_sub_div (by omega) hlen
      rw [h, length_append, length_cons] at hfuel
      obtain ⟨k, hloop⟩ := @ih n' ⟨fp.read ++ m.take (size - 1), m.drop (size - 1) ++ chr '\n' :: r⟩
        (m.drop (size - 1)) (fun hmem => hm (mem_of_mem_drop hmem)) rfl
        (by simp only [length_append, length_drop, length_cons]; omega)
        (by
          rw [length_drop]
          obtain hzero | hwithin := hwithin
          · exact .inl hzero
          · exact hle.imp_right fun hle => by omega)
      refine ⟨k, ?_⟩
      rw [hloop]
      rw [append_assoc, ← append_assoc (m.take (size - 1)), take_append_drop]

/-! ## A visit -/

theorem lt_buffer : 1 < OS_MAXSTR := by decide

/-- A line in front of the reader. -/
theorem readModsecLoop_line {st : Modsec Tail} {offset : Tail} {fuel : ℕ} (hl : chr '\n' ∉ l)
    (hsplit : fp.unread = l ++ chr '\n' :: r) (hconsume : logrConsumeLine v n = some k)
    (hlen : l.length < MODSEC_LINE) :
    readModsecLoop v (fuel + 1) n offset st fp =
      readModsecLoop v fuel k ⟨fp.read ++ (l ++ [chr '\n']), r⟩
        (if l = [] ∧ st.cache = [] then st else st.processLine v offset (l.map noNul))
        ⟨fp.read ++ (l ++ [chr '\n']), r⟩ := by
  have hmem := @newline_mem_line l
  have hdrop : ((l ++ [chr '\n']).map noNul).dropLast = l.map noNul := by
    rw [map_append, map_singleton, dropLast_concat]
  have hget : fp.getLine (OS_MAXSTR - 1) = _ := Tail.getLine_line hl hlen hsplit
  rw [readModsecLoop, hconsume]
  dsimp only
  rw [fgetsNoNul, hget, if_neg (ne_nil_of_mem hmem), if_pos hmem, hdrop]
  by_cases hblank : l = [] ∧ st.cache = []
  case pos => rw [if_pos hblank, if_pos ⟨map_eq_nil_iff.mpr hblank.1, hblank.2⟩]
  case neg =>
    rw [if_neg hblank, if_neg fun h => hblank ⟨map_eq_nil_iff.mp h.1, h.2⟩]

/-- A line that does not fit is passed over. -/
theorem readModsecLoop_long {st : Modsec Tail} {offset : Tail} {fuel : ℕ}
    (hdrop : v.drop_it = false) (hl : chr '\n' ∉ l)
    (hsplit : fp.unread = l ++ chr '\n' :: r) (hconsume : logrConsumeLine v n = some k)
    (hlen : MODSEC_LINE ≤ l.length)
    (hwithin : v.max_lines = 0 ∨ n + modsecCost l ≤ v.max_lines) :
    ∃ k', readModsecLoop v (fuel + 1) n offset st fp =
        readModsecLoop v fuel k' ⟨fp.read ++ (l ++ [chr '\n']), r⟩ st
          ⟨fp.read ++ (l ++ [chr '\n']), r⟩ ∧
      (v.max_lines = 0 ∨ k' = n + modsecCost l) := by
  have hfirst : chr '\n' ∉ l.take MODSEC_LINE := fun hmem => hl (mem_of_mem_take hmem)
  have hpiece : fp.unread = l.take MODSEC_LINE ++ (l.drop MODSEC_LINE ++ chr '\n' :: r) := by
    rw [← append_assoc, take_append_drop, hsplit]
  have hne : l.take MODSEC_LINE ≠ [] := by
    refine ne_nil_of_length_pos ?_
    rw [length_take_of_le hlen]
    decide
  have hcost : modsecCost l = 1 + ((l.drop MODSEC_LINE).length / (OS_MAXSTR - 1) + 1) := by
    rw [modsecCost, if_neg (not_lt.mpr hlen), length_drop]
    rfl
  have hrest : chr '\n' ∉ l.drop MODSEC_LINE := fun hmem => hl (mem_of_mem_drop hmem)
  -- the first read is counted, and those that discard the rest
  have hk : v.max_lines = 0 ∨ k = n + 1 := by
    by_cases hzero : v.max_lines = 0
    · exact .inl hzero
    · exact .inr (consume_limited hconsume ⟨hdrop, hzero⟩).2
  obtain ⟨k', hdrain⟩ := @drainLoop_within v k r
    ⟨fp.read ++ l.take MODSEC_LINE, l.drop MODSEC_LINE ++ chr '\n' :: r⟩ OS_MAXSTR
    ((l.drop MODSEC_LINE ++ chr '\n' :: r).length + 1) (l.drop MODSEC_LINE) lt_buffer hrest rfl
    (Nat.lt_succ_self _)
    (by
      obtain hzero | rfl := hk
      · exact .inl hzero
      · exact hwithin.imp_right fun hle => by omega)
  refine ⟨k', ?_, ?_⟩
  · have hget : fp.getLine (OS_MAXSTR - 1) = _ :=
      Tail.getLine_full hfirst (length_take_of_le hlen) hpiece
    rw [readModsecLoop, hconsume]
    dsimp only
    rw [fgetsNoNul, hget, if_neg (by simpa using hne),
      if_neg fun hmem => hfirst (newline_mem_map_noNul.mp hmem),
      if_pos (by rw [length_map, length_take_of_le hlen]; rfl), hdrain]
    rw [append_assoc, ← append_assoc (l.take MODSEC_LINE), take_append_drop]
  · by_cases hzero : v.max_lines = 0
    · exact .inl hzero
    · have hcount := drainLoop_newline lt_buffer hrest rfl hdrain ⟨hdrop, hzero⟩
      have hk := hk.resolve_left hzero
      exact .inr (by omega)

/-- The loop reads some of the lines that end, and does what they do; all of them, as long as the
budget is not spent. -/
theorem readModsecLoop_spec {fuel : ℕ} {st : Modsec ℕ} (hdrop : v.drop_it = false)
    (hlines : ∀ l ∈ todo, chr '\n' ∉ l) (htail : chr '\n' ∉ tail)
    (hwhole : Whole v n (unlines todo ++ tail)) (hfuel : (unlines todo ++ tail).length < fuel)
    (hat : lines = done ++ todo) :
    ∃ i ≤ todo.length, (v.Goes (n + modsecReads (todo.take i)) → i = todo.length) ∧
      readModsecLoop v fuel n (lineStart read lines tail done.length)
          (st.map (lineStart read lines tail)) (lineStart read lines tail done.length) =
        some ((feedAll v done.length st (todo.take i)).map (lineStart read lines tail),
          lineStart read lines tail (done.length + i), false) := by
  induction todo generalizing n fuel st done with
  | nil =>
    refine ⟨0, le_rfl, fun _ => rfl, ?_⟩
    obtain rfl : lines = done := by rw [hat, append_nil]
    rw [unlines_nil, nil_append] at hwhole hfuel
    have hsame : lineStart read lines tail lines.length = ⟨read ++ unlines lines, tail⟩ := by
      have hdone := lineStart_done read lines [] tail
      rwa [append_nil, unlines_nil, nil_append] at hdone
    cases fuel with
    | zero => cases hfuel
    | succ fuel =>
      rw [readModsecLoop, take_nil, feedAll]
      cases hconsume : logrConsumeLine v n with
      | none => rfl
      | some k =>
        -- the last line has no end yet: it is read again
        have hlen : tail.length < OS_MAXSTR - 1 := by
          have hshort := hwhole.short
          rw [frames_of_notMem htail, rest_of_notMem htail] at hshort
          exact hshort (goes_of_consume hdrop hconsume)
        have hget := @Tail.getLine_unfinished (OS_MAXSTR - 1)
          (lineStart read lines tail lines.length) tail htail hlen (by rw [hsame])
        rw [fgetsNoNul, hget]
        dsimp only
        by_cases hnil : tail = []
        case pos =>
          rw [if_pos (by rw [hnil]; rfl), hnil, append_nil, add_zero]
          rw [hnil] at hsame
          rw [hsame]
        case neg =>
          rw [if_neg (by simpa using hnil),
            if_neg fun hmem => htail (newline_mem_map_noNul.mp hmem),
            if_neg (by rw [length_map]; exact ne_of_lt hlen)]
          rfl
  | cons l todo ih =>
    have hl : chr '\n' ∉ l := hlines l mem_cons_self
    rw [unlines_cons, append_assoc, cons_append] at hwhole hfuel
    cases fuel with
    | zero => cases hfuel
    | succ fuel =>
      have hhere : lineStart read lines tail done.length =
          ⟨read ++ unlines done, l ++ chr '\n' :: (unlines todo ++ tail)⟩ := by
        rw [hat, lineStart_done, unlines_cons, append_assoc, cons_append]
      have hnext : lineStart read lines tail (done.length + 1) =
          ⟨(read ++ unlines done) ++ (l ++ [chr '\n']), unlines todo ++ tail⟩ := by
        rw [hat, lineStart_succ]
      cases hconsume : logrConsumeLine v n with
      | none =>
        refine ⟨0, Nat.zero_le _, fun hgoes => ?_, ?_⟩
        · obtain ⟨k, hk, -⟩ := exists_consume v hgoes
          rw [take_zero, show modsecReads [] = 0 from rfl, add_zero, hconsume] at hk
          cases hk
        · rw [readModsecLoop, hconsume]
          rfl
      | some k =>
        -- what the line does, and the reads that it takes
        obtain ⟨k', hstep, hk'⟩ : ∃ k', readModsecLoop v (fuel + 1) n
            (lineStart read lines tail done.length) (st.map (lineStart read lines tail))
            (lineStart read lines tail done.length) =
          readModsecLoop v fuel k' (lineStart read lines tail (done.length + 1))
            ((feed v done.length st l).map (lineStart read lines tail))
            (lineStart read lines tail (done.length + 1)) ∧
          (v.max_lines = 0 ∨ k' = n + modsecCost l) := by
          by_cases hlen : l.length < MODSEC_LINE
          case pos =>
            refine ⟨k, ?_, ?_⟩
            · have hfeed : (feed v done.length st l).map (lineStart read lines tail) =
                  if l = [] ∧ st.cache = [] then st.map (lineStart read lines tail)
                  else (st.map (lineStart read lines tail)).processLine v
                    (lineStart read lines tail done.length) (l.map noNul) := by
                rw [feed, if_neg (not_le.mpr hlen), ← Modsec.processLine_map]
                split_ifs
                · rfl
                · rfl
              rw [hfeed, hnext]
              have hline := @readModsecLoop_line v n k l (unlines todo ++ tail)
                (lineStart read lines tail done.length) (st.map (lineStart read lines tail))
                (lineStart read lines tail done.length) fuel hl (by rw [hhere]) hconsume hlen
              rw [show (lineStart read lines tail done.length).read = read ++ unlines done by
                rw [hhere]] at hline
              exact hline
            · rw [modsecCost, if_pos hlen]
              by_cases hzero : v.max_lines = 0
              · exact .inl hzero
              · exact .inr (consume_limited hconsume ⟨hdrop, hzero⟩).2
          case neg =>
            have hwithin := hwhole.whole 0 l (by rw [frames_append_cons hl]; rfl) (not_lt.mp hlen)
              (goes_of_consume hdrop hconsume)
            rw [frames_append_cons hl, take_succ_cons, take_zero, modsecReads_cons] at hwithin
            obtain ⟨k', hlong, hk'⟩ := @readModsecLoop_long v n k l (unlines todo ++ tail)
              (lineStart read lines tail done.length) (st.map (lineStart read lines tail))
              (lineStart read lines tail done.length) fuel hdrop hl (by rw [hhere]) hconsume
              (not_lt.mp hlen) hwithin
            refine ⟨k', ?_, hk'⟩
            rw [feed, if_pos (not_lt.mp hlen), hlong, hnext, hhere]
        rw [length_append, length_cons] at hfuel
        obtain ⟨i, hi, hall, hloop⟩ := @ih k' (done ++ [l]) fuel (feed v done.length st l)
          (fun l' hl' => hlines l' (mem_cons_of_mem _ hl')) (hwhole.line hl hk')
          (by omega) (by rw [hat, append_assoc]; rfl)
        rw [length_append, length_singleton] at hloop
        refine ⟨i + 1, Nat.succ_le_succ hi, fun hgoes => congrArg (· + 1) (hall ?_), ?_⟩
        · rw [take_succ_cons, modsecReads_cons, ← add_assoc] at hgoes
          exact hk'.elim .inl fun hk' => hk' ▸ hgoes
        rw [hstep, hloop, take_succ_cons, feedAll, add_assoc, add_comm 1 i]

/-- **A visit** to a file, of which the reader has whole lines in front of it. -/
theorem readModsecAudit_spec {s : ModsecFile} (hdrop : v.drop_it = false)
    (hskip : s.skip_to_nl = false) (hlines : ∀ l ∈ lines, chr '\n' ∉ l) (htail : chr '\n' ∉ tail)
    (hunread : s.fp.unread = unlines lines ++ tail) (hwhole : Whole v 0 s.fp.unread) :
    ∃ i ≤ lines.length, (v.Goes (modsecReads (lines.take i)) → i = lines.length) ∧
      readModsecAudit v s = some (ModsecFile.finish
        ((feedAll v 0 { sent := s.sent } (lines.take i)).map (lineStart s.fp.read lines tail),
          lineStart s.fp.read lines tail i, false)) := by
  have hstart : lineStart s.fp.read lines tail 0 = s.fp := by
    rw [lineStart, take_zero, drop_zero, unlines_nil, append_nil, ← hunread]
  rw [hunread] at hwhole
  obtain ⟨i, hi, hall, hloop⟩ := @readModsecLoop_spec v 0 tail s.fp.read lines [] lines
    (s.fp.unread.length + 1) { sent := s.sent } hdrop hlines htail hwhole
    (by rw [hunread]; exact Nat.lt_succ_self _) rfl
  rw [length_nil, hstart, zero_add] at hloop
  refine ⟨i, hi, by rwa [zero_add] at hall, ?_⟩
  rw [readModsecAudit, hskip]
  rw [if_neg Bool.false_ne_true]
  show (readModsecLoop v _ 0 s.fp { sent := s.sent } s.fp).map ModsecFile.finish = _
  rw [show ({ sent := s.sent } : Modsec Tail) =
    Modsec.map (lineStart s.fp.read lines tail) { sent := s.sent } from rfl, hloop]
  rfl

end Logcollector
