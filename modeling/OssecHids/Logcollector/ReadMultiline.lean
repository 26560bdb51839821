import OssecHids.Lib.Chunks
import OssecHids.Lib.Transition
import OssecHids.Logcollector.LogrFgets

/-!
# Log files of several lines an event

`read_multiline` sends groups of `N` lines. A group that cannot be completed yet is read again from
its start, but only when its last line is not complete or the budget of the visit is spent.

- `readMultiline`: a visit;
- `Meets`: the visits that lose and mix up nothing;
- `Gathers.step`, `readMultilineLoop_spec`: a line joins its group; the loop;
- `readMultiline_law`: the groups are sent one after the other.
-/

open CString Transition Framing Chunks List

namespace Logcollector

/-- The bytes of a line that one read returns. -/
def MULTILINE_CHUNK : ℕ := OS_MAXSTR - OS_LOG_HEADER - 1

/-- A line is appended to the buffer, behind a space, as far as there is room. -/
def appendLine (buffer str : Bytes) : Bytes :=
  let buffer := if buffer ≠ [] ∧ buffer.length < OS_MAXSTR then buffer ++ [chr ' '] else buffer
  if buffer.length ≥ OS_MAXSTR then buffer
  else buffer ++ str.take (OS_MAXSTR - buffer.length)

/-- A monitored file, and what was sent of it. -/
structure MultilineFile where
  fp : Tail := {}
  skip_to_nl : Bool := false
  sent : List Bytes := []

def MultilineFile.send (s : MultilineFile) (v : Visit) (buffer : Bytes) : MultilineFile :=
  if v.drop_it then s else { s with sent := s.sent ++ [buffer] }

/-- The loop of `read_multiline`; `fp_pos` is the position of the group. -/
def readMultilineLoop (v : Visit) (linecount : ℕ) :
    ℕ → ℕ → ℕ → Bytes → Bool → Tail → MultilineFile → Option MultilineFile
  | 0, _, _, _, _, _, _ => none
  | fuel + 1, lines_read, linesgot, buffer, ms, fp_pos, s =>
    match logrConsumeLine v lines_read with
    | none =>
      -- the budget cut an incomplete group: retry from its start
      some (if 0 < linesgot ∧ linesgot < linecount then { s with fp := fp_pos } else s)
    | some lines_read =>
      let (str, fp) := fgetsNoNul (OS_MAXSTR - OS_LOG_HEADER) s.fp
      if str = [] then some s
      else if chr '\n' ∉ str ∧ str.length < OS_MAXSTR - OS_LOG_HEADER - 2 then
        some { s with fp := fp_pos }
      else
        let ms := if chr '\n' ∈ str then ms else true
        let str := if chr '\n' ∈ str then str.dropLast else str
        let buffer := appendLine buffer str
        let s := { s with fp }
        if linesgot + 1 < linecount then
          readMultilineLoop v linecount fuel lines_read (linesgot + 1) buffer ms fp_pos s
        else
          let s := s.send v buffer
          if ms then
            match drainLoop v (OS_MAXSTR - 2) (fp.unread.length + 1) lines_read fp with
            | none => none
            | some (.budget, _, fp) => some { s with fp, skip_to_nl := true }
            | some (_, lines_read, fp) =>
              readMultilineLoop v linecount fuel lines_read 0 [] false fp { s with fp }
          else readMultilineLoop v linecount fuel lines_read 0 [] false fp s

/-- `logr_fdrain_to_newline` -/
def logrFdrainToNewline (v : Visit) (lines_read : ℕ) (fp : Tail) : Option (Drained × ℕ × Tail) :=
  drainLoop v (OS_MAXSTR - OS_LOG_HEADER) (fp.unread.length + 1) lines_read fp

/-- `read_multiline` -/
def readMultiline (v : Visit) (linecount : ℕ) (s : MultilineFile) : Option MultilineFile :=
  if s.skip_to_nl then
    match logrFdrainToNewline v 0 s.fp with
    | none => none
    | some (.newline, lines_read, fp) =>
      readMultilineLoop v linecount (fp.unread.length + 1) lines_read 0 [] false fp
        { s with fp, skip_to_nl := false }
    | some (_, _, fp) => some { s with fp }
  else readMultilineLoop v linecount (s.fp.unread.length + 1) 0 0 [] false s.fp s

/-- The writer adds a piece, or the file is visited, with a budget of lines or, for 0, without. -/
inductive MultilineEvent
  | append (piece : Bytes)
  | poll (max_lines : ℕ)

def MultilineFile.Step (linecount : ℕ) (s : MultilineFile) :
    MultilineEvent → MultilineFile → Prop
  | .append piece, s' => s' = { s with fp := s.fp.append piece }
  | .poll max_lines, s' => readMultiline ⟨max_lines, false⟩ linecount s = some s'

/-! ## What is to be sent -/

/-- The lines of a text, also a last one without an end if it is too long already. -/
def physicalLines (text : Bytes) : List Bytes :=
  frames (chr '\n') text ++
    if MULTILINE_CHUNK ≤ (rest (chr '\n') text).length then [rest (chr '\n') text] else []

/-- What is to be sent of a group of lines: their first bytes. -/
def message (group : List Bytes) : Bytes :=
  group.foldl (fun buffer line => appendLine buffer ((line.take MULTILINE_CHUNK).map noNul)) []

/-- What is to be sent of a text. -/
def expectedGroups (linecount : ℕ) (text : Bytes) : List Bytes :=
  (chunks linecount (physicalLines text)).map message

/-! ## The condition -/

/-- The reads that a line takes: one, and those that discard the rest of it. -/
def cost (line : Bytes) : ℕ :=
  if line.length < MULTILINE_CHUNK then 1
  else 1 + ((line.length - MULTILINE_CHUNK) / (OS_MAXSTR - 3) + 1)

def reads (lines : List Bytes) : ℕ := (lines.map cost).sum

/-- The budget is not spent after `n` reads. -/
def Visit.Left (v : Visit) (n : ℕ) : Prop := v.max_lines = 0 ∨ n < v.max_lines

/-- Nothing is lost of the text in front of the reader, when `n` reads are spent and `linesgot`
lines are gathered: the visit does not come to the end of the file between two lines of a group,
nor to a last line without an end that is too long; and a line that is too long is the last one of
its group. -/
structure Keeps (v : Visit) (linecount n linesgot : ℕ) (text : Bytes) : Prop where
  ended : rest (chr '\n') text = [] → v.Left (n + reads (frames (chr '\n') text)) →
    linecount ∣ linesgot + (frames (chr '\n') text).length
  short : v.Left (n + reads (frames (chr '\n') text)) →
    (rest (chr '\n') text).length < MULTILINE_CHUNK - 1
  last : ∀ i line, (frames (chr '\n') text)[i]? = some line → MULTILINE_CHUNK ≤ line.length →
    v.Left (n + reads ((frames (chr '\n') text).take i)) → linecount ∣ linesgot + i + 1

/-- The visits that lose and mix up nothing. -/
def MultilineFile.Meets (linecount : ℕ) (s : MultilineFile) : MultilineEvent → Prop
  | .append _ => True
  | .poll max_lines =>
    if s.skip_to_nl then
      ∀ m r, chr '\n' ∉ m → s.fp.unread = m ++ chr '\n' :: r →
        Keeps ⟨max_lines, false⟩ linecount (m.length / MULTILINE_CHUNK + 1) 0 r
    else Keeps ⟨max_lines, false⟩ linecount 0 0 s.fp.unread

def MultilineFile.GoodStep (linecount : ℕ) (s : MultilineFile) (e : MultilineEvent)
    (s' : MultilineFile) : Prop :=
  s.Step linecount e s' ∧ s.Meets linecount e

variable {v : Visit} {linecount n k : ℕ} {s s' : MultilineFile} {l r text : Bytes}

theorem Visit.Left.mono (h : v.Left n) (hle : k ≤ n) : v.Left k := h.imp_right hle.trans_lt

theorem left_of_consume (hdrop : v.drop_it = false) (h : logrConsumeLine v n = some k) :
    v.Left n := by
  by_cases hzero : v.max_lines = 0
  · exact .inl hzero
  · exact .inr (consume_limited h ⟨hdrop, hzero⟩).1

theorem left_succ (hdrop : v.drop_it = false) (h : logrConsumeLine v n = some k) {m : ℕ} :
    v.Left (k + m) ↔ v.Left (n + 1 + m) := by
  by_cases hzero : v.max_lines = 0
  · exact ⟨fun _ => .inl hzero, fun _ => .inl hzero⟩
  · rw [(consume_limited h ⟨hdrop, hzero⟩).2]

/-- A line has been read. -/
theorem Keeps.line {got k' : ℕ} (h : Keeps v linecount n got (l ++ chr '\n' :: r))
    (hl : chr '\n' ∉ l) (hleft : ∀ m, v.Left (k' + m) → v.Left (n + (cost l + m))) {got' : ℕ}
    (hgot : ∀ m, linecount ∣ got + (m + 1) → linecount ∣ got' + m) :
    Keeps v linecount k' got' r := by
  have hframes := frames_append_cons (c := chr '\n') (r := r) hl
  have hreads : ∀ ls, reads (l :: ls) = cost l + reads ls := fun ls => sum_cons
  exact {
    ended := fun hrest hend => by
      have hall := h.ended (by rw [rest_append_cons hl, hrest])
        (by rw [hframes, hreads]; exact hleft _ hend)
      rw [hframes, length_cons] at hall
      exact hgot _ hall
    short := fun hend => by
      have hall := h.short (by rw [hframes, hreads]; exact hleft _ hend)
      rwa [rest_append_cons hl] at hall
    last := fun i line hi hlong hend => by
      have hall := h.last (i + 1) line (by rw [hframes]; exact hi) hlong
        (by rw [hframes, take_succ_cons, hreads]; exact hleft _ hend)
      rw [add_assoc]
      exact hgot _ (by rwa [add_assoc] at hall) }

/-! ## Groups -/

theorem message_concat (group : List Bytes) (line : Bytes) :
    message (group ++ [line]) =
      appendLine (message group) ((line.take MULTILINE_CHUNK).map noNul) := by
  rw [message, foldl_append]
  rfl

theorem expectedGroups_append {text' : Bytes} {got : List Bytes} (hrest : rest (chr '\n') text = [])
    (hgroups : linecount ∣ (frames (chr '\n') text).length)
    (h : physicalLines text' = frames (chr '\n') text ++ got) :
    expectedGroups linecount text' =
      expectedGroups linecount text ++ (chunks linecount got).map message := by
  have htext : physicalLines text = frames (chr '\n') text := by
    rw [physicalLines, hrest, if_neg (by decide), append_nil]
  rw [expectedGroups, h, chunks_append hgroups, map_append, expectedGroups, htext]

theorem physicalLines_short (h : (rest (chr '\n') text).length < MULTILINE_CHUNK) :
    physicalLines text = frames (chr '\n') text := by
  rw [physicalLines, if_neg (not_le.mpr h), append_nil]

theorem physicalLines_long (h : MULTILINE_CHUNK ≤ (rest (chr '\n') text).length) :
    physicalLines text = frames (chr '\n') text ++ [rest (chr '\n') text] := by
  rw [physicalLines, if_pos h]

theorem multiline_chunk_pos : 0 < MULTILINE_CHUNK := by decide

/-- The lines that are gathered since the position of the group. -/
structure Gathers (linecount : ℕ) (fp_pos : Tail) (got : List Bytes) (s : MultilineFile) :
    Prop where
  bytes : s.fp.bytes = fp_pos.bytes
  whole : rest (chr '\n') fp_pos.read = []
  groups : linecount ∣ (frames (chr '\n') fp_pos.read).length
  frames_eq : frames (chr '\n') s.fp.read = frames (chr '\n') fp_pos.read ++ got
  rest_eq : rest (chr '\n') s.fp.read = []
  lt : got.length < linecount
  sent : s.sent = expectedGroups linecount fp_pos.read
  skip : s.skip_to_nl = false
  start : got = [] → s.fp = fp_pos
  le : fp_pos.read.length ≤ s.fp.read.length

/-- What was sent is what is to be sent of the text in front of the position. The position is where
a group begins, or in the last line of one, which is too long. -/
structure SendsGroups (linecount : ℕ) (s : MultilineFile) : Prop where
  sent : s.sent = expectedGroups linecount s.fp.read
  whole : s.skip_to_nl = false → rest (chr '\n') s.fp.read = [] ∧
    linecount ∣ (frames (chr '\n') s.fp.read).length
  long : s.skip_to_nl = true → MULTILINE_CHUNK ≤ (rest (chr '\n') s.fp.read).length ∧
    linecount ∣ (frames (chr '\n') s.fp.read).length + 1

/-- Everything that can be sent is sent. -/
def MultilineFile.CaughtUp (linecount : ℕ) (s : MultilineFile) : Prop :=
  s.sent = expectedGroups linecount s.fp.bytes

/-- What a visit does from the position of a group on. -/
structure VisitedGroups (v : Visit) (linecount n : ℕ) (got : List Bytes) (fp_pos : Tail)
    (s' : MultilineFile) : Prop where
  sends : SendsGroups linecount s'
  bytes : s'.fp.bytes = fp_pos.bytes
  le : fp_pos.read.length ≤ s'.fp.read.length
  caught : v.max_lines = 0 → s'.CaughtUp linecount
  moved : v.max_lines = 0 ∨ n ≤ got.length ∧ linecount ≤ v.max_lines →
    s'.CaughtUp linecount ∨ fp_pos.read.length < s'.fp.read.length

variable {fp_pos : Tail} {got : List Bytes}

theorem Gathers.back (h : Gathers linecount fp_pos got s) :
    SendsGroups linecount { s with fp := fp_pos } where
  sent := h.sent
  whole _ := ⟨h.whole, h.groups⟩
  long htrue := by
    rw [h.skip] at htrue
    cases htrue

theorem Gathers.caughtUp (h : Gathers linecount fp_pos got s) {fp : Tail}
    (hbytes : fp.bytes = fp_pos.bytes) (hnl : chr '\n' ∉ s.fp.unread)
    (hshort : s.fp.unread.length < MULTILINE_CHUNK) :
    MultilineFile.CaughtUp linecount { s with fp } := by
  have hsame : fp.bytes = s.fp.read ++ s.fp.unread := hbytes.trans h.bytes.symm
  have hrest : rest (chr '\n') fp.bytes = s.fp.unread := by
    rw [hsame, rest_append, h.rest_eq, nil_append, rest_of_notMem hnl]
  have hframes : frames (chr '\n') fp.bytes = frames (chr '\n') fp_pos.read ++ got := by
    rw [hsame, frames_append, h.rest_eq, nil_append, frames_of_notMem hnl, append_nil, h.frames_eq]
  have hlines : physicalLines fp.bytes = frames (chr '\n') fp_pos.read ++ got := by
    rw [physicalLines_short (by rw [hrest]; exact hshort), hframes]
  show s.sent = _
  rw [expectedGroups_append h.whole h.groups hlines, chunks_of_lt h.lt, h.sent]
  exact (append_nil _).symm

/-- A line joins its group. -/
theorem Gathers.line (h : Gathers linecount fp_pos got s) (hl : chr '\n' ∉ l)
    (hsplit : s.fp.unread = l ++ chr '\n' :: r) (hlt : got.length + 1 < linecount) :
    Gathers linecount fp_pos (got ++ [l])
      { s with fp := ⟨s.fp.read ++ (l ++ [chr '\n']), r⟩ } where
  bytes := by
    rw [← h.bytes]
    simp only [Tail.bytes, hsplit, append_assoc, cons_append, nil_append]
  whole := h.whole
  groups := h.groups
  frames_eq := by
    rw [Tail.frames_line h.rest_eq hl, h.frames_eq, append_assoc]
  rest_eq := Tail.rest_line _ _
  lt := by
    rw [length_append]
    exact hlt
  sent := h.sent
  skip := h.skip
  start hnil := absurd hnil (by simp)
  le := by
    rw [length_append]
    exact h.le.trans (Nat.le_add_right _ _)

/-- A group is complete, and the next one begins. -/
theorem Gathers.next {fp : Tail} (hpos : 0 < linecount) (h : Gathers linecount fp_pos got s)
    (hlen : got.length + 1 = linecount) (hbytes : fp.bytes = fp_pos.bytes)
    (hframes : frames (chr '\n') fp.read = frames (chr '\n') fp_pos.read ++ (got ++ [l]))
    (hrest : rest (chr '\n') fp.read = []) :
    Gathers linecount fp []
      { s with fp, sent := s.sent ++ [message (got ++ [l])] } where
  bytes := rfl
  whole := hrest
  groups := by
    rw [hframes, length_append, length_append, length_singleton, hlen]
    exact Nat.dvd_add h.groups (Nat.dvd_refl _)
  frames_eq := (append_nil _).symm
  rest_eq := hrest
  lt := hpos
  sent := by
    have hlines : physicalLines fp.read = frames (chr '\n') fp_pos.read ++ (got ++ [l]) := by
      rw [physicalLines_short (by rw [hrest]; exact multiline_chunk_pos), hframes]
    have hgroup : (got ++ [l]).length = linecount := by
      rw [length_append]
      exact hlen
    rw [expectedGroups_append h.whole h.groups hlines, chunks_of_length hpos hgroup, h.sent]
    rfl
  skip := h.skip
  start _ := rfl
  le := le_rfl

theorem VisitedGroups.next {n' : ℕ} {fp : Tail} (h : VisitedGroups v linecount n' [] fp s')
    (hbytes : fp.bytes = fp_pos.bytes) (hlt : fp_pos.read.length < fp.read.length) :
    VisitedGroups v linecount n got fp_pos s' where
  sends := h.sends
  bytes := h.bytes.trans hbytes
  le := hlt.le.trans h.le
  caught := h.caught
  moved _ := .inr (lt_of_lt_of_le hlt h.le)

theorem send_group (hdrop : v.drop_it = false) (buffer : Bytes) :
    s.send v buffer = { s with sent := s.sent ++ [buffer] } := by
  rw [MultilineFile.send, hdrop, if_neg Bool.false_ne_true]

theorem cost_short (h : l.length < MULTILINE_CHUNK) : cost l = 1 := if_pos h

theorem append_cons_inj {a : UInt8} {m m' r r' : Bytes} (hm : a ∉ m) (hm' : a ∉ m')
    (h : m ++ a :: r = m' ++ a :: r') : m = m' ∧ r = r' := by
  have hframes := congrArg (frames a) h
  rw [frames_append_cons hm, frames_append_cons hm'] at hframes
  obtain rfl := (List.cons.inj hframes).1
  exact ⟨rfl, (List.cons.inj (append_cancel_left h)).2⟩

/-- A line that does not fit is the last one of its group, and is sent as its first bytes. -/
theorem Gathers.long {fp : Tail} {str m : Bytes} (h : Gathers linecount fp_pos got s)
    (hlen : got.length + 1 = linecount) (hlong : str.length = MULTILINE_CHUNK)
    (hstr : chr '\n' ∉ str) (hm : chr '\n' ∉ m) (hbytes : fp.bytes = fp_pos.bytes)
    (hread : fp.read = s.fp.read ++ (str ++ m)) :
    SendsGroups linecount
      { s with fp, skip_to_nl := true, sent := s.sent ++ [message (got ++ [str])] } := by
  have hnot : chr '\n' ∉ str ++ m := not_mem_append hstr hm
  have hrest : rest (chr '\n') fp.read = str ++ m := by
    rw [hread, rest_append, h.rest_eq, nil_append, rest_of_notMem hnot]
  have hframes : frames (chr '\n') fp.read = frames (chr '\n') fp_pos.read ++ got := by
    rw [hread, frames_append, h.rest_eq, nil_append, frames_of_notMem hnot, append_nil, h.frames_eq]
  have hchunk : MULTILINE_CHUNK ≤ (rest (chr '\n') fp.read).length := by
    rw [hrest, length_append]
    omega
  have hlines : physicalLines fp.read =
      frames (chr '\n') fp_pos.read ++ (got ++ [str ++ m]) := by
    rw [physicalLines_long hchunk, hframes, hrest, append_assoc]
  have hgroup : (got ++ [str ++ m]).length = linecount := by
    rw [length_append]
    exact hlen
  have hsame : message (got ++ [str ++ m]) = message (got ++ [str]) := by
    rw [message_concat, message_concat, take_append_of_le_length hlong.ge]
  exact {
    sent := by
      rw [expectedGroups_append h.whole h.groups hlines,
        chunks_of_length (by omega) hgroup, map_singleton, hsame, h.sent]
    whole := fun hfalse => Bool.noConfusion hfalse
    long := fun _ => by
      refine ⟨hchunk, ?_⟩
      rw [hframes, length_append, add_assoc, hlen]
      exact Nat.dvd_add h.groups (Nat.dvd_refl _) }

/-- **The loop of a visit** that keeps all lines. -/
theorem readMultilineLoop_spec {fuel : ℕ} (hpos : 0 < linecount) (hdrop : v.drop_it = false)
    (hfuel : s.fp.unread.length < fuel) (h : Gathers linecount fp_pos got s)
    (hkeeps : Keeps v linecount n got.length s.fp.unread) :
    ∃ s', readMultilineLoop v linecount fuel n got.length (message got) false fp_pos s = some s' ∧
      VisitedGroups v linecount n got fp_pos s' := by
  induction fuel generalizing n got fp_pos s with
  | zero => cases hfuel
  | succ fuel ih =>
    have hlt := h.lt
    rw [readMultilineLoop]
    cases hconsume : logrConsumeLine v n with
    | none =>
      have hlim := limited_of_consume hconsume
      have hspent : v.max_lines ≤ n := by
        by_contra hnot
        rw [logrConsumeLine, if_pos ⟨by rw [hlim.1]; rfl, hlim.2⟩, if_neg (by omega)] at hconsume
        cases hconsume
      have hstate : (if 0 < got.length ∧ got.length < linecount then { s with fp := fp_pos }
          else s) = { s with fp := fp_pos } := by
        split_ifs with hgot
        · rfl
        · have hnil : got = [] := by
            rw [← length_eq_zero_iff]
            omega
          rw [← h.start hnil]
      refine ⟨_, rfl, ?_⟩
      rw [hstate]
      exact {
        sends := h.back
        bytes := rfl
        le := le_rfl
        caught := fun hzero => absurd hzero hlim.2
        moved := fun hbudget => by
          rcases hbudget with hzero | hbudget
          · exact absurd hzero hlim.2
          · omega }
    | some n' =>
      have hgot := Tail.got multiline_chunk_pos s.fp
      rw [fgetsNoNul, show OS_MAXSTR - OS_LOG_HEADER - 1 = MULTILINE_CHUNK from rfl]
      generalize hline : s.fp.getLine MULTILINE_CHUNK = res at hgot ⊢
      obtain ⟨str, fp⟩ := res
      dsimp only at hgot ⊢
      have hleft := left_of_consume hdrop hconsume
      cases hgot with
      | eof hnil =>
        -- the file does not end within a group
        have hall := hkeeps.ended (by rw [hnil]; rfl) (by rw [hnil]; exact hleft)
        rw [hnil, show frames (chr '\n') ([] : Bytes) = [] from rfl, length_nil,
          add_zero] at hall
        have hzero : got = [] := by
          rw [← length_eq_zero_iff]
          exact Nat.eq_zero_of_dvd_of_lt hall hlt
        have hback := h.back
        have hcaught := h.caughtUp h.bytes (by rw [hnil]; exact not_mem_nil)
          (by rw [hnil]; exact multiline_chunk_pos)
        rw [← h.start hzero] at hback
        rw [if_pos map_nil]
        exact ⟨_, rfl, {
          sends := hback
          bytes := h.bytes
          le := by rw [h.start hzero]
          caught := fun _ => hcaught
          moved := fun _ => .inl hcaught }⟩
      | line hl hlen hsplit =>
        rename_i l r
        have hmem := @newline_mem_line l
        have htext : ((l ++ [chr '\n']).map noNul).dropLast =
            (l.take MULTILINE_CHUNK).map noNul := by
          rw [map_append, map_singleton, dropLast_concat, take_of_length_le hlen.le]
        have hkeeps := hsplit ▸ hkeeps
        have hless : r.length < fuel := by
          rw [hsplit, length_append, length_cons] at hfuel
          omega
        have hbytes : Tail.bytes ⟨s.fp.read ++ (l ++ [chr '\n']), r⟩ = fp_pos.bytes := by
          rw [← h.bytes]
          simp only [Tail.bytes, hsplit, append_assoc, cons_append, nil_append]
        have hreads : ∀ m, v.Left (n' + m) → v.Left (n + (cost l + m)) := by
          intro m hm
          rw [cost_short hlen, ← add_assoc]
          exact (left_succ hdrop hconsume).mp hm
        rw [if_neg (ne_nil_of_mem hmem), if_neg fun hnot => hnot.1 hmem, if_pos hmem,
          if_pos hmem, htext, ← message_concat]
        by_cases hnext : got.length + 1 < linecount
        case pos =>
          rw [if_pos hnext]
          obtain ⟨s', hloop, hvisited⟩ := @ih n'
            { s with fp := ⟨s.fp.read ++ (l ++ [chr '\n']), r⟩ } fp_pos (got ++ [l]) hless
            (h.line hl hsplit hnext)
            (hkeeps.line hl hreads fun m hm => by
              rw [length_append, length_singleton, add_assoc, add_comm 1]
              exact hm)
          rw [length_append, length_singleton] at hloop
          refine ⟨s', hloop, { hvisited with moved := fun hbudget => hvisited.moved ?_ }⟩
          refine hbudget.imp_right fun hbudget => ⟨?_, hbudget.2⟩
          obtain ⟨hn, hle⟩ := hbudget
          rw [length_append, length_singleton]
          by_cases hzero : v.max_lines = 0
          · omega
          · rw [(consume_limited hconsume ⟨hdrop, hzero⟩).2]
            omega
        case neg =>
          have hfull : got.length + 1 = linecount := by omega
          rw [if_neg hnext, if_neg Bool.false_ne_true, send_group hdrop]
          have hframes := Tail.frames_line h.rest_eq hl
          rw [h.frames_eq, append_assoc] at hframes
          obtain ⟨s', hloop, hvisited⟩ := @ih n' _ ⟨s.fp.read ++ (l ++ [chr '\n']), r⟩ [] hless
            (h.next hpos hfull hbytes hframes (Tail.rest_line _ _))
            (hkeeps.line hl hreads fun m hm => by
              rw [add_comm m, ← add_assoc, hfull] at hm
              rw [length_nil, zero_add]
              exact (Nat.dvd_add_right (Nat.dvd_refl _)).mp hm)
          refine ⟨s', hloop, hvisited.next hbytes ?_⟩
          have hle := h.le
          simp only [length_append, length_singleton]
          omega
      | full hl hlen hsplit =>
        rename_i r
        have hne : str ≠ [] := ne_nil_of_length_pos (by rw [hlen]; exact multiline_chunk_pos)
        have hnl : chr '\n' ∉ str.map noNul := fun hmem => hl (newline_mem_map_noNul.mp hmem)
        have htext : str.map noNul = (str.take MULTILINE_CHUNK).map noNul := by
          rw [take_of_length_le hlen.le]
        have hend : chr '\n' ∈ r := by
          -- a last line that is too long is not reached
          by_contra hr
          have hnot : chr '\n' ∉ str ++ r := not_mem_append hl hr
          have hshort := hkeeps.short (by rw [hsplit, frames_of_notMem hnot]; exact hleft)
          rw [hsplit, rest_of_notMem hnot, length_append] at hshort
          omega
        obtain ⟨m, r', rfl, hm⟩ := eq_append_cons_of_mem hend
        have hlong : chr '\n' ∉ str ++ m := not_mem_append hl hm
        have hall : s.fp.unread = (str ++ m) ++ chr '\n' :: r' := by
          rw [hsplit, append_assoc]
        -- the line is the last one of its group
        have hfull : got.length + 1 = linecount := by
          have hlast := hkeeps.last 0 (str ++ m)
            (by rw [hall, frames_append_cons hlong]; rfl) (by rw [length_append]; omega) hleft
          rw [add_zero] at hlast
          exact le_antisymm hlt (Nat.le_of_dvd (Nat.succ_pos _) hlast)
        have hbytes₁ : Tail.bytes ⟨s.fp.read ++ str, m ++ chr '\n' :: r'⟩ = fp_pos.bytes := by
          rw [← h.bytes, Tail.bytes, Tail.bytes, hsplit, append_assoc]
        have hlonger : fp_pos.read.length < (s.fp.read ++ str).length := by
          have hle := h.le
          have hpos := multiline_chunk_pos
          rw [length_append]
          omega
        rw [if_neg (by simpa using hne), if_neg (by
            rw [not_and, length_map, hlen]
            exact fun _ => by decide), if_neg hnl, if_neg hnl, htext, ← message_concat,
          if_neg (by omega), if_pos rfl, send_group hdrop]
        obtain ⟨d, k, fp', hdrain, hdrains⟩ := @drainLoop_spec v (OS_MAXSTR - 2) n'
          ⟨s.fp.read ++ str, m ++ chr '\n' :: r'⟩ (by decide) _ (Nat.lt_succ_self _)
        obtain ⟨hle, hbytes⟩ := hdrains.le
        have hbytes := hbytes.trans hbytes₁
        rw [hdrain]
        cases d with
        | newline =>
          have hunread : (⟨s.fp.read ++ str, m ++ chr '\n' :: r'⟩ : Tail).unread =
              m ++ chr '\n' :: r' := rfl
          have hcount := drainLoop_newline (show 1 < OS_MAXSTR - 2 by decide) hm hunread hdrain
          obtain rfl : fp' = ⟨s.fp.read ++ (str ++ m ++ [chr '\n']), r'⟩ := by
            cases hdrains with
            | newline hm' hsame =>
              obtain ⟨rfl, rfl⟩ := append_cons_inj hm hm' hsame
              simp only [append_assoc]
          have hsame : message (got ++ [str]) = message (got ++ [str ++ m]) := by
            rw [message_concat, message_concat, take_append_of_le_length hlen.ge]
          have hframes : frames (chr '\n') (s.fp.read ++ (str ++ m ++ [chr '\n'])) =
              frames (chr '\n') fp_pos.read ++ (got ++ [str ++ m]) := by
            rw [Tail.frames_line h.rest_eq hlong, h.frames_eq, append_assoc]
          have hless : r'.length < fuel := by
            rw [hsplit, length_append, length_append, length_cons] at hfuel
            omega
          have hcost : cost (str ++ m) = 1 + (m.length / (OS_MAXSTR - 2 - 1) + 1) := by
            rw [cost, if_neg (by rw [length_append]; omega), length_append, hlen,
              Nat.add_sub_cancel_left]
            rfl
          obtain ⟨s', hloop, hvisited⟩ := @ih k _ ⟨s.fp.read ++ (str ++ m ++ [chr '\n']), r'⟩ []
            hless (h.next hpos hfull hbytes hframes (Tail.rest_line _ _))
            ((hall ▸ hkeeps).line hlong (fun x hx => by
              by_cases hzero : v.max_lines = 0
              · exact .inl hzero
              · have hlim := consume_limited hconsume ⟨hdrop, hzero⟩
                have hk := hcount ⟨hdrop, hzero⟩
                exact hx.mono (by omega)) fun x hx => by
              rw [add_comm x, ← add_assoc, hfull] at hx
              rw [length_nil, zero_add]
              exact (Nat.dvd_add_right (Nat.dvd_refl _)).mp hx)
          rw [hsame]
          refine ⟨s', hloop, hvisited.next hbytes ?_⟩
          simp only [length_append, length_singleton] at hlonger ⊢
          omega
        | eof =>
          cases hdrains with
          | eof hnone => exact absurd (mem_append_right _ mem_cons_self) hnone
        | budget =>
          obtain ⟨x, hread, hx, hlim⟩ : ∃ x, fp'.read = s.fp.read ++ (str ++ x) ∧ chr '\n' ∉ x ∧
              v.max_lines ≠ 0 := by
            cases hdrains with
            | budget hx _ hspent => exact ⟨_, by rw [← append_assoc], hx, hspent.2⟩
          exact ⟨_, rfl, {
            sends := h.long hfull hlen hl hx hbytes hread
            bytes := hbytes
            le := hlonger.le.trans hle
            caught := fun hzero => absurd hzero hlim
            moved := fun _ => .inr (lt_of_lt_of_le hlonger hle) }⟩
      | unfinished hl hlen hne hall =>
        have hshort : str.length < MULTILINE_CHUNK - 1 := by
          have hshort := hkeeps.short (by rw [hall, frames_of_notMem hl]; exact hleft)
          rwa [hall, rest_of_notMem hl] at hshort
        have hcaught := h.caughtUp rfl (by rw [hall]; exact hl) (by rw [hall]; exact hlen)
        have hnl : chr '\n' ∉ str.map noNul := fun hmem => hl (newline_mem_map_noNul.mp hmem)
        rw [if_neg (by simpa using hne), if_pos ⟨hnl, by rw [length_map]; exact hshort⟩]
        exact ⟨_, rfl, {
          sends := h.back
          bytes := rfl
          le := le_rfl
          caught := fun _ => hcaught
          moved := fun _ => .inl hcaught }⟩

/-! ## Visits -/

/-- What follows the first bytes of the last line of a group does not matter. -/
theorem map_chunks_last {ls : List Bytes} (hpos : 0 < linecount) (h : linecount ∣ ls.length + 1)
    (hlong : MULTILINE_CHUNK ≤ l.length) (m : Bytes) :
    (chunks linecount (ls ++ [l ++ m])).map message =
      (chunks linecount (ls ++ [l])).map message := by
  obtain ⟨k, hk⟩ := h
  obtain ⟨j, rfl⟩ : ∃ j, k = j + 1 := by
    refine Nat.exists_eq_succ_of_ne_zero fun hzero => ?_
    rw [hzero] at hk
    omega
  rw [Nat.mul_succ] at hk
  -- the groups in front of the last one
  have hfirst : linecount ∣ (ls.take (linecount * j)).length := by
    rw [length_take_of_le (by omega)]
    exact Nat.dvd_mul_right ..
  have hlast : ∀ x : Bytes, (ls.drop (linecount * j) ++ [x]).length = linecount := by
    intro x
    rw [length_append, length_drop, length_singleton]
    omega
  have hsplit : ∀ x : Bytes, ls ++ [x] =
      ls.take (linecount * j) ++ (ls.drop (linecount * j) ++ [x]) := by
    intro x
    rw [← append_assoc, take_append_drop]
  rw [hsplit, hsplit l, chunks_append_of_length hpos hfirst (hlast _),
    chunks_append_of_length hpos hfirst (hlast _), map_append, map_append, map_singleton,
    map_singleton, message_concat, message_concat, take_append_of_le_length hlong]

/-- What is discarded of a line that is too long is not sent. -/
theorem expectedGroups_skip {m : Bytes} (hpos : 0 < linecount)
    (hlong : MULTILINE_CHUNK ≤ (rest (chr '\n') text).length)
    (hgroups : linecount ∣ (frames (chr '\n') text).length + 1) (hm : chr '\n' ∉ m) :
    expectedGroups linecount (text ++ m) = expectedGroups linecount text ∧
      rest (chr '\n') (text ++ m) = rest (chr '\n') text ++ m ∧
      frames (chr '\n') (text ++ m) = frames (chr '\n') text := by
  have hnot : chr '\n' ∉ rest (chr '\n') text ++ m := fun h =>
    (mem_append.mp h).elim (notMem_rest text) hm
  have hrest : rest (chr '\n') (text ++ m) = rest (chr '\n') text ++ m := by
    rw [rest_append, rest_of_notMem hnot]
  have hframes : frames (chr '\n') (text ++ m) = frames (chr '\n') text := by
    rw [frames_append, frames_of_notMem hnot, append_nil]
  refine ⟨?_, hrest, hframes⟩
  have hlonger : MULTILINE_CHUNK ≤ (rest (chr '\n') (text ++ m)).length := by
    rw [hrest, length_append]
    omega
  rw [expectedGroups, expectedGroups, physicalLines_long hlong, physicalLines_long hlonger, hrest,
    hframes, map_chunks_last hpos hgroups hlong]

theorem expectedGroups_skipped {m : Bytes} (hpos : 0 < linecount)
    (hlong : MULTILINE_CHUNK ≤ (rest (chr '\n') text).length)
    (hgroups : linecount ∣ (frames (chr '\n') text).length + 1) (hm : chr '\n' ∉ m) :
    expectedGroups linecount (text ++ (m ++ [chr '\n'])) = expectedGroups linecount text ∧
      linecount ∣ (frames (chr '\n') (text ++ (m ++ [chr '\n']))).length := by
  have hnot : chr '\n' ∉ rest (chr '\n') text ++ m := fun h =>
    (mem_append.mp h).elim (notMem_rest text) hm
  have hframes : frames (chr '\n') (text ++ (m ++ [chr '\n'])) =
      frames (chr '\n') text ++ [rest (chr '\n') text ++ m] := by
    rw [frames_append, ← append_assoc, frames_append_cons hnot]
    rfl
  constructor
  · rw [expectedGroups, expectedGroups, physicalLines_long hlong, physicalLines_short, hframes,
      map_chunks_last hpos hgroups hlong]
    rw [Tail.rest_line]
    exact multiline_chunk_pos
  · rw [hframes, length_append]
    exact hgroups

theorem SendsGroups.gathers (hpos : 0 < linecount) (h : SendsGroups linecount s)
    (hskip : s.skip_to_nl = false) : Gathers linecount s.fp [] s where
  bytes := rfl
  whole := (h.whole hskip).1
  groups := (h.whole hskip).2
  frames_eq := (append_nil _).symm
  rest_eq := (h.whole hskip).1
  lt := hpos
  sent := h.sent
  skip := hskip
  start _ := rfl
  le := le_rfl

/-- **A visit** that keeps all lines. -/
theorem readMultiline_spec {max_lines : ℕ} (hpos : 0 < linecount) (h : SendsGroups linecount s)
    (hmeets : s.Meets linecount (.poll max_lines)) :
    ∃ s', readMultiline ⟨max_lines, false⟩ linecount s = some s' ∧
      VisitedGroups ⟨max_lines, false⟩ linecount 0 [] s.fp s' := by
  rw [MultilineFile.Meets] at hmeets
  rw [readMultiline]
  cases hskip : s.skip_to_nl with
  | false =>
    rw [hskip, if_neg Bool.false_ne_true] at hmeets
    rw [if_neg Bool.false_ne_true]
    exact readMultilineLoop_spec hpos rfl (Nat.lt_succ_self _) (h.gathers hpos hskip) hmeets
  | true =>
    rw [hskip, if_pos rfl] at hmeets
    rw [if_pos rfl]
    obtain ⟨hlong, hgroups⟩ := h.long hskip
    obtain ⟨d, k, fp', hdrain, hdrains⟩ := @drainLoop_spec ⟨max_lines, false⟩
      (OS_MAXSTR - OS_LOG_HEADER) 0 s.fp (by decide) _ (Nat.lt_succ_self _)
    obtain ⟨hle, hbytes⟩ := hdrains.le
    rw [logrFdrainToNewline, hdrain]
    cases hdrains with
    | newline hm hsplit =>
      rename_i m r
      obtain ⟨hsame, hdvd⟩ := expectedGroups_skipped hpos hlong hgroups hm
      have hnext : SendsGroups linecount
          { s with fp := ⟨s.fp.read ++ (m ++ [chr '\n']), r⟩, skip_to_nl := false } := {
        sent := h.sent.trans hsame.symm
        whole := fun _ => ⟨Tail.rest_line _ _, hdvd⟩
        long := fun htrue => Bool.noConfusion htrue }
      have hkeeps : Keeps ⟨max_lines, false⟩ linecount k 0 r := by
        have hkeeps := hmeets m r hm hsplit
        by_cases hzero : max_lines = 0
        · have hall : ∀ x, Visit.Left ⟨max_lines, false⟩ x := fun _ => .inl hzero
          exact {
            ended := fun hrest _ => hkeeps.ended hrest (hall _)
            short := fun _ => hkeeps.short (hall _)
            last := fun i line hi hl _ => hkeeps.last i line hi hl (hall _) }
        · have hk := drainLoop_newline (show 1 < OS_MAXSTR - OS_LOG_HEADER by decide) hm hsplit
            hdrain ⟨rfl, hzero⟩
          rw [zero_add] at hk
          rw [hk]
          exact hkeeps
      obtain ⟨s', hloop, hvisited⟩ := readMultilineLoop_spec hpos rfl (Nat.lt_succ_self _)
        (hnext.gathers hpos rfl) hkeeps
      refine ⟨s', hloop, hvisited.next hbytes ?_⟩
      simp only [length_append, length_singleton]
      omega
    | eof hm =>
      obtain ⟨hsame, hrest, hframes⟩ := expectedGroups_skip hpos hlong hgroups hm
      have hnext : SendsGroups linecount
          { s with fp := ⟨s.fp.read ++ s.fp.unread, []⟩, skip_to_nl := true } := {
        sent := h.sent.trans hsame.symm
        whole := fun hfalse => Bool.noConfusion hfalse
        long := fun _ => by
          rw [hrest, hframes, length_append]
          exact ⟨by omega, hgroups⟩ }
      have hcaught : MultilineFile.CaughtUp linecount
          { s with fp := ⟨s.fp.read ++ s.fp.unread, []⟩, skip_to_nl := true } := by
        rw [MultilineFile.CaughtUp, Tail.bytes, append_nil]
        exact hnext.sent
      exact ⟨_, rfl, {
        sends := hnext
        bytes := hbytes
        le := hle
        caught := fun _ => hcaught
        moved := fun _ => .inl hcaught }⟩
    | budget hm hsplit hspent hmoved =>
      rename_i m r
      obtain ⟨hsame, hrest, hframes⟩ := expectedGroups_skip hpos hlong hgroups hm
      have hnext : SendsGroups linecount
          { s with fp := ⟨s.fp.read ++ m, r⟩, skip_to_nl := true } := {
        sent := h.sent.trans hsame.symm
        whole := fun hfalse => Bool.noConfusion hfalse
        long := fun _ => by
          rw [hrest, hframes, length_append]
          exact ⟨by omega, hgroups⟩ }
      refine ⟨_, rfl, {
        sends := hnext
        bytes := hbytes
        le := hle
        caught := fun hzero => absurd hzero hspent.2
        moved := fun _ => .inr ?_ }⟩
      have hlen := length_pos_iff.mpr (hmoved.resolve_left (consume_zero _))
      rw [length_append]
      omega

/-- The bytes that the writer has added. -/
def writtenLines (es : List MultilineEvent) : Bytes :=
  (es.map fun
    | .append piece => piece
    | .poll _ => []).flatten

/-- What every step keeps. -/
theorem SendsGroups.step {pre : List MultilineEvent} {e : MultilineEvent} (hpos : 0 < linecount)
    (h : SendsGroups linecount s) (hbytes : s.fp.bytes = writtenLines pre)
    (hstep : s.GoodStep linecount e s') :
    SendsGroups linecount s' ∧ s'.fp.bytes = writtenLines (pre ++ [e]) := by
  obtain ⟨hstep, hmeets⟩ := hstep
  rw [writtenLines, map_append, flatten_append]
  cases e with
  | append piece =>
    obtain rfl : s' = _ := hstep
    refine ⟨{ h with }, ?_⟩
    rw [Tail.bytes_append, hbytes]
    exact congrArg _ (append_nil _).symm
  | poll max_lines =>
    obtain ⟨s₁, hread, hvisited⟩ := readMultiline_spec hpos h hmeets
    obtain rfl := Option.some.inj (hread.symm.trans hstep)
    refine ⟨hvisited.sends, ?_⟩
    rw [hvisited.bytes, hbytes]
    exact (append_nil _).symm

/-- **Log files of several lines an event**: along every run whose visits lose and mix up nothing,
what was sent is what is to be sent of the text in front of the position; a visit without a budget
sends all there is to send, and one whose budget is a group does or moves the position. -/
theorem readMultiline_law (hpos : 0 < linecount) {es : List MultilineEvent}
    (hrun : Run (MultilineFile.GoodStep linecount) {} es s) :
    s.fp.bytes = writtenLines es ∧ s.sent = expectedGroups linecount s.fp.read ∧
      ∀ max_lines, s.Meets linecount (.poll max_lines) →
        ∃ s', readMultiline ⟨max_lines, false⟩ linecount s = some s' ∧
          s'.fp.bytes = s.fp.bytes ∧ s'.sent = expectedGroups linecount s'.fp.read ∧
          (max_lines = 0 → s'.sent = expectedGroups linecount s.fp.bytes) ∧
          (linecount ≤ max_lines → s'.sent = expectedGroups linecount s.fp.bytes ∨
            s.fp.read.length < s'.fp.read.length) := by
  have hstart : SendsGroups linecount {} := {
    sent := by
      have hnone : physicalLines [] = [] := rfl
      rw [expectedGroups, hnone, chunks_of_lt hpos]
      rfl
    whole := fun _ => ⟨rfl, Nat.dvd_zero _⟩
    long := fun htrue => Bool.noConfusion htrue }
  have hstep : ∀ (pre : List MultilineEvent) s e s',
      (SendsGroups linecount s ∧ s.fp.bytes = writtenLines pre) → s.GoodStep linecount e s' →
      (SendsGroups linecount s' ∧ s'.fp.bytes = writtenLines (pre ++ [e])) :=
    fun pre s e s' ⟨hsends, hbytes⟩ hstep => hsends.step hpos hbytes hstep
  obtain ⟨hsends, hbytes⟩ := hrun.history hstep ⟨hstart, rfl⟩
  refine ⟨hbytes, hsends.sent, fun max_lines hmeets => ?_⟩
  obtain ⟨s', hread, hvisited⟩ := readMultiline_spec hpos hsends hmeets
  refine ⟨s', hread, hvisited.bytes, hvisited.sends.sent, fun hzero => ?_, fun hle => ?_⟩
  · rw [← hvisited.bytes]
    exact hvisited.caught hzero
  · rw [← hvisited.bytes]
    exact hvisited.moved (.inr ⟨Nat.le_refl 0, hle⟩)

/-- A text of short lines whose last line is not complete, or completes its group. -/
theorem Keeps.of_short {lines : List Bytes} (hframes : frames (chr '\n') text = lines)
    (hlines : ∀ line ∈ lines, line.length < MULTILINE_CHUNK)
    (hended : rest (chr '\n') text ≠ [] ∨ linecount ∣ lines.length)
    (hshort : (rest (chr '\n') text).length < MULTILINE_CHUNK - 1) :
    Keeps v linecount n 0 text where
  ended hrest _ := by
    rw [hframes, zero_add]
    exact hended.resolve_left fun hne => hne hrest
  short _ := hshort
  last i line hi hlong _ := by
    rw [hframes] at hi
    exact absurd hlong (not_le.mpr (hlines line (mem_of_getElem? hi)))

/-- The second line of a group is completed after a visit. -/
theorem readMultiline_law_pair : ∃ s : MultilineFile,
    s.sent = expectedGroups 2 s.fp.read ∧ s.fp.bytes = lit "a\nb\n" ∧ s.sent = [lit "a b"] := by
  have hframes₁ : frames (chr '\n') (lit "a" ++ chr '\n' :: lit "b") = [lit "a"] := by
    rw [frames_append_cons (by decide), frames_of_notMem (by decide)]
  have hrest₁ : rest (chr '\n') (lit "a" ++ chr '\n' :: lit "b") = lit "b" := by
    rw [rest_append_cons (by decide), rest_of_notMem (by decide)]
  have hframes₂ : frames (chr '\n') (lit "a" ++ chr '\n' :: (lit "b" ++ chr '\n' :: [])) =
      [lit "a", lit "b"] := by
    rw [frames_append_cons (by decide), frames_append_cons (by decide),
      frames_of_notMem not_mem_nil]
  have hrest₂ : rest (chr '\n') (lit "a" ++ chr '\n' :: (lit "b" ++ chr '\n' :: [])) = [] := by
    rw [rest_append_cons (by decide), rest_append_cons (by decide)]
    rfl
  have hkeeps₁ : Keeps ⟨0, false⟩ 2 0 0 (lit "a" ++ chr '\n' :: lit "b") :=
    .of_short hframes₁ (by decide) (.inl (by rw [hrest₁]; decide)) (by rw [hrest₁]; decide)
  have hkeeps₂ : Keeps ⟨0, false⟩ 2 0 0 (lit "a" ++ chr '\n' :: (lit "b" ++ chr '\n' :: [])) :=
    .of_short hframes₂ (by decide) (.inr (by decide)) (by rw [hrest₂]; decide)
  have hrun : ∃ s, Run (MultilineFile.GoodStep 2) {}
      [.append (lit "a\nb"), .poll 0, .append (lit "\n"), .poll 0] s ∧
      s.fp.bytes = lit "a\nb\n" ∧ s.sent = [lit "a b"] :=
    ⟨_, .cons ⟨rfl, trivial⟩ (.cons ⟨rfl, hkeeps₁⟩ (.cons ⟨rfl, trivial⟩
      (.cons ⟨rfl, hkeeps₂⟩ (.nil _)))), rfl, rfl⟩
  obtain ⟨s, hrun, hbytes, hsent⟩ := hrun
  obtain ⟨-, hsends, -⟩ := readMultiline_law (by decide) hrun
  exact ⟨s, hsends, hbytes, hsent⟩

/-- A visit between the two lines of a group loses the first one. -/
theorem not_readMultiline : ¬ ∀ (linecount : ℕ) (es : List MultilineEvent) (s : MultilineFile),
    0 < linecount → Run (MultilineFile.Step linecount) {} (es ++ [.poll 0]) s →
      s.sent = expectedGroups linecount (writtenLines es) := by
  intro h
  have hrun : ∃ s, Run (MultilineFile.Step 2) {}
      [.append (lit "a\n"), .poll 0, .append (lit "b\n"), .poll 0] s ∧ s.sent = [] :=
    ⟨_, .cons rfl (.cons rfl (.cons rfl (.cons rfl (.nil _)))), rfl⟩
  obtain ⟨s, hrun, hsent⟩ := hrun
  have hall := h 2 [.append (lit "a\n"), .poll 0, .append (lit "b\n")] s (by decide) hrun
  have hframes : frames (chr '\n') (lit "a" ++ chr '\n' :: (lit "b" ++ chr '\n' :: [])) =
      [lit "a", lit "b"] := by
    rw [frames_append_cons (by decide), frames_append_cons (by decide),
      frames_of_notMem not_mem_nil]
  have hrest : rest (chr '\n') (lit "a" ++ chr '\n' :: (lit "b" ++ chr '\n' :: [])) = [] := by
    rw [rest_append_cons (by decide), rest_append_cons (by decide)]
    rfl
  have hlines : physicalLines (lit "a\nb\n") = [lit "a", lit "b"] := by
    rw [← hframes]
    exact physicalLines_short (lt_of_eq_of_lt (congrArg List.length hrest) (by decide))
  have hexpected : expectedGroups 2 (lit "a\nb\n") ≠ [] := by
    rw [expectedGroups, hlines]
    exact cons_ne_nil _ _
  exact hexpected (hall.symm.trans hsent)

end Logcollector
