import OssecHids.Lib.Transition
import OssecHids.Logcollector.LogrFgets

/-!
# Log files of one event a line

`read_syslog` sends the lines of a file that grows. A line that is too long is sent as its first
bytes, and the rest of it is discarded, in a later visit if it has not been written yet.

- `readSyslog`: a visit;
- `expected`: what the lines of a text are sent as;
- `Sends.step`: the invariant of the reader;
- `readSyslog_law`: every line is sent once.
-/

open CString Transition List

namespace Logcollector

/-- Max payload bytes one read can return. -/
def SYSLOG_CHUNK : ℕ := OS_MAXSTR - OS_LOG_HEADER - 1

/-- `drain_to_newline` -/
def drainToNewline (v : Visit) (lines_read : ℕ) (fp : Tail) : Option (Drained × ℕ × Tail) :=
  drainLoop v (OS_MAXSTR - 1) (fp.unread.length + 1) lines_read fp

/-- True when the line has no non-whitespace payload. -/
def syslogLineBlank (s : Bytes) : Bool :=
  s.all fun b => b == chr ' ' || b == chr '\t' || b == chr '\r'

/-- A monitored file, and what was sent of it. -/
structure SyslogFile where
  fp : Tail := {}
  skip_to_nl : Bool := false
  sent : List Bytes := []

/-- `SendMSG`, but not for blank lines. -/
def SyslogFile.send (s : SyslogFile) (v : Visit) (str : Bytes) : SyslogFile :=
  if !v.drop_it ∧ !syslogLineBlank str then { s with sent := s.sent ++ [str] } else s

/-- The loop of `read_syslog`. -/
def readSyslogLoop (v : Visit) : ℕ → ℕ → SyslogFile → Option SyslogFile
  | 0, _, _ => none
  | fuel + 1, lines_read, s =>
    match logrConsumeLine v lines_read with
    | none => some s
    | some lines_read =>
      let (str, fp) := fgetsNoNul (SYSLOG_CHUNK + 1) s.fp
      if str = [] then some s
      else if chr '\n' ∈ str then
        readSyslogLoop v fuel lines_read ({ s with fp }.send v str.dropLast)
      else if str.length = SYSLOG_CHUNK then
        -- over-long: discard through the real newline
        let s := { s with fp }.send v str
        match drainToNewline v lines_read fp with
        | none => none
        | some (.newline, lines_read, fp) => readSyslogLoop v fuel lines_read { s with fp }
        | some (_, _, fp) => some { s with fp, skip_to_nl := true }
      else
        -- incomplete: rewind and wait
        some s

/-- `read_syslog` -/
def readSyslog (v : Visit) (s : SyslogFile) : Option SyslogFile :=
  if s.skip_to_nl then
    match drainToNewline v 0 s.fp with
    | none => none
    | some (.newline, lines_read, fp) =>
      readSyslogLoop v (fp.unread.length + 1) lines_read { s with fp, skip_to_nl := false }
    | some (_, _, fp) => some { s with fp }
  else readSyslogLoop v (s.fp.unread.length + 1) 0 s

/-- The writer adds a piece, or the file is visited, with a budget of lines or, for 0, without. -/
inductive SyslogEvent
  | append (piece : Bytes)
  | poll (max_lines : ℕ)

def SyslogFile.Step (s : SyslogFile) : SyslogEvent → SyslogFile → Prop
  | .append piece, s' => s' = { s with fp := s.fp.append piece }
  | .poll max_lines, s' => readSyslog ⟨max_lines, false⟩ s = some s'

/-! ## What is to be sent -/

/-- What is sent of a line: its first bytes, with spaces for the NUL bytes, if they are not all
blank. -/
def record (line : Bytes) : Option Bytes :=
  let str := (line.take SYSLOG_CHUNK).map noNul
  if syslogLineBlank str then none else some str

open Framing in
/-- What is to be sent of a text: a record for each line, also for a last one without an end if it
is too long already. -/
def expected (text : Bytes) : List Bytes :=
  (frames (chr '\n') text).filterMap record ++
    if SYSLOG_CHUNK ≤ (rest (chr '\n') text).length then (record (rest (chr '\n') text)).toList
    else []

variable {v : Visit} {s s' : SyslogFile} {n : ℕ} {l m text : Bytes}

section Expected

open Framing

theorem expected_whole (h : rest (chr '\n') text = []) :
    expected text = (frames (chr '\n') text).filterMap record := by
  rw [expected, h, if_neg (by decide), append_nil]

theorem filterMap_concat {α β : Type} (f : α → Option β) (l : List α) (a : α) :
    (l ++ [a]).filterMap f = l.filterMap f ++ (f a).toList := by
  rw [filterMap_append]
  cases h : f a with
  | none => rw [filterMap_cons_none h]; rfl
  | some b => rw [filterMap_cons_some h]; rfl

theorem expected_line (h : rest (chr '\n') text = []) (hl : chr '\n' ∉ l) :
    expected (text ++ (l ++ [chr '\n'])) = expected text ++ (record l).toList := by
  rw [expected_whole (Tail.rest_line text l), Tail.frames_line h hl, filterMap_concat,
    expected_whole h]

theorem rest_unfinished (h : rest (chr '\n') text = []) (hl : chr '\n' ∉ l) :
    rest (chr '\n') (text ++ l) = l := by
  rw [rest_append, h, nil_append, rest_of_notMem hl]

theorem frames_unfinished (hl : chr '\n' ∉ rest (chr '\n') text ++ l) :
    frames (chr '\n') (text ++ l) = frames (chr '\n') text := by
  rw [frames_append, frames_of_notMem hl, append_nil]

/-- The beginning of a line says what is sent of it when it is long enough. -/
theorem record_append (h : SYSLOG_CHUNK ≤ l.length) (m : Bytes) : record (l ++ m) = record l := by
  rw [record, record, take_append_of_le_length h]

theorem expected_overlong (h : rest (chr '\n') text = []) (hl : chr '\n' ∉ l)
    (hlen : SYSLOG_CHUNK ≤ l.length) :
    expected (text ++ l) = expected text ++ (record l).toList := by
  have hframes := @frames_unfinished l text (by rw [h]; exact hl)
  rw [expected, hframes, rest_unfinished h hl, if_pos hlen, expected_whole h]

theorem expected_skip (hlen : SYSLOG_CHUNK ≤ (rest (chr '\n') text).length) (hm : chr '\n' ∉ m) :
    expected (text ++ m) = expected text ∧
      rest (chr '\n') (text ++ m) = rest (chr '\n') text ++ m := by
  have hnot : chr '\n' ∉ rest (chr '\n') text ++ m := fun h =>
    (mem_append.mp h).elim (notMem_rest text) hm
  have hrest : rest (chr '\n') (text ++ m) = rest (chr '\n') text ++ m := by
    rw [rest_append, rest_of_notMem hnot]
  refine ⟨?_, hrest⟩
  have hlong : SYSLOG_CHUNK ≤ (rest (chr '\n') text ++ m).length := by
    rw [length_append]
    omega
  rw [expected, expected, hrest, frames_unfinished hnot, if_pos hlen, if_pos hlong,
    record_append hlen]

theorem expected_skipped (hlen : SYSLOG_CHUNK ≤ (rest (chr '\n') text).length)
    (hm : chr '\n' ∉ m) : expected (text ++ (m ++ [chr '\n'])) = expected text := by
  have hnot : chr '\n' ∉ rest (chr '\n') text ++ m := fun h =>
    (mem_append.mp h).elim (notMem_rest text) hm
  rw [expected_whole (Tail.rest_line text m), frames_append, ← append_assoc,
    frames_append_cons hnot, expected, if_pos hlen, frames_of_notMem not_mem_nil,
    filterMap_concat, record_append hlen]

theorem expected_unfinished (h : rest (chr '\n') text = []) (hl : chr '\n' ∉ l)
    (hlen : l.length < SYSLOG_CHUNK) : expected (text ++ l) = expected text := by
  have hframes := @frames_unfinished l text (by rw [h]; exact hl)
  rw [expected, hframes, rest_unfinished h hl, if_neg (not_le.mpr hlen), append_nil,
    expected_whole h]

end Expected

/-! ## The reader -/

open Framing in
/-- What was sent is what is to be sent of the text in front of the position. The position is where
a line begins, or in a line that is too long. -/
structure Sends (s : SyslogFile) : Prop where
  sent : s.sent = expected s.fp.read
  whole : s.skip_to_nl = false → rest (chr '\n') s.fp.read = []
  long : s.skip_to_nl = true → SYSLOG_CHUNK ≤ (rest (chr '\n') s.fp.read).length

theorem sends_start : Sends {} where
  sent := rfl
  whole _ := rfl
  long h := absurd h Bool.false_ne_true

/-- Everything that can be sent is sent. -/
def CaughtUp (s : SyslogFile) : Prop := s.sent = expected s.fp.bytes

/-- What a visit does. -/
structure Visited (v : Visit) (n : ℕ) (s s' : SyslogFile) : Prop where
  sends : Sends s'
  bytes : s'.fp.bytes = s.fp.bytes
  le : s.fp.read.length ≤ s'.fp.read.length
  caught : v.max_lines = 0 → CaughtUp s'
  moved : logrConsumeLine v n ≠ none → CaughtUp s' ∨ s.fp.read.length < s'.fp.read.length

theorem Visited.trans {k : ℕ} {s₁ : SyslogFile} (h : Visited v k s₁ s')
    (hbytes : s₁.fp.bytes = s.fp.bytes) (hlt : s.fp.read.length < s₁.fp.read.length) :
    Visited v n s s' where
  sends := h.sends
  bytes := h.bytes.trans hbytes
  le := hlt.le.trans h.le
  caught := h.caught
  moved _ := .inr (lt_of_lt_of_le hlt h.le)

theorem send_fp (str : Bytes) : (s.send v str).fp = s.fp := by
  rw [SyslogFile.send]
  split_ifs <;> rfl

theorem send_skip (str : Bytes) : (s.send v str).skip_to_nl = s.skip_to_nl := by
  rw [SyslogFile.send]
  split_ifs <;> rfl

theorem send_record (hdrop : v.drop_it = false) (l : Bytes) :
    (s.send v ((l.take SYSLOG_CHUNK).map noNul)).sent = s.sent ++ (record l).toList := by
  rw [SyslogFile.send, record, hdrop]
  cases syslogLineBlank ((l.take SYSLOG_CHUNK).map noNul) with
  | true => exact (append_nil _).symm
  | false => rfl

theorem chunk_pos : 0 < SYSLOG_CHUNK := by decide

/-- The rest of a line that is too long is discarded, and nothing is sent of it. -/
theorem Sends.drain {d : Drained} {fp' : Tail} (h : Sends s)
    (hlong : SYSLOG_CHUNK ≤ (Framing.rest (chr '\n') s.fp.read).length)
    (hd : Drains v n s.fp d fp') (b : Bool) (hb : b = false ↔ d = .newline) :
    Sends { s with fp := fp', skip_to_nl := b } := by
  cases hd with
  | newline hm hsplit =>
    exact {
      sent := by
        rw [expected_skipped hlong hm, h.sent]
      whole := fun _ => Tail.rest_line _ _
      long := fun htrue => by
        rw [hb.mpr rfl] at htrue
        cases htrue }
  | eof hm | budget hm =>
    obtain ⟨hsame, hrest⟩ := expected_skip hlong hm
    exact {
      sent := by
        rw [hsame, h.sent]
      whole := fun hfalse => Drained.noConfusion (hb.mp hfalse)
      long := fun _ => by
        rw [hrest, length_append]
        omega }

theorem Sends.caughtUp_of_eof (h : Sends s) (hnil : s.fp.unread = []) : CaughtUp s := by
  rw [CaughtUp, Tail.bytes, hnil, append_nil]
  exact h.sent

theorem drainToNewline_spec (v : Visit) (n : ℕ) (fp : Tail) :
    ∃ d k fp', drainToNewline v n fp = some (d, k, fp') ∧ Drains v n fp d fp' :=
  drainLoop_spec (by decide) (Nat.lt_succ_self _)

/-- **The loop of a visit.** -/
theorem readSyslogLoop_spec {fuel : ℕ} (hdrop : v.drop_it = false)
    (hfuel : s.fp.unread.length < fuel) (h : Sends s) (hskip : s.skip_to_nl = false) :
    ∃ s', readSyslogLoop v fuel n s = some s' ∧ Visited v n s s' := by
  induction fuel generalizing n s with
  | zero => cases hfuel
  | succ fuel ih =>
    rw [readSyslogLoop]
    cases hconsume : logrConsumeLine v n with
    | none =>
      have hlim := limited_of_consume hconsume
      exact ⟨s, rfl, {
        sends := h
        bytes := rfl
        le := le_rfl
        caught := fun hzero => absurd hzero hlim.2
        moved := fun hne => absurd hconsume hne }⟩
    | some k =>
      have hgot := Tail.got chunk_pos s.fp
      rw [fgetsNoNul, Nat.add_sub_cancel]
      generalize hline : s.fp.getLine SYSLOG_CHUNK = res at hgot ⊢
      obtain ⟨str, fp⟩ := res
      dsimp only at hgot ⊢
      have hwhole := h.whole hskip
      cases hgot with
      | eof hnil =>
        have hcaught := h.caughtUp_of_eof hnil
        rw [if_pos map_nil]
        exact ⟨s, rfl, {
          sends := h
          bytes := rfl
          le := le_rfl
          caught := fun _ => hcaught
          moved := fun _ => .inl hcaught }⟩
      | line hl hlen hsplit =>
        rename_i l r
        have hmem := @newline_mem_line l
        have htext : ((l ++ [chr '\n']).map noNul).dropLast = (l.take SYSLOG_CHUNK).map noNul := by
          rw [map_append, map_singleton, dropLast_concat, take_of_length_le hlen.le]
        rw [if_neg (ne_nil_of_mem hmem), if_pos hmem, htext]
        have hnext : Sends (SyslogFile.send { s with fp := ⟨s.fp.read ++ (l ++ [chr '\n']), r⟩ } v
            ((l.take SYSLOG_CHUNK).map noNul)) := {
          sent := by
            rw [send_record hdrop, send_fp, expected_line hwhole hl, h.sent]
          whole := fun _ => by
            rw [send_fp]
            exact Tail.rest_line _ _
          long := fun htrue => by
            rw [send_skip, hskip] at htrue
            cases htrue }
        have hless : r.length < fuel := by
          rw [hsplit, length_append, length_cons] at hfuel
          omega
        obtain ⟨s', hloop, hvisited⟩ := @ih _ k (by rw [send_fp]; exact hless) hnext
          (by rw [send_skip]; exact hskip)
        refine ⟨s', hloop, hvisited.trans ?_ ?_⟩
        · rw [send_fp]
          simp only [Tail.bytes, hsplit, append_assoc, cons_append, nil_append]
        · rw [send_fp]
          simp only [length_append, length_singleton]
          omega
      | full hl hlen hsplit =>
        rename_i r
        have hpos := chunk_pos
        have hne : str ≠ [] := ne_nil_of_length_pos (by omega)
        have htext : str.map noNul = (str.take SYSLOG_CHUNK).map noNul := by
          rw [take_of_length_le hlen.le]
        rw [if_neg (by simpa using hne), if_neg fun hmem => hl (newline_mem_map_noNul.mp hmem),
          if_pos (by rw [length_map, hlen]), htext]
        -- the beginning of the line is sent, and the rest of it discarded
        have hlong : SYSLOG_CHUNK ≤ (Framing.rest (chr '\n') (s.fp.read ++ str)).length := by
          rw [rest_unfinished hwhole hl, hlen]
        have hsent : (SyslogFile.send { s with fp := ⟨s.fp.read ++ str, r⟩ } v
            ((str.take SYSLOG_CHUNK).map noNul)).sent = expected (s.fp.read ++ str) := by
          rw [send_record hdrop, expected_overlong hwhole hl hlen.ge, h.sent]
        obtain ⟨d, k', fp', hdrain, hdrains⟩ := drainToNewline_spec v k ⟨s.fp.read ++ str, r⟩
        have hbase : Sends { s with fp := ⟨s.fp.read ++ str, r⟩, skip_to_nl := true
                                    sent := expected (s.fp.read ++ str) } := {
          sent := rfl
          whole := fun hfalse => Bool.noConfusion hfalse
          long := fun _ => hlong }
        obtain ⟨hle, hbytes⟩ := hdrains.le
        have hbytes : fp'.bytes = s.fp.bytes := by
          rw [hbytes, Tail.bytes, Tail.bytes, hsplit, append_assoc]
        have hlt : s.fp.read.length < fp'.read.length := by
          refine lt_of_lt_of_le ?_ hle
          rw [length_append]
          omega
        have hskipped : ({ SyslogFile.send { s with fp := ⟨s.fp.read ++ str, r⟩ } v
            ((str.take SYSLOG_CHUNK).map noNul) with fp := fp', skip_to_nl := true } : SyslogFile) =
            { s with fp := fp', skip_to_nl := true, sent := expected (s.fp.read ++ str) } := by
          dsimp only
          rw [hsent]
        rw [hdrain]
        cases d with
        | newline =>
          dsimp only
          have hnext := hbase.drain hlong hdrains false (by simp)
          have hlength := congrArg List.length hbytes
          rw [Tail.bytes, Tail.bytes, length_append, length_append] at hlength
          obtain ⟨s', hloop, hvisited⟩ := @ih { s with
            fp := fp', skip_to_nl := false, sent := expected (s.fp.read ++ str) } k'
            (by dsimp only; omega) hnext rfl
          have hstate : ({ SyslogFile.send { s with fp := ⟨s.fp.read ++ str, r⟩ } v
              ((str.take SYSLOG_CHUNK).map noNul) with fp := fp' } : SyslogFile) =
              { s with fp := fp', skip_to_nl := false, sent := expected (s.fp.read ++ str) } := by
            dsimp only
            rw [hsent, send_skip, hskip]
          rw [hstate]
          exact ⟨s', hloop, hvisited.trans hbytes hlt⟩
        | eof =>
          have hnext := hbase.drain hlong hdrains true (by simp)
          refine ⟨_, rfl, ?_⟩
          rw [hskipped]
          have hcaught : CaughtUp { s with fp := fp', skip_to_nl := true
                                           sent := expected (s.fp.read ++ str) } := by
            refine hnext.caughtUp_of_eof ?_
            cases hdrains
            rfl
          exact {
            sends := hnext
            bytes := hbytes
            le := hlt.le
            caught := fun _ => hcaught
            moved := fun _ => .inl hcaught }
        | budget =>
          have hnext := hbase.drain hlong hdrains true (by simp)
          refine ⟨_, rfl, ?_⟩
          rw [hskipped]
          exact {
            sends := hnext
            bytes := hbytes
            le := hlt.le
            caught := fun hzero => by
              cases hdrains with
              | budget _ _ hspent => exact absurd hzero hspent.2
            moved := fun _ => .inr hlt }
      | unfinished hl hlen hne hall =>
        have hcaught : CaughtUp s := by
          rw [CaughtUp, Tail.bytes, hall, expected_unfinished hwhole hl hlen]
          exact h.sent
        rw [if_neg (by simpa using hne), if_neg fun hmem => hl (newline_mem_map_noNul.mp hmem),
          if_neg (by rw [length_map]; omega)]
        exact ⟨s, rfl, {
          sends := h
          bytes := rfl
          le := le_rfl
          caught := fun _ => hcaught
          moved := fun _ => .inl hcaught }⟩

/-- **A visit** to a file. -/
theorem readSyslog_spec (hdrop : v.drop_it = false) (h : Sends s) :
    ∃ s', readSyslog v s = some s' ∧ Visited v 0 s s' := by
  rw [readSyslog]
  cases hskip : s.skip_to_nl with
  | false =>
    rw [if_neg Bool.false_ne_true]
    exact readSyslogLoop_spec hdrop (Nat.lt_succ_self _) h hskip
  | true =>
    rw [if_pos rfl]
    obtain ⟨d, k, fp', hdrain, hdrains⟩ := drainToNewline_spec v 0 s.fp
    obtain ⟨hle, hbytes⟩ := hdrains.le
    rw [hdrain]
    cases d with
    | newline =>
      have hnext := h.drain (h.long hskip) hdrains false (by simp)
      obtain ⟨s', hloop, hvisited⟩ := @readSyslogLoop_spec v
        { s with fp := fp', skip_to_nl := false } k _ hdrop (Nat.lt_succ_self _) hnext rfl
      refine ⟨s', hloop, hvisited.trans hbytes ?_⟩
      cases hdrains with
      | newline =>
        simp only [length_append, length_singleton]
        omega
    | eof =>
      have hnext := h.drain (h.long hskip) hdrains true (by simp)
      have hcaught : CaughtUp { s with fp := fp', skip_to_nl := true } := by
        refine hnext.caughtUp_of_eof ?_
        cases hdrains
        rfl
      exact ⟨_, rfl, {
        sends := hnext
        bytes := hbytes
        le := hle
        caught := fun _ => hcaught
        moved := fun _ => .inl hcaught }⟩
    | budget =>
      have hnext := h.drain (h.long hskip) hdrains true (by simp)
      refine ⟨_, rfl, {
        sends := hnext
        bytes := hbytes
        le := hle
        caught := fun hzero => ?_
        moved := fun hconsume => .inr ?_ }⟩
      · cases hdrains with
        | budget _ _ hspent => exact absurd hzero hspent.2
      · cases hdrains with
        | budget _ _ _ hmoved =>
          have hpos := length_pos_iff.mpr (hmoved.resolve_left hconsume)
          rw [length_append]
          omega

/-- The bytes that the writer has added. -/
def written (es : List SyslogEvent) : Bytes :=
  (es.map fun
    | .append piece => piece
    | .poll _ => []).flatten

theorem Sends.step {e : SyslogEvent} (h : Sends s) (hstep : s.Step e s') : Sends s' := by
  cases e with
  | append piece =>
    obtain rfl : s' = _ := hstep
    exact { h with }
  | poll max_lines =>
    obtain ⟨s₁, hread, hvisited⟩ := @readSyslog_spec ⟨max_lines, false⟩ s rfl h
    obtain rfl := Option.some.inj (hread.symm.trans hstep)
    exact hvisited.sends

theorem bytes_step {pre : List SyslogEvent} {e : SyslogEvent} (h : Sends s)
    (hbytes : s.fp.bytes = written pre) (hstep : s.Step e s') :
    s'.fp.bytes = written (pre ++ [e]) := by
  rw [written, map_append, flatten_append]
  cases e with
  | append piece =>
    obtain rfl : s' = _ := hstep
    rw [Tail.bytes_append, hbytes]
    exact congrArg _ (append_nil _).symm
  | poll max_lines =>
    obtain ⟨s₁, hread, hvisited⟩ := @readSyslog_spec ⟨max_lines, false⟩ s rfl h
    obtain rfl := Option.some.inj (hread.symm.trans hstep)
    rw [hvisited.bytes, hbytes]
    exact (append_nil _).symm

/-- **Log files of one event a line**: after every sequence of pieces and visits, what was sent is
what is to be sent of the text in front of the position; a visit without a budget sends all there
is to send, and every other visit does or moves the position. -/
theorem readSyslog_law {es : List SyslogEvent} (hrun : Run SyslogFile.Step {} es s) :
    s.fp.bytes = written es ∧ s.sent = expected s.fp.read ∧
      ∀ max_lines, ∃ s', readSyslog ⟨max_lines, false⟩ s = some s' ∧
        s'.fp.bytes = s.fp.bytes ∧ s'.sent = expected s'.fp.read ∧
        (max_lines = 0 → s'.sent = expected s.fp.bytes) ∧
        (s'.sent = expected s.fp.bytes ∨ s.fp.read.length < s'.fp.read.length) := by
  have hstep : ∀ (pre : List SyslogEvent) s e s', (Sends s ∧ s.fp.bytes = written pre) →
      SyslogFile.Step s e s' → (Sends s' ∧ s'.fp.bytes = written (pre ++ [e])) :=
    fun pre s e s' ⟨hsends, hbytes⟩ hstep => ⟨hsends.step hstep, bytes_step hsends hbytes hstep⟩
  obtain ⟨hsends, hbytes⟩ := hrun.history hstep ⟨sends_start, rfl⟩
  refine ⟨hbytes, hsends.sent, fun max_lines => ?_⟩
  obtain ⟨s', hread, hvisited⟩ := @readSyslog_spec ⟨max_lines, false⟩ s rfl hsends
  refine ⟨s', hread, hvisited.bytes, hvisited.sends.sent, fun hzero => ?_, ?_⟩
  · rw [← hvisited.bytes]
    exact hvisited.caught hzero
  · rw [← hvisited.bytes]
    exact hvisited.moved (consume_zero _)

/-- A line that comes in two pieces, with a visit between them. -/
theorem readSyslog_law_pieces : ∃ s : SyslogFile,
    s.fp.bytes = lit "ab\n" ∧ s.sent = expected s.fp.read ∧ s.sent = [lit "ab"] := by
  have hrun : ∃ s, Run SyslogFile.Step {}
      [.append (lit "a"), .poll 0, .append (lit "b\n"), .poll 0] s ∧ s.sent = [lit "ab"] :=
    ⟨_, .cons rfl (.cons rfl (.cons rfl (.cons rfl (.nil _)))), rfl⟩
  obtain ⟨s, hrun, hsent⟩ := hrun
  obtain ⟨hbytes, hsends, -⟩ := readSyslog_law hrun
  exact ⟨s, hbytes, hsends, hsent⟩

/-- What is to be sent of the lines of a text, if every line that is not blank is to be sent. -/
def linesOf (text : Bytes) : List Bytes :=
  (Framing.frames (chr '\n') text).filterMap fun line =>
    if syslogLineBlank (line.map noNul) then none
    else some ((line.take SYSLOG_CHUNK).map noNul)

/-- A line that begins with more blanks than are sent of a line. -/
def blankStart : Bytes := List.replicate SYSLOG_CHUNK (chr ' ') ++ lit "x"

/-- Nothing is sent of a line that begins with too many blanks. -/
theorem not_every_line : ¬ ∀ (text : Bytes) (s : SyslogFile),
    Run SyslogFile.Step {} [.append text, .poll 0] s → s.sent = linesOf text := by
  intro h
  have hnl : chr '\n' ∉ blankStart := by
    intro hmem
    rcases mem_append.mp hmem with hmem | hmem
    · exact absurd (eq_of_mem_replicate hmem) (by decide)
    · exact absurd hmem (by decide)
  have hframes : Framing.frames (chr '\n') (blankStart ++ chr '\n' :: []) = [blankStart] :=
    Framing.frames_append_cons hnl
  have hrest : Framing.rest (chr '\n') (blankStart ++ chr '\n' :: []) = [] :=
    Framing.rest_append_cons hnl
  have htake : blankStart.take SYSLOG_CHUNK = List.replicate SYSLOG_CHUNK (chr ' ') :=
    take_left' length_replicate
  have hblank : syslogLineBlank ((List.replicate SYSLOG_CHUNK (chr ' ')).map noNul) = true := by
    rw [map_replicate, syslogLineBlank, all_replicate]
    rfl
  have hnone : expected (blankStart ++ chr '\n' :: []) = [] := by
    rw [expected_whole hrest, hframes, filterMap_cons_none, filterMap_nil]
    rw [record, htake, if_pos hblank]
  -- the line as a whole is not blank
  have hsome : linesOf (blankStart ++ chr '\n' :: []) ≠ [] := by
    have hline : ¬ syslogLineBlank (blankStart.map noNul) = true := by
      rw [blankStart, map_append, syslogLineBlank, all_append]
      intro hall
      exact absurd (Bool.and_eq_true_iff.mp hall).2 (by decide)
    rw [linesOf, hframes, filterMap_cons, if_neg hline]
    exact cons_ne_nil _ _
  have hsends : Sends { fp := ⟨[], blankStart ++ chr '\n' :: []⟩ } := { sends_start with }
  obtain ⟨s, hread, hvisited⟩ := @readSyslog_spec ⟨0, false⟩ _ rfl hsends
  have hcaught := hvisited.caught rfl
  rw [CaughtUp, hvisited.bytes, Tail.bytes, nil_append, hnone] at hcaught
  have hrun := h _ s (.cons rfl (.cons hread (.nil _)))
  exact hsome (hrun.symm.trans hcaught)

end Logcollector
