import OssecHids.Lib.Framing
import OssecHids.OsExecd.Request

/-!
# Syslog over TCP

`syslog_client_worker` keeps the line that is not complete at the front of its buffer, reads
behind it, and hands the messages of the complete lines to the analysis queue.

- `Worker.receive`: what the worker does with the bytes of one `recv`;
- `Invariant`: what was handed, and what is kept, are computed from the bytes received so far;
- `segmentation_law`: the messages are those of the lines, wherever the stream was cut.
-/

open CString Framing Transition List

namespace Remoted.SyslogTcp

/-- `OS_MAXSTR` -/
def OS_MAXSTR : ℕ := 6144

/-- Whether `send_fn` succeeds for a message, after the messages before it. -/
abbrev SendFn := List Bytes → Bytes → Bool

/-- The message of a line: the text in front of a carriage return, without the priority. -/
def lineMessage (line : Bytes) : Bytes :=
  let line := ((cutAt (chr '\r') line).map Prod.fst).getD line
  if line.headD 0 = chr '<' then
    ((strchr (chr '>') (line.drop 1)).map (List.drop 1)).getD line
  else line

/-- The loop of `syslog_tcp_drain_complete_lines`: the messages handed over, and the text that
stays in the buffer, `none` for -1. Every turn takes the newline of its line. -/
def drainLoop (send_fn : SendFn) : ℕ → List Bytes → Bytes → List Bytes × Option Bytes
  | 0, handed, line => (handed, some (str line))
  | fuel + 1, handed, line =>
    match cutAt (chr '\n') line with
    | none => (handed, some (str line))
    | some (l, line) =>
      if send_fn handed (lineMessage l) then drainLoop send_fn fuel (handed ++ [lineMessage l]) line
      else (handed ++ [lineMessage l], none)

/-- `syslog_tcp_drain_complete_lines` -/
def drainCompleteLines (send_fn : SendFn) (handed : List Bytes) (storage_buffer : Bytes) :
    List Bytes × Option Bytes :=
  drainLoop send_fn storage_buffer.length handed storage_buffer

/-- The worker of a connection. -/
structure Worker where
  /-- The first `sb_used` bytes of the buffer. -/
  storage_buffer : Bytes
  /-- The messages handed to the analysis queue. -/
  handed : List Bytes
  closed : Bool
  deriving DecidableEq, Repr

def Worker.start : Worker := ⟨[], [], false⟩

/-- A line that fills the buffer is dropped. -/
def Worker.dropFull (w : Worker) : Worker :=
  if w.storage_buffer.length ≥ OS_MAXSTR - 2 then { w with storage_buffer := [] } else w

/-- A zero byte is read as a blank. -/
def mapNul (b : UInt8) : UInt8 := if b = 0 then chr ' ' else b

/-- The bytes of a `recv` are appended, and the complete lines drained. -/
def Worker.receive (send_fn : SendFn) (w : Worker) (bytes : Bytes) : Worker :=
  match drainCompleteLines send_fn w.handed (w.storage_buffer ++ bytes.map mapNul) with
  | (handed, some storage_buffer) => { w with storage_buffer := storage_buffer, handed := handed }
  | (handed, none) => { w with handed := handed, closed := true }

/-- What `recv` returns while the client is there. -/
inductive Recv
  | data (bytes : Bytes)
  /-- The read timed out, and the worker keeps its client. -/
  | quiet
  deriving DecidableEq

def Recv.bytes : Recv → Bytes
  | .data bytes => bytes
  | .quiet => []

/-- The bytes that the client sent. -/
def stream (rs : List Recv) : Bytes := (rs.map Recv.bytes).flatten

/-- One turn of the loop of `syslog_client_worker`. Nobody reads what reaches a socket that was
closed after a failed send. -/
inductive Step (send_fn : SendFn) : Worker → Recv → Worker → Prop
  | data {w : Worker} {bytes : Bytes} (hopen : w.closed = false) (hne : bytes ≠ [])
      (hroom : w.dropFull.storage_buffer.length + bytes.length ≤ OS_MAXSTR - 1) :
      Step send_fn w (.data bytes) (w.dropFull.receive send_fn bytes)
  | quiet {w : Worker} (hopen : w.closed = false) : Step send_fn w .quiet w.dropFull
  | closed {w : Worker} (hclosed : w.closed = true) (r : Recv) : Step send_fn w r w

/-! ## What the queue is to get -/

/-- The lines of a stream, without their newlines. -/
def lines (s : Bytes) : List Bytes := frames (chr '\n') s

/-- The message of a line as it was sent. -/
def message (line : Bytes) : Bytes := lineMessage (line.map mapNul)

/-- The messages of a stream, one for each line. -/
def messages (s : Bytes) : List Bytes := (lines s).map message

/-- The messages that are handed over: all of them, up to the first one that is refused. -/
def deliver (send_fn : SendFn) : List Bytes → List Bytes → List Bytes × Bool
  | handed, [] => (handed, false)
  | handed, msg :: msgs =>
    if send_fn handed msg then deliver send_fn (handed ++ [msg]) msgs else (handed ++ [msg], true)

variable {send_fn : SendFn} {handed msgs msgs' : List Bytes} {w w' : Worker} {s : Bytes}
  {b : UInt8} {r : Recv} {rs rs' : List Recv}

theorem deliver_append (handed msgs msgs' : List Bytes) :
    deliver send_fn handed (msgs ++ msgs') =
      if (deliver send_fn handed msgs).2 then deliver send_fn handed msgs
      else deliver send_fn (deliver send_fn handed msgs).1 msgs' := by
  induction msgs generalizing handed with
  | nil => rfl
  | cons msg msgs ih =>
    rw [cons_append, deliver, deliver]
    split
    case isTrue => exact ih _
    case isFalse => rfl

theorem deliver_of_accepts (hsend : ∀ before msg, send_fn before msg = true)
    (handed msgs : List Bytes) : deliver send_fn handed msgs = (handed ++ msgs, false) := by
  induction msgs generalizing handed with
  | nil => rw [deliver, append_nil]
  | cons msg msgs ih =>
    rw [deliver, if_pos (hsend _ _), ih, append_assoc, singleton_append]

/-! ## Zero bytes -/

theorem mapNul_ne_zero (b : UInt8) : mapNul b ≠ 0 := by
  rw [mapNul]
  split
  case isTrue => decide
  case isFalse h => exact h

theorem mapNul_eq_newline (b : UInt8) : mapNul b = chr '\n' ↔ b = chr '\n' := by
  rw [mapNul]
  split
  case isTrue h =>
    subst h
    decide
  case isFalse => exact Iff.rfl

theorem forall_mem_map_mapNul (s : Bytes) : ∀ b ∈ s.map mapNul, b ≠ 0 := by
  intro b hb
  obtain ⟨a, -, rfl⟩ := mem_map.mp hb
  exact mapNul_ne_zero a

theorem lines_map_mapNul (s : Bytes) : lines (s.map mapNul) = (lines s).map (List.map mapNul) :=
  frames_map mapNul_eq_newline s

theorem rest_map_mapNul (s : Bytes) :
    rest (chr '\n') (s.map mapNul) = (rest (chr '\n') s).map mapNul :=
  rest_map mapNul_eq_newline s

/-! ## Draining -/

/-- The drain hands over the messages of the complete lines, and keeps the line behind them. -/
theorem drainLoop_eq (hz : ∀ b ∈ s, b ≠ 0) {fuel : ℕ} (hfuel : s.length ≤ fuel)
    (handed : List Bytes) :
    drainLoop send_fn fuel handed s =
      ((deliver send_fn handed ((lines s).map lineMessage)).1,
        if (deliver send_fn handed ((lines s).map lineMessage)).2 then none
        else some (rest (chr '\n') s)) := by
  induction s using framesRec (c := chr '\n') generalizing fuel handed with
  | unfinished l hl =>
    have hstop : drainLoop send_fn fuel handed l = (handed, some l) := by
      cases fuel with
      | zero => rw [drainLoop, str_eq_self hz]
      | succ fuel => rw [drainLoop, cutAt_of_notMem hl, str_eq_self hz]
    rw [hstop, lines, frames_of_notMem hl, rest_of_notMem hl]
    rfl
  | frame l r hl ih =>
    have hzl : ∀ b ∈ l, b ≠ 0 := fun b hb => hz b (mem_append_left _ hb)
    have hzr : ∀ b ∈ r, b ≠ 0 := fun b hb =>
      hz b (mem_append_right _ (mem_cons_of_mem _ hb))
    rw [length_append, length_cons] at hfuel
    obtain ⟨fuel, rfl⟩ : ∃ k, fuel = k + 1 := ⟨fuel - 1, by omega⟩
    rw [drainLoop, cutAt_append hl hzl, lines, frames_append_cons hl, rest_append_cons hl,
      map_cons, deliver]
    dsimp only
    split
    case isTrue => exact ih hzr (by omega) _
    case isFalse => rfl

theorem drainCompleteLines_eq (hz : ∀ b ∈ s, b ≠ 0) (handed : List Bytes) :
    drainCompleteLines send_fn handed s =
      ((deliver send_fn handed ((lines s).map lineMessage)).1,
        if (deliver send_fn handed ((lines s).map lineMessage)).2 then none
        else some (rest (chr '\n') s)) :=
  drainLoop_eq hz le_rfl handed

/-! ## The bytes received, and what became of them -/

/-- The worker after the bytes `s`: it has handed over the messages of their lines, and keeps the
unfinished line, unless that is too long already. -/
structure Invariant (send_fn : SendFn) (w : Worker) (s : Bytes) : Prop where
  handed : (w.handed, w.closed) = deliver send_fn [] (messages s)
  kept : w.closed = false → w.storage_buffer = (rest (chr '\n') s).map mapNul ∨
    OS_MAXSTR - 2 ≤ (rest (chr '\n') s).length ∧ chr '\n' ∉ w.storage_buffer ∧
      ∀ b ∈ w.storage_buffer, b ≠ 0

/-- Every line is shorter than what the worker takes for a full buffer. -/
def ShortLines (s : Bytes) : Prop := ∀ line ∈ lines s, line.length < OS_MAXSTR - 2

instance (s : Bytes) : Decidable (ShortLines s) :=
  inferInstanceAs (Decidable (∀ line ∈ lines s, line.length < OS_MAXSTR - 2))

theorem lines_append (s t : Bytes) : lines (s ++ t) = lines s ++ lines (rest (chr '\n') s ++ t) :=
  frames_append s t

theorem messages_append (s t : Bytes) :
    messages (s ++ t) = messages s ++ messages (rest (chr '\n') s ++ t) := by
  rw [messages, lines_append, map_append, messages, messages]

theorem ShortLines.left {t : Bytes} (h : ShortLines (s ++ t)) : ShortLines s := by
  intro line hline
  apply h
  rw [lines_append]
  exact mem_append_left _ hline

theorem ShortLines.newline_notMem {t : Bytes} (h : ShortLines (s ++ t))
    (hlong : OS_MAXSTR - 2 ≤ (rest (chr '\n') s).length) : chr '\n' ∉ t := by
  intro hmem
  obtain ⟨l, hl⟩ := exists_frame (s := s) hmem
  have hlt := h _ hl
  rw [length_append] at hlt
  omega

theorem invariant_start : Invariant send_fn Worker.start [] where
  handed := rfl
  kept := fun _ => .inl rfl

@[simp]
theorem Worker.dropFull_handed : w.dropFull.handed = w.handed := by
  rw [Worker.dropFull]
  split <;> rfl

@[simp]
theorem Worker.dropFull_closed : w.dropFull.closed = w.closed := by
  rw [Worker.dropFull]
  split <;> rfl

theorem Invariant.dropFull (h : Invariant send_fn w s) : Invariant send_fn w.dropFull s where
  handed := by
    rw [Worker.dropFull_handed, Worker.dropFull_closed]
    exact h.handed
  kept := by
    rw [Worker.dropFull_closed]
    intro hopen
    rw [Worker.dropFull]
    split
    case isTrue hfull =>
      -- the line that filled the buffer is the unfinished one
      refine .inr ⟨?_, not_mem_nil, fun b hb => absurd hb not_mem_nil⟩
      obtain hkept | ⟨hlong, -⟩ := h.kept hopen
      · rwa [hkept, length_map] at hfull
      · exact hlong
    case isFalse => exact h.kept hopen

theorem Invariant.deliver_append (h : Invariant send_fn w s) (hopen : w.closed = false)
    (t : Bytes) : deliver send_fn [] (messages (s ++ t)) =
      deliver send_fn w.handed (messages (rest (chr '\n') s ++ t)) := by
  rw [messages_append, SyslogTcp.deliver_append, ← h.handed, hopen]
  rfl

theorem Invariant.receive (h : Invariant send_fn w s) (hopen : w.closed = false) {bytes : Bytes}
    (hshort : ShortLines (s ++ bytes)) :
    Invariant send_fn (w.receive send_fn bytes) (s ++ bytes) := by
  obtain hkept | ⟨hlong, hline, hz⟩ := h.kept hopen
  · -- the buffer holds the unfinished line and the bytes behind it
    have hbuffer : w.storage_buffer ++ bytes.map mapNul =
        (rest (chr '\n') s ++ bytes).map mapNul := by
      rw [hkept, map_append]
    have hmessages : (lines ((rest (chr '\n') s ++ bytes).map mapNul)).map lineMessage =
        messages (rest (chr '\n') s ++ bytes) := by
      rw [lines_map_mapNul, List.map_map, messages]
      rfl
    have hdeliver := h.deliver_append hopen bytes
    rw [Worker.receive, hbuffer, drainCompleteLines_eq (forall_mem_map_mapNul _), hmessages,
      ← hdeliver, rest_map_mapNul, ← rest_append]
    cases hrefused : (deliver send_fn [] (messages (s ++ bytes))).2 with
    | true => exact ⟨Prod.ext rfl hrefused.symm, fun hfalse => absurd hfalse (by simp)⟩
    | false => exact ⟨Prod.ext rfl (hopen.trans hrefused.symm), fun _ => .inl rfl⟩
  · -- a line that is too long goes on, and no line is complete
    have hbytes := hshort.newline_notMem hlong
    have hnext : chr '\n' ∉ rest (chr '\n') s ++ bytes := by
      rw [mem_append, not_or]
      exact ⟨notMem_rest s, hbytes⟩
    have hbuffer : chr '\n' ∉ w.storage_buffer ++ bytes.map mapNul := by
      rw [mem_append, not_or]
      refine ⟨hline, fun hmem => ?_⟩
      obtain ⟨b, hb, heq⟩ := mem_map.mp hmem
      exact hbytes ((mapNul_eq_newline b).mp heq ▸ hb)
    have hzero : ∀ b ∈ w.storage_buffer ++ bytes.map mapNul, b ≠ 0 :=
      forall_mem_append.mpr ⟨hz, forall_mem_map_mapNul bytes⟩
    have hreceive : w.receive send_fn bytes =
        { w with storage_buffer := w.storage_buffer ++ bytes.map mapNul } := by
      rw [Worker.receive, drainCompleteLines_eq hzero, lines, frames_of_notMem hbuffer,
        rest_of_notMem hbuffer]
      rfl
    rw [hreceive]
    refine ⟨?_, fun _ => .inr ⟨?_, hbuffer, hzero⟩⟩
    · rw [h.deliver_append hopen, messages, lines, frames_of_notMem hnext, hopen]
      rfl
    · rw [rest_append, rest_of_notMem hnext, length_append]
      omega

theorem Invariant.step (h : Invariant send_fn w s) (hstep : Step send_fn w r w')
    (hshort : ShortLines (s ++ r.bytes)) : Invariant send_fn w' (s ++ r.bytes) := by
  cases hstep with
  | data hopen _ _ => exact h.dropFull.receive (Worker.dropFull_closed.trans hopen) hshort
  | quiet _ =>
    rw [Recv.bytes, append_nil]
    exact h.dropFull
  | closed hclosed _ =>
    refine ⟨?_, fun hopen => absurd (hclosed.symm.trans hopen) (by simp)⟩
    rw [messages_append, SyslogTcp.deliver_append, ← h.handed, if_pos hclosed]

theorem stream_cons (r : Recv) (rs : List Recv) : stream (r :: rs) = r.bytes ++ stream rs := rfl

theorem Invariant.run (h : Invariant send_fn w s) (hrun : Run (Step send_fn) w rs w')
    (hshort : ShortLines (s ++ stream rs)) : Invariant send_fn w' (s ++ stream rs) := by
  induction hrun generalizing s with
  | nil w =>
    rw [stream, map_nil, flatten_nil, append_nil]
    exact h
  | cons hstep _ ih =>
    rw [stream_cons, ← append_assoc] at hshort ⊢
    exact ih (h.step hstep hshort.left) hshort

/-- **The messages of a client do not depend on where its stream was cut**: they are the messages
of the lines of the stream, up to one that the queue refuses; a queue that refuses none gets one
message for each line; and another way to cut the stream gives the same messages. -/
theorem segmentation_law (h : Run (Step send_fn) Worker.start rs w)
    (hshort : ShortLines (stream rs)) :
    w.handed = (deliver send_fn [] (messages (stream rs))).1 ∧
      ((∀ before msg, send_fn before msg = true) → w.handed = messages (stream rs)) ∧
      ∀ rs' w', Run (Step send_fn) Worker.start rs' w' → stream rs' = stream rs →
        w'.handed = w.handed := by
  have hlaw : ∀ rs w, Run (Step send_fn) Worker.start rs w → ShortLines (stream rs) →
      w.handed = (deliver send_fn [] (messages (stream rs))).1 := fun rs w hrun hshort =>
    congrArg Prod.fst (invariant_start.run hrun hshort).handed
  refine ⟨hlaw rs w h hshort, fun hsend => ?_, fun rs' w' hrun' heq => ?_⟩
  · rw [hlaw rs w h hshort, deliver_of_accepts hsend, nil_append]
  · rw [hlaw rs w h hshort, hlaw rs' w' hrun' (heq ▸ hshort), heq]

/-- A stream that is cut inside the priority, and between the carriage return and the newline. -/
theorem segmentation_law_cut :
    ∃ w, Run (Step fun _ _ => true) Worker.start
      [.data (lit "<1"), .quiet, .data (lit "3>a\r"), .data (lit "\nb\nc")] w ∧
        w.handed = [lit "a", lit "b"] := by
  obtain ⟨w, hrun⟩ : ∃ w, Run (Step fun _ _ => true) Worker.start
      [.data (lit "<1"), .quiet, .data (lit "3>a\r"), .data (lit "\nb\nc")] w :=
    ⟨_, .cons (.data rfl (by decide) (by decide)) <| .cons (.quiet rfl) <|
      .cons (.data rfl (by decide) (by decide)) <|
      .cons (.data rfl (by decide) (by decide)) (.nil _)⟩
  refine ⟨w, hrun, ?_⟩
  rw [(segmentation_law hrun (by decide)).2.1 fun _ _ => rfl]
  decide

end Remoted.SyslogTcp
