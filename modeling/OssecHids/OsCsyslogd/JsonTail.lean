import Mathlib.Data.List.Infix
import OssecHids.Lib.Transition
import OssecHids.OsCsyslogd.JsonQueue

/-!
# Following the file of JSON alerts

Runs in which the file is written, rotated and truncated while the reader asks for the next alert.
Beside the files and the queue a state tells what the reader owes: the complete lines of the files
that it has left, as they were when it last read them.

- `Reads.after`: what one read returns;
- `step_invariant`: the returned alerts are those of the lines up to the position of the reader;
- `jsonQueue_law`: every complete line of JSON is returned once and in order.
-/

open CString Framing Transition List Option

namespace JsonQueue

/-- The files and the queue, and what the reader has returned and owes. -/
structure State (J : Type*) where
  disk : Disk
  queue : FileQueue
  /-- The number of lines of the file of the queue that are not to be returned. -/
  skip : ℕ
  /-- The file of the queue when it was last read, since it was opened or cut. -/
  lastRead : Option Bytes
  /-- The lines that were to be returned from other files, or before the file was cut. -/
  behind : List Bytes
  returned : List J

inductive Label
  | append (bytes : Bytes)
  | rotate (ino : ℕ)
  | unlink
  | truncate (size : ℕ)
  | next

/-- Write to a file. -/
def Disk.set (disk : Disk) (ino : ℕ) (data : Bytes) : Disk :=
  { disk with data := Function.update disk.data ino data }

section Model

variable {J : Type*} (parse : Bytes → Option J)

/-- The complete lines that are to be returned from what was read last. -/
def State.due (s : State J) : List Bytes :=
  s.lastRead.elim [] fun data => (frames (chr '\n') data).drop s.skip

/-- The number of lines that stay in the file of the queue, of those that were to be returned. -/
def State.kept (s : State J) (data : Bytes) (size : ℕ) : ℕ :=
  match s.lastRead with
  | some read => (frames (chr '\n') (read.take size)).length
  | none => min s.skip (frames (chr '\n') (data.take size)).length

/-- The file is cut. -/
def State.truncate (s : State J) (ino size : ℕ) : State J :=
  if s.queue.fp.map Stream.ino = some ino then
    { s with
      disk := s.disk.set ino ((s.disk.data ino).take size)
      skip := s.kept (s.disk.data ino) size
      lastRead := none
      behind := s.behind ++ s.due }
  else { s with disk := s.disk.set ino ((s.disk.data ino).take size) }

/-- `jqueue_next`. If the file that was read is left, its lines stay behind. -/
def State.next (s : State J) : State J :=
  let (queue, alert) := jqueueNext parse s.disk s.queue
  match (s.queue.fp.map Stream.ino).or s.disk.name with
  | none => { s with queue, returned := s.returned ++ alert.toList }
  | some ino =>
    if queue.fp.map Stream.ino = some ino then
      { s with
        queue
        lastRead := some (s.disk.data ino)
        returned := s.returned ++ alert.toList }
    else
      { s with
        queue
        skip := 0
        lastRead := queue.fp.map fun fp => s.disk.data fp.ino
        behind := s.behind ++ (frames (chr '\n') (s.disk.data ino)).drop s.skip
        returned := s.returned ++ alert.toList }

/-- A step. The inode of an open file is not used for another one. -/
inductive Step : State J → Label → State J → Prop
  | append {s : State J} {ino : ℕ} {bytes : Bytes} (hname : s.disk.name = some ino) :
      Step s (.append bytes) { s with disk := s.disk.set ino (s.disk.data ino ++ bytes) }
  | rotate {s : State J} {ino : ℕ} (hopen : s.queue.fp.map Stream.ino ≠ some ino)
      (hname : s.disk.name ≠ some ino) :
      Step s (.rotate ino) { s with disk := { s.disk.set ino [] with name := some ino } }
  | unlink {s : State J} : Step s .unlink { s with disk := { s.disk with name := none } }
  | truncate {s : State J} {ino size : ℕ} (hname : s.disk.name = some ino) :
      Step s (.truncate size) (s.truncate ino size)
  | next {s : State J} : Step s .next (s.next parse)

/-- The reader starts with a file that it has opened, at its beginning or at its end, or without
one. -/
def start (J : Type*) (disk : Disk) (tail : Bool) : State J where
  disk := disk
  queue := (jqueueOpenPath disk tail).getD ⟨none, ⟨0, 0⟩, false⟩
  skip := if tail then disk.name.elim 0 fun ino => (frames (chr '\n') (disk.data ino)).length else 0
  lastRead := disk.name.map fun ino => if tail then disk.data ino else []
  behind := []
  returned := []

/-- **What is to be returned is returned**, in order and once: all lines of JSON of the files that
were left, and the first ones of the file that is read. -/
def Kept (s : State J) : Prop :=
  ∃ lines, lines <+: s.due ∧ s.returned = (s.behind ++ lines).filterMap parse

/-! ## When nothing goes wrong -/

/-- Of the complete lines of a file none is JSON. -/
def NoAlert (data : Bytes) : Prop := (frames (chr '\n') data).filterMap parse = []

/-- A file is cut when all of its alerts have been returned, and none of them stays in it. -/
def MeetsTruncate (s : State J) (size : ℕ) : Prop :=
  ∀ fp read, s.queue.fp = some fp → s.disk.name = some fp.ino → s.lastRead = some read →
    NoAlert parse (read.drop fp.pos) ∧ NoAlert parse (read.take size)

/-- A file that is called `alerts.json` no more has no alert behind a line that is not JSON. If it
was cut since the last call, there is no alert at the old position, and the cut is noticed; or the
reader was at the beginning of the file. -/
def MeetsNext (s : State J) : Prop :=
  ∀ fp, s.queue.fp = some fp →
    let data := s.disk.data fp.ino
    let alert := (nextLine data fp.pos).bind parse
    (s.disk.name ≠ some fp.ino → alert = none → NoAlert parse (data.drop fp.pos)) ∧
    (s.lastRead = none →
      (alert = none ∨ (fp.pos = 0 ∧ s.queue.f_status.st_size ≤ data.length)) ∧
      (fp.pos = 0 ∨
        if s.disk.name = some fp.ino then
          data.length < s.queue.f_status.st_size ∨ data.length < fp.pos
        else NoAlert parse data))

/-- The condition on a step. -/
def Meets (s : State J) : Label → Prop
  | .append bytes => 0 ∉ bytes
  | .truncate size => MeetsTruncate parse s size
  | .next => MeetsNext parse s
  | _ => True

end Model

/-! ## Reading a file -/

/-- The position is one between two lines, and of the lines that are not to be returned only those
are not read yet that are no alerts. -/
structure Reads {J : Type*} (parse : Bytes → Option J) (data : Bytes) (skip pos : ℕ) : Prop where
  skip_le : skip ≤ (frames (chr '\n') data).length
  pos_le : pos ≤ data.length
  rest : rest (chr '\n') (data.take pos) = []
  skipped : (((frames (chr '\n') data).take skip).drop
    (frames (chr '\n') (data.take pos)).length).filterMap parse = []

/-- The lines that were to be returned and have been read. -/
def passed (data : Bytes) (skip pos : ℕ) : List Bytes :=
  (frames (chr '\n') (data.take pos)).drop skip

section Reads

variable {J : Type*} {parse : Bytes → Option J} {data : Bytes} {skip pos : ℕ}

/-- The lines in front of a position between two lines, and those behind it. -/
theorem frames_split (hrest : rest (chr '\n') (data.take pos) = []) :
    frames (chr '\n') data =
      frames (chr '\n') (data.take pos) ++ frames (chr '\n') (data.drop pos) := by
  nth_rewrite 1 [← take_append_drop pos data]
  rw [frames_append, hrest, nil_append]

theorem frames_isPrefix {read : Bytes} (h : read <+: data) :
    frames (chr '\n') read <+: frames (chr '\n') data := by
  obtain ⟨t, rfl⟩ := h
  rw [frames_append]
  exact prefix_append _ _

theorem filterMap_eq_nil_of_sublist {l l' : List Bytes} (h : l'.filterMap parse = [])
    (hsub : l.Sublist l') : l.filterMap parse = [] :=
  eq_nil_of_sublist_nil (h ▸ hsub.filterMap parse)

theorem reads_zero (hle : skip ≤ (frames (chr '\n') data).length)
    (hskip : ((frames (chr '\n') data).take skip).filterMap parse = []) :
    Reads parse data skip 0 where
  skip_le := hle
  pos_le := Nat.zero_le _
  rest := rest_of_notMem (by simp)
  skipped := by
    rwa [take_zero, frames_of_notMem not_mem_nil, length_nil, drop_zero]

theorem passed_zero (data : Bytes) (skip : ℕ) : passed data skip 0 = [] := by
  rw [passed, take_zero, frames_of_notMem not_mem_nil, drop_nil]

theorem Reads.append (h : Reads parse data skip pos) (bytes : Bytes) :
    Reads parse (data ++ bytes) skip pos := by
  have htake : (data ++ bytes).take pos = data.take pos := take_append_of_le_length h.pos_le
  refine ⟨?_, ?_, by rw [htake]; exact h.rest, ?_⟩
  · rw [frames_append, length_append]
    exact Nat.le_add_right_of_le h.skip_le
  · rw [length_append]
    exact Nat.le_add_right_of_le h.pos_le
  · rw [htake, frames_append, take_append_of_le_length h.skip_le]
    exact h.skipped

theorem Reads.passed_append (h : Reads parse data skip pos) (bytes : Bytes) :
    passed (data ++ bytes) skip pos = passed data skip pos := by
  rw [passed, take_append_of_le_length h.pos_le, passed]

/-- **One read**: the next line is passed, and returned if it is an alert. -/
theorem Reads.after (h : Reads parse data skip pos) :
    Reads parse data skip (posAfter data pos) ∧
      (passed data skip (posAfter data pos)).filterMap parse =
        (passed data skip pos).filterMap parse ++ ((nextLine data pos).bind parse).toList := by
  cases hnext : nextLine data pos with
  | none =>
    have hpos : posAfter data pos = pos := by
      rw [posAfter, hnext]
      rfl
    rw [hpos]
    exact ⟨h, (append_nil _).symm⟩
  | some line =>
    have hpos : posAfter data pos = pos + line.length + 1 := by
      rw [posAfter, hnext]
      rfl
    obtain ⟨hnl, r, hdrop⟩ := nextLine_eq_some hnext
    have htake : data.take (pos + line.length + 1) = data.take pos ++ (line ++ chr '\n' :: []) := by
      rw [add_assoc, take_add, hdrop]
      refine congrArg _ ?_
      rw [take_append, take_of_length_le (by omega), Nat.add_sub_cancel_left]
      rfl
    have hframes : frames (chr '\n') (data.take (pos + line.length + 1)) =
        frames (chr '\n') (data.take pos) ++ [line] := by
      rw [htake, frames_append, h.rest, nil_append, frames_append_cons hnl,
        frames_of_notMem not_mem_nil]
    have hall : frames (chr '\n') data =
        frames (chr '\n') (data.take pos) ++ (line :: frames (chr '\n') r) := by
      rw [frames_split h.rest, hdrop, frames_append_cons hnl]
    rw [hpos]
    refine ⟨⟨h.skip_le, ?_, ?_, ?_⟩, ?_⟩
    · have hlen := congrArg List.length hdrop
      rw [length_drop, length_append, length_cons] at hlen
      have := h.pos_le
      omega
    · rw [htake, rest_append, h.rest, nil_append, rest_append_cons hnl]
      exact rest_of_notMem not_mem_nil
    · rw [hframes, length_append, length_singleton, ← drop_drop]
      exact filterMap_eq_nil_of_sublist h.skipped (drop_sublist 1 _)
    · rw [passed, hframes, passed, bind_some]
      by_cases hskip : skip ≤ (frames (chr '\n') (data.take pos)).length
      case pos =>
        rw [drop_append_of_le_length hskip, filterMap_append]
        refine congrArg _ ?_
        cases hparse : parse line <;> simp [hparse]
      case neg =>
        -- the line is not to be returned, so it is no alert
        have hle : (frames (chr '\n') (data.take pos)).length ≤ skip := by omega
        have hle' : (frames (chr '\n') (data.take pos) ++ [line]).length ≤ skip := by
          rw [length_append, length_singleton]
          omega
        have hmem : line ∈ ((frames (chr '\n') data).take skip).drop
            (frames (chr '\n') (data.take pos)).length := by
          rw [hall, take_append, take_of_length_le hle, drop_left]
          obtain ⟨k, hk⟩ := Nat.exists_eq_add_one_of_ne_zero (show
            skip - (frames (chr '\n') (data.take pos)).length ≠ 0 by omega)
          rw [hk, take_succ_cons]
          exact mem_cons_self
        have hparse : parse line = none := filterMap_eq_nil_iff.mp h.skipped line hmem
        rw [hparse, drop_of_length_le hle, drop_of_length_le hle']
        rfl

theorem filterMap_passed (hrest : rest (chr '\n') (data.take pos) = [])
    (hnone : NoAlert parse (data.drop pos)) (skip : ℕ) :
    ((frames (chr '\n') data).drop skip).filterMap parse =
      (passed data skip pos).filterMap parse := by
  rw [passed, frames_split hrest, drop_append, filterMap_append,
    filterMap_eq_nil_of_sublist hnone (drop_sublist _ _), append_nil]

end Reads

/-! ## Where the reader is -/

section Runs

variable {J : Type*} {parse : Bytes → Option J}

/-- The lines of the file of the queue that have been passed. -/
inductive At (parse : Bytes → Option J) (s : State J) : List Bytes → Prop
  | closed (hfp : s.queue.fp = none) (hlast : s.lastRead = none) (hskip : s.skip = 0) :
      At parse s []
  | cut {fp : Stream} (hfp : s.queue.fp = some fp) (hino : s.queue.f_status.st_ino = fp.ino)
      (hlast : s.lastRead = none) (hreads : Reads parse (s.disk.data fp.ino) s.skip 0) :
      At parse s []
  | reading {fp : Stream} {read : Bytes} (hfp : s.queue.fp = some fp)
      (hino : s.queue.f_status.st_ino = fp.ino)
      (hsize : s.queue.f_status.st_size ≤ (s.disk.data fp.ino).length)
      (hlast : s.lastRead = some read) (hread : read <+: s.disk.data fp.ino)
      (hpos : fp.pos ≤ read.length) (hreads : Reads parse (s.disk.data fp.ino) s.skip fp.pos) :
      At parse s (passed (s.disk.data fp.ino) s.skip fp.pos)

/-- Files have no zero bytes, and the alerts of the lines that have been passed were returned. -/
structure Invariant (parse : Bytes → Option J) (s : State J) : Prop where
  ne_zero : ∀ ino, 0 ∉ s.disk.data ino
  returned : ∃ lines, At parse s lines ∧ s.returned = (s.behind ++ lines).filterMap parse

variable {s s' : State J} {fp : Stream} {f_status : Stat}

theorem Reads.of_isPrefix {data read : Bytes} {skip pos : ℕ} (h : Reads parse data skip pos)
    (hread : read <+: data) (hpos : pos ≤ read.length) :
    passed data skip pos <+: (frames (chr '\n') read).drop skip := by
  obtain ⟨t, rfl⟩ := hread
  rw [passed, take_append_of_le_length hpos]
  nth_rewrite 2 [← take_append_drop pos read]
  rw [frames_append, drop_append]
  exact prefix_append _ _

theorem Invariant.kept (h : Invariant parse s) : Kept parse s := by
  obtain ⟨lines, hat, hreturned⟩ := h.returned
  refine ⟨lines, ?_, hreturned⟩
  cases hat with
  | closed hfp hlast hskip => exact List.nil_prefix
  | cut hfp hino hlast hreads => exact List.nil_prefix
  | reading hfp hino hsize hlast hread hpos hreads =>
    rw [State.due, hlast]
    exact hreads.of_isPrefix hread hpos

/-- `State.next` for a file that is open. -/
def State.readFrom (parse : Bytes → Option J) (s : State J) (fp : Stream) (f_status : Stat) :
    State J :=
  let (queue, alert) := nextOpen parse s.disk fp f_status
  if queue.fp.map Stream.ino = some fp.ino then
    { s with
      queue
      lastRead := some (s.disk.data fp.ino)
      returned := s.returned ++ alert.toList }
  else
    { s with
      queue
      skip := 0
      lastRead := queue.fp.map fun fp => s.disk.data fp.ino
      behind := s.behind ++ (frames (chr '\n') (s.disk.data fp.ino)).drop s.skip
      returned := s.returned ++ alert.toList }

theorem next_of_fp (hfp : s.queue.fp = some fp) :
    s.next parse = s.readFrom parse fp s.queue.f_status := by
  rw [State.next, jqueueNext, hfp]
  rfl

theorem next_of_name {ino : ℕ} (hfp : s.queue.fp = none) (hname : s.disk.name = some ino) :
    s.next parse = s.readFrom parse ⟨ino, 0⟩ ⟨ino, (s.disk.data ino).length⟩ := by
  have hopen : jqueueOpenPath s.disk false =
      some ⟨some ⟨ino, 0⟩, ⟨ino, (s.disk.data ino).length⟩, false⟩ := by
    rw [jqueueOpenPath, hname]
    rfl
  rw [State.next, jqueueNext, hfp, hopen, map_none, none_or, hname]
  rfl

theorem next_of_none (hfp : s.queue.fp = none) (hname : s.disk.name = none) : s.next parse = s := by
  have hopen : jqueueOpenPath s.disk false = none := by
    rw [jqueueOpenPath, hname]
    rfl
  rw [State.next, jqueueNext, hfp, hopen, map_none, none_or, hname]
  dsimp only
  rw [toList_none, append_nil]

/-- A state in which a file has just been read up to a position. -/
def State.after (s : State J) (queue : FileQueue) (ino : ℕ) (alert : Option J) : State J :=
  { s with queue, lastRead := some (s.disk.data ino), returned := s.returned ++ alert.toList }

/-- The reader goes on in its file. -/
theorem invariant_after (hz : ∀ ino, 0 ∉ s.disk.data ino) {ino pos : ℕ} {queue : FileQueue}
    {alert : Option J} {lines : List Bytes}
    (hfp : queue.fp = some ⟨ino, posAfter (s.disk.data ino) pos⟩)
    (hino : queue.f_status.st_ino = ino)
    (hsize : queue.f_status.st_size ≤ (s.disk.data ino).length)
    (hreads : Reads parse (s.disk.data ino) s.skip pos)
    (halert : (nextLine (s.disk.data ino) pos).bind parse = alert)
    (hlines : lines.filterMap parse = (passed (s.disk.data ino) s.skip pos).filterMap parse)
    (hreturned : s.returned = (s.behind ++ lines).filterMap parse) :
    Invariant parse (s.after queue ino alert) := by
  obtain ⟨hafter, hpassed⟩ := hreads.after
  refine ⟨hz, _, At.reading hfp hino hsize rfl prefix_rfl hafter.pos_le hafter, ?_⟩
  show s.returned ++ alert.toList = (s.behind ++ _).filterMap parse
  rw [hreturned, filterMap_append, filterMap_append, hlines, append_assoc, ← halert, ← hpassed]
  rfl

/-- A state in which the file of the queue has been left. -/
def State.left (s : State J) (ino : ℕ) : State J :=
  { s with
    skip := 0
    behind := s.behind ++ (frames (chr '\n') (s.disk.data ino)).drop s.skip }

section ReadFrom

variable (hz : ∀ ino, 0 ∉ s.disk.data ino)

include hz

theorem readFrom_alert {alert : J}
    (halert : (nextLine (s.disk.data fp.ino) fp.pos).bind parse = some alert) :
    s.readFrom parse fp f_status =
      s.after ⟨some ⟨fp.ino, posAfter (s.disk.data fp.ino) fp.pos⟩, f_status, false⟩ fp.ino
        (some alert) := by
  rw [State.readFrom, nextOpen_eq_some (hz fp.ino) halert]
  exact if_pos rfl

variable (halert : (nextLine (s.disk.data fp.ino) fp.pos).bind parse = none)
  (hino : f_status.st_ino = fp.ino)

include halert hino

theorem readFrom_wait (hname : s.disk.name = some fp.ino)
    (hsame : ¬((s.disk.data fp.ino).length < f_status.st_size ∨
      (0 < posAfter (s.disk.data fp.ino) fp.pos ∧
        (s.disk.data fp.ino).length < posAfter (s.disk.data fp.ino) fp.pos))) :
    s.readFrom parse fp f_status =
      s.after ⟨some ⟨fp.ino, posAfter (s.disk.data fp.ino) fp.pos⟩,
        ⟨fp.ino, (s.disk.data fp.ino).length⟩, false⟩ fp.ino none := by
  have hstat : s.disk.stat = some ⟨fp.ino, (s.disk.data fp.ino).length⟩ := by
    rw [Disk.stat, hname]
    rfl
  rw [State.readFrom, nextOpen_eq_none (hz fp.ino) halert, hstat]
  dsimp only
  rw [if_neg (not_not_intro hino.symm), if_neg hsame]
  exact if_pos rfl

/-- The file is read from its beginning. -/
theorem readFrom_rewind (hname : s.disk.name = some fp.ino)
    (hcut : (s.disk.data fp.ino).length < f_status.st_size ∨
      (0 < posAfter (s.disk.data fp.ino) fp.pos ∧
        (s.disk.data fp.ino).length < posAfter (s.disk.data fp.ino) fp.pos)) :
    ∃ failed, s.readFrom parse fp f_status =
      s.after ⟨some ⟨fp.ino, posAfter (s.disk.data fp.ino) 0⟩,
        ⟨fp.ino, (s.disk.data fp.ino).length⟩, failed⟩ fp.ino
        ((nextLine (s.disk.data fp.ino) 0).bind parse) := by
  have hstat : s.disk.stat = some ⟨fp.ino, (s.disk.data fp.ino).length⟩ := by
    rw [Disk.stat, hname]
    rfl
  refine ⟨decide ((s.disk.data fp.ino).drop 0 = []), ?_⟩
  rw [State.readFrom, nextOpen_eq_none (hz fp.ino) halert, hstat]
  dsimp only
  rw [if_neg (not_not_intro hino.symm), if_pos hcut, parseFrom_eq (hz fp.ino)]
  exact if_pos rfl

omit hino in
theorem readFrom_close (hname : s.disk.name = none) :
    s.readFrom parse fp f_status =
      { s.left fp.ino with queue := ⟨none, f_status, false⟩, lastRead := none } := by
  have hstat : s.disk.stat = none := by
    rw [Disk.stat, hname]
    rfl
  rw [State.readFrom, nextOpen_eq_none (hz fp.ino) halert, hstat]
  dsimp only
  rw [if_neg (by simp), toList_none, append_nil]
  rfl

/-- There is another file, and it is read from its beginning. -/
theorem readFrom_reopen {ino : ℕ} (hname : s.disk.name = some ino) (hne : ino ≠ fp.ino) :
    ∃ failed, s.readFrom parse fp f_status =
      (s.left fp.ino).after ⟨some ⟨ino, posAfter (s.disk.data ino) 0⟩,
        ⟨ino, (s.disk.data ino).length⟩, failed⟩ ino
        ((nextLine (s.disk.data ino) 0).bind parse) := by
  have hstat : s.disk.stat = some ⟨ino, (s.disk.data ino).length⟩ := by
    rw [Disk.stat, hname]
    rfl
  refine ⟨decide ((s.disk.data ino).drop 0 = []), ?_⟩
  rw [State.readFrom, nextOpen_eq_none (hz fp.ino) halert, hstat]
  dsimp only
  have hother : ino ≠ f_status.st_ino := by rwa [hino]
  rw [if_pos hother, parseFrom_eq (hz ino)]
  rw [if_neg (by simpa using hne)]
  rfl

/-- **The file is left**: its alerts have all been returned. -/
theorem invariant_leave (hname : s.disk.name ≠ some fp.ino)
    (hreturned : s.returned =
      (s.behind ++ (frames (chr '\n') (s.disk.data fp.ino)).drop s.skip).filterMap parse) :
    Invariant parse (s.readFrom parse fp f_status) := by
  cases hcase : s.disk.name with
  | none =>
    rw [readFrom_close hz halert hcase]
    refine ⟨hz, [], At.closed rfl rfl rfl, ?_⟩
    rw [append_nil]
    exact hreturned
  | some ino =>
    rw [hcase] at hname
    obtain ⟨failed, heq⟩ := readFrom_reopen hz halert hino hcase fun h => hname (congrArg some h)
    have hzero : Reads parse (s.disk.data ino) 0 0 := reads_zero (Nat.zero_le _) rfl
    rw [heq]
    refine @invariant_after _ _ (s.left fp.ino) hz _ _ _ _ [] rfl rfl le_rfl hzero rfl
      ?_ ?_
    · rw [show (s.left fp.ino).skip = 0 from rfl, passed_zero]
    · rw [append_nil]
      exact hreturned

end ReadFrom

/-- **A call** in a file that is read from a position on. -/
theorem invariant_read (hz : ∀ ino, 0 ∉ s.disk.data ino) (hino : f_status.st_ino = fp.ino)
    (hsize : f_status.st_size ≤ (s.disk.data fp.ino).length)
    (hreads : Reads parse (s.disk.data fp.ino) s.skip fp.pos)
    (hreturned : s.returned =
      (s.behind ++ passed (s.disk.data fp.ino) s.skip fp.pos).filterMap parse)
    (hleft : s.disk.name ≠ some fp.ino →
      (nextLine (s.disk.data fp.ino) fp.pos).bind parse = none →
        NoAlert parse ((s.disk.data fp.ino).drop fp.pos)) :
    Invariant parse (s.readFrom parse fp f_status) := by
  cases halert : (nextLine (s.disk.data fp.ino) fp.pos).bind parse with
  | some alert =>
    rw [readFrom_alert hz halert]
    exact invariant_after hz rfl hino hsize hreads halert rfl hreturned
  | none =>
    by_cases hname : s.disk.name = some fp.ino
    case pos =>
      have hpos := hreads.after.1.pos_le
      rw [readFrom_wait hz halert hino hname (by omega)]
      exact invariant_after hz rfl rfl le_rfl hreads halert rfl hreturned
    case neg =>
      apply invariant_leave hz halert hino hname
      rw [hreturned, filterMap_append, filterMap_append,
        filterMap_passed hreads.rest (hleft hname halert)]

/-- **A call** after the file was cut. -/
theorem invariant_rewind (hz : ∀ ino, 0 ∉ s.disk.data ino) (hino : f_status.st_ino = fp.ino)
    (hreads : Reads parse (s.disk.data fp.ino) s.skip 0)
    (hreturned : s.returned = s.behind.filterMap parse)
    (halert : (nextLine (s.disk.data fp.ino) fp.pos).bind parse = none)
    (hcut : if s.disk.name = some fp.ino then
        (s.disk.data fp.ino).length < f_status.st_size ∨ (s.disk.data fp.ino).length < fp.pos
      else NoAlert parse (s.disk.data fp.ino)) :
    Invariant parse (s.readFrom parse fp f_status) := by
  by_cases hname : s.disk.name = some fp.ino
  case pos =>
    rw [if_pos hname] at hcut
    have hnoticed : (s.disk.data fp.ino).length < f_status.st_size ∨
        (0 < posAfter (s.disk.data fp.ino) fp.pos ∧
          (s.disk.data fp.ino).length < posAfter (s.disk.data fp.ino) fp.pos) := by
      refine hcut.imp_right fun hlt => ?_
      have hpos : fp.pos ≤ posAfter (s.disk.data fp.ino) fp.pos := by
        rw [posAfter]
        cases nextLine (s.disk.data fp.ino) fp.pos with
        | none => exact le_rfl
        | some line => exact (Nat.le_add_right _ _).trans (Nat.le_succ _)
      omega
    obtain ⟨failed, heq⟩ := readFrom_rewind hz halert hino hname hnoticed
    rw [heq]
    refine @invariant_after _ _ _ hz _ _ _ _ [] rfl rfl le_rfl hreads rfl ?_ ?_
    · rw [passed_zero]
    · rwa [append_nil]
  case neg =>
    rw [if_neg hname] at hcut
    apply invariant_leave hz halert hino hname
    have hpassed := filterMap_passed hreads.rest (by rwa [drop_zero]) s.skip
    rw [passed_zero] at hpassed
    rw [hreturned, filterMap_append, hpassed, filterMap_nil, append_nil]

/-- A call returns what is to be returned. -/
theorem invariant_next (h : Invariant parse s) (hmeets : MeetsNext parse s) :
    Invariant parse (s.next parse) := by
  obtain ⟨hz, lines, hat, hreturned⟩ := h
  cases hat with
  | closed hfp hlast hskip =>
    rw [append_nil] at hreturned
    cases hname : s.disk.name with
    | none =>
      rw [next_of_none hfp hname]
      exact ⟨hz, [], At.closed hfp hlast hskip, by rwa [append_nil]⟩
    | some ino =>
      have hzero : Reads parse (s.disk.data ino) s.skip 0 := by
        rw [hskip]
        exact reads_zero (Nat.zero_le _) rfl
      rw [next_of_name hfp hname]
      refine invariant_read hz rfl le_rfl hzero ?_ fun hne => absurd hname hne
      rwa [passed_zero, append_nil]
  | @cut fp hfp hino hlast hreads =>
    obtain ⟨hold, hcut⟩ := hmeets fp hfp
    obtain ⟨halert, hcut⟩ := hcut hlast
    rw [append_nil] at hreturned
    rw [next_of_fp hfp]
    by_cases hpos : fp.pos = 0
    case neg =>
      have halert := halert.resolve_right fun hzero => hpos hzero.1
      exact invariant_rewind hz hino hreads hreturned halert (hcut.resolve_left hpos)
    case pos =>
      by_cases hsize : s.queue.f_status.st_size ≤ (s.disk.data fp.ino).length
      case pos =>
        rw [← hpos] at hreads
        refine invariant_read hz hino hsize hreads ?_ hold
        rwa [hpos, passed_zero, append_nil]
      case neg =>
        have halert := halert.resolve_right fun hzero => hsize hzero.2
        refine invariant_rewind hz hino hreads hreturned halert ?_
        split
        case isTrue => exact .inl (Nat.lt_of_not_le hsize)
        case isFalse hname =>
          have hnone := hold hname halert
          rwa [hpos, drop_zero] at hnone
  | @reading fp read hfp hino hsize hlast hread hpos hreads =>
    rw [next_of_fp hfp]
    exact invariant_read hz hino hsize hreads hreturned (hmeets fp hfp).1

/-- The files grow, or the name goes to another one. -/
theorem At.grow {lines : List Bytes} (h : At parse s lines) {disk : Disk}
    (hgrow : ∀ fp, s.queue.fp = some fp → s.disk.data fp.ino <+: disk.data fp.ino) :
    At parse { s with disk } lines := by
  cases h with
  | closed hfp hlast hskip => exact At.closed hfp hlast hskip
  | @cut fp hfp hino hlast hreads =>
    obtain ⟨t, ht⟩ := hgrow fp hfp
    exact At.cut hfp hino hlast (ht ▸ hreads.append t)
  | @reading fp read hfp hino hsize hlast hread hpos hreads =>
    obtain ⟨t, ht⟩ := hgrow fp hfp
    have hle : (s.disk.data fp.ino).length ≤ (disk.data fp.ino).length :=
      (hgrow fp hfp).length_le
    have hat := @At.reading _ _ { s with disk } _ _ hfp hino (hsize.trans hle) hlast
      (hread.trans (hgrow fp hfp)) hpos (ht ▸ hreads.append t)
    have hpassed : passed (disk.data fp.ino) s.skip fp.pos =
        passed (s.disk.data fp.ino) s.skip fp.pos := ht ▸ hreads.passed_append t
    exact hpassed ▸ hat

theorem set_data_self (disk : Disk) (ino : ℕ) (data : Bytes) :
    (disk.set ino data).data ino = data :=
  Function.update_self ..

theorem set_data_of_ne (disk : Disk) {ino ino' : ℕ} (hne : ino' ≠ ino) (data : Bytes) :
    (disk.set ino data).data ino' = disk.data ino' := Function.update_of_ne hne ..

theorem set_ne_zero {disk : Disk} (hz : ∀ ino, 0 ∉ disk.data ino) {ino : ℕ} {data : Bytes}
    (hdata : 0 ∉ data) : ∀ ino', 0 ∉ (disk.set ino data).data ino' := by
  intro ino'
  by_cases hino : ino' = ino
  · rw [hino, set_data_self]
    exact hdata
  · rw [set_data_of_ne disk hino]
    exact hz ino'

/-- The file is cut, and nothing is lost or comes again. -/
theorem invariant_truncate {ino size : ℕ} (h : Invariant parse s) (hname : s.disk.name = some ino)
    (hmeets : MeetsTruncate parse s size) : Invariant parse (s.truncate ino size) := by
  obtain ⟨hz, lines, hat, hreturned⟩ := h
  have htake : 0 ∉ (s.disk.data ino).take size := fun hmem => hz ino (mem_of_mem_take hmem)
  have hprefix : (s.disk.data ino).take size <+: s.disk.data ino := List.take_prefix ..
  by_cases hfp : s.queue.fp.map Stream.ino = some ino
  case neg =>
    rw [State.truncate, if_neg hfp]
    refine ⟨set_ne_zero hz htake, lines, hat.grow fun fp hopen => ?_, hreturned⟩
    have hne : fp.ino ≠ ino := fun heq => hfp (by rw [hopen, map_some, heq])
    rw [set_data_of_ne _ hne]
  case pos =>
    rw [State.truncate, if_pos hfp]
    refine ⟨set_ne_zero hz htake, [], ?_⟩
    cases hat with
    | closed hclosed => rw [hclosed] at hfp; cases hfp
    | @cut fp hopen hino hlast hreads =>
      obtain rfl : fp.ino = ino := by
        rw [hopen] at hfp
        exact some.inj hfp
      have hskip : s.kept (s.disk.data fp.ino) size =
          min s.skip (frames (chr '\n') ((s.disk.data fp.ino).take size)).length := by
        rw [State.kept, hlast]
      constructor
      · refine At.cut hopen hino rfl ?_
        rw [set_data_self]
        rw [hskip]
        refine reads_zero (Nat.min_le_right ..) ?_
        have hkept := hreads.skipped
        rw [take_zero, frames_of_notMem not_mem_nil, length_nil, drop_zero] at hkept
        refine filterMap_eq_nil_of_sublist hkept (List.IsPrefix.sublist ?_)
        exact ((frames_isPrefix hprefix).take _).trans
          (take_prefix_take_left (Nat.min_le_left ..))
      · show s.returned = (s.behind ++ s.due ++ []).filterMap parse
        rw [State.due, hlast]
        simpa using hreturned
    | @reading fp read hopen hino hsize hlast hread hpos hreads =>
      obtain rfl : fp.ino = ino := by
        rw [hopen] at hfp
        exact some.inj hfp
      obtain ⟨hpassed, hkept⟩ := hmeets fp read hopen hname hlast
      have hskip : s.kept (s.disk.data fp.ino) size =
          (frames (chr '\n') (read.take size)).length := by
        rw [State.kept, hlast]
      have hframes : frames (chr '\n') (read.take size) <+:
          frames (chr '\n') ((s.disk.data fp.ino).take size) := frames_isPrefix (hread.take size)
      constructor
      · refine At.cut hopen hino rfl ?_
        rw [set_data_self]
        rw [hskip]
        refine reads_zero hframes.length_le ?_
        rw [← prefix_iff_eq_take.mp hframes]
        exact hkept
      · show s.returned = (s.behind ++ s.due ++ []).filterMap parse
        have hrest := hreads.rest
        obtain ⟨t, ht⟩ := hread
        rw [← ht, take_append_of_le_length hpos] at hrest
        rw [hreturned, State.due, hlast, append_nil, filterMap_append, filterMap_append]
        show _ = _ ++ ((frames (chr '\n') read).drop s.skip).filterMap parse
        rw [filterMap_passed hrest hpassed, ← ht, passed, take_append_of_le_length hpos, passed]

/-- **One step**: the alerts of the lines that have been passed were returned. -/
theorem step_invariant {l : Label} (h : Invariant parse s) (hstep : Step parse s l s')
    (hmeets : Meets parse s l) : Invariant parse s' := by
  cases hstep with
  | @append ino bytes hname =>
    obtain ⟨hz, lines, hat, hreturned⟩ := h
    have hdata : 0 ∉ s.disk.data ino ++ bytes := by
      rw [mem_append, not_or]
      exact ⟨hz ino, hmeets⟩
    refine ⟨set_ne_zero hz hdata, lines, hat.grow fun fp hopen => ?_, hreturned⟩
    by_cases hino : fp.ino = ino
    · rw [hino, set_data_self]
      exact prefix_append _ _
    · rw [set_data_of_ne _ hino]
  | @rotate ino hopen hname =>
    obtain ⟨hz, lines, hat, hreturned⟩ := h
    refine ⟨set_ne_zero hz not_mem_nil, lines, hat.grow fun fp hfp => ?_, hreturned⟩
    have hne : fp.ino ≠ ino := fun heq => hopen (by rw [hfp, map_some, heq])
    show s.disk.data fp.ino <+: (s.disk.set ino []).data fp.ino
    rw [set_data_of_ne _ hne]
  | unlink =>
    obtain ⟨hz, lines, hat, hreturned⟩ := h
    exact ⟨hz, lines, hat.grow fun _ _ => prefix_rfl, hreturned⟩
  | truncate hname => exact invariant_truncate h hname hmeets
  | next => exact invariant_next h hmeets

/-- The reader starts with nothing returned and nothing owed. -/
theorem invariant_start {disk : Disk} {tail : Bool} (hz : ∀ ino, 0 ∉ disk.data ino)
    (htail : tail = true → ∀ ino, disk.name = some ino → rest (chr '\n') (disk.data ino) = []) :
    Invariant parse (start J disk tail) := by
  cases hname : disk.name with
  | none =>
    refine ⟨hz, [], At.closed ?_ ?_ ?_, rfl⟩
    · rw [start, jqueueOpenPath, hname]
      rfl
    · rw [start, hname]
      rfl
    · rw [start, hname]
      cases tail <;> rfl
  | some ino =>
    have hqueue : (start J disk tail).queue = ⟨some ⟨ino, if tail then (disk.data ino).length else 0⟩,
        ⟨ino, (disk.data ino).length⟩, false⟩ := by
      rw [start, jqueueOpenPath, hname]
      rfl
    have hlast : (start J disk tail).lastRead = some (if tail then disk.data ino else []) := by
      rw [start, hname]
      rfl
    have hskip : (start J disk tail).skip =
        if tail then (frames (chr '\n') (disk.data ino)).length else 0 := by
      rw [start, hname]
      rfl
    have hreads : Reads parse (disk.data ino) (start J disk tail).skip
        (if tail then (disk.data ino).length else 0) := by
      rw [hskip]
      cases tail with
      | false => exact reads_zero (Nat.zero_le _) rfl
      | true =>
        refine ⟨le_rfl, le_rfl, ?_, ?_⟩
        · rw [if_pos rfl, take_length]
          exact htail rfl ino hname
        · rw [if_pos rfl, if_pos rfl, take_length, take_length, drop_length]
          rfl
    have hnone : (start J disk tail).returned = [] := rfl
    have hat : At parse (start J disk tail) _ := At.reading (congrArg FileQueue.fp hqueue)
      (congrArg (fun q => q.f_status.st_ino) hqueue) (by rw [hqueue]; exact le_rfl) hlast
      (by cases tail with
        | false => exact List.nil_prefix
        | true => exact prefix_rfl)
      (by cases tail <;> exact le_rfl) hreads
    refine ⟨hz, _, hat, ?_⟩
    have hpassed : passed (disk.data ino) (start J disk tail).skip
        (if tail then (disk.data ino).length else 0) = [] := by
      rw [hskip]
      cases tail with
      | false => exact passed_zero _ _
      | true =>
        rw [passed, if_pos rfl, if_pos rfl, take_length]
        exact drop_length
    exact (congrArg (List.filterMap parse) hpassed).symm

/-! ## Catching up -/

/-- The file that there is has been read to its end, or to an incomplete line. -/
def CaughtUp (s : State J) : Prop :=
  ∃ fp, s.queue.fp = some fp ∧ s.disk.name = some fp.ino ∧
    s.lastRead = some (s.disk.data fp.ino) ∧ nextLine (s.disk.data fp.ino) fp.pos = none

/-- All lines of the file are passed. -/
theorem Invariant.returned_of_caughtUp (h : Invariant parse s) (hup : CaughtUp s) :
    ∃ ino, s.disk.name = some ino ∧ s.lastRead = some (s.disk.data ino) ∧
      s.returned =
        (s.behind ++ (frames (chr '\n') (s.disk.data ino)).drop s.skip).filterMap parse := by
  obtain ⟨fp, hfp, hname, hlast, hnext⟩ := hup
  obtain ⟨hz, lines, hat, hreturned⟩ := h
  refine ⟨fp.ino, hname, hlast, ?_⟩
  cases hat with
  | closed hclosed => rw [hclosed] at hfp; cases hfp
  | cut hopen hino hnone => rw [hnone] at hlast; cases hlast
  | @reading fp' read hopen hino hsize hread hpre hpos hreads =>
    obtain rfl : fp' = fp := by
      rw [hopen] at hfp
      exact some.inj hfp
    have hnone : NoAlert parse ((s.disk.data fp'.ino).drop fp'.pos) := by
      rw [NoAlert, head?_eq_none_iff.mp hnext]
      rfl
    rw [hreturned, filterMap_append, filterMap_append, filterMap_passed hreads.rest hnone]

/-- The number of lines behind a position. -/
def unread (data : Bytes) (pos : ℕ) : ℕ := (frames (chr '\n') (data.drop pos)).length

/-- A bound for the calls that are needed until the reader has caught up. -/
def toRead (s : State J) (ino : ℕ) : ℕ :=
  match s.queue.fp with
  | none => unread (s.disk.data ino) 0 + 1
  | some fp =>
    (if s.lastRead = none then unread (s.disk.data fp.ino) 0 + 1
      else unread (s.disk.data fp.ino) fp.pos) +
      if fp.ino = ino then 0 else unread (s.disk.data ino) 0 + 1

theorem unread_posAfter {data : Bytes} {pos : ℕ} {line : Bytes}
    (h : nextLine data pos = some line) :
    unread data (posAfter data pos) + 1 = unread data pos := by
  obtain ⟨hnl, r, hdrop⟩ := nextLine_eq_some h
  have hpos : posAfter data pos = pos + (line.length + 1) := by
    rw [posAfter, h]
    rfl
  have hdrop' : data.drop (pos + (line.length + 1)) = r := by
    rw [← drop_drop, hdrop, append_cons, drop_left' (by simp)]
  rw [unread, hpos, hdrop', unread, hdrop, frames_append_cons hnl, length_cons]

theorem unread_posAfter_le (data : Bytes) (pos : ℕ) :
    unread data (posAfter data pos) ≤ unread data pos := by
  cases h : nextLine data pos with
  | none =>
    rw [posAfter, h]
    exact le_rfl
  | some line =>
    have := unread_posAfter h
    omega

theorem unread_le (data : Bytes) (pos : ℕ) : unread data pos ≤ unread data 0 := by
  rw [unread, unread, length_frames, length_frames, drop_zero]
  exact (drop_sublist pos data).count_le _

theorem toRead_after (s : State J) (queue : FileQueue) {ino : ℕ} {fp : Stream}
    (hfp : queue.fp = some fp)
    (ino' : ℕ) (alert : Option J) :
    toRead (s.after queue ino' alert) ino = unread (s.disk.data fp.ino) fp.pos +
      if fp.ino = ino then 0 else unread (s.disk.data ino) 0 + 1 := by
  rw [toRead, show (s.after queue ino' alert).queue.fp = some fp from hfp]
  rfl

/-- A call takes the reader further, as long as something is left to be read. -/
theorem progress_readFrom (hz : ∀ ino, 0 ∉ s.disk.data ino) (hino : f_status.st_ino = fp.ino)
    {ino n : ℕ}
    (hname : s.disk.name = some ino)
    (hbound : unread (s.disk.data fp.ino) fp.pos +
      (if fp.ino = ino then 0 else unread (s.disk.data ino) 0 + 1) ≤ n)
    (hcut : (s.disk.data fp.ino).length < f_status.st_size ∨
      (0 < posAfter (s.disk.data fp.ino) fp.pos ∧
        (s.disk.data fp.ino).length < posAfter (s.disk.data fp.ino) fp.pos) →
      unread (s.disk.data fp.ino) 0 < n) :
    CaughtUp (s.readFrom parse fp f_status) ∨ toRead (s.readFrom parse fp f_status) ino < n := by
  cases halert : (nextLine (s.disk.data fp.ino) fp.pos).bind parse with
  | some alert =>
    obtain ⟨line, hline, -⟩ := bind_eq_some_iff.mp halert
    have hread := unread_posAfter hline
    rw [readFrom_alert hz halert, toRead_after _ _ rfl]
    dsimp only
    exact .inr (by omega)
  | none =>
    by_cases hsame : fp.ino = ino
    case neg =>
      have hread := unread_posAfter_le (s.disk.data ino) 0
      obtain ⟨failed, heq⟩ := readFrom_reopen hz halert hino hname (Ne.symm hsame)
      rw [if_neg hsame] at hbound
      rw [heq, toRead_after _ _ rfl, if_pos rfl]
      refine .inr (Nat.lt_of_le_of_lt (m := unread (s.disk.data ino) 0) hread ?_)
      omega
    case pos =>
      subst hsame
      by_cases hnoticed : (s.disk.data fp.ino).length < f_status.st_size ∨
          (0 < posAfter (s.disk.data fp.ino) fp.pos ∧
            (s.disk.data fp.ino).length < posAfter (s.disk.data fp.ino) fp.pos)
      case pos =>
        have hread := unread_posAfter_le (s.disk.data fp.ino) 0
        obtain ⟨failed, heq⟩ := readFrom_rewind hz halert hino hname hnoticed
        rw [heq, toRead_after _ _ rfl, if_pos rfl]
        exact .inr (lt_of_le_of_lt hread (hcut hnoticed))
      case neg =>
        rw [readFrom_wait hz halert hino hname hnoticed]
        cases hnext : nextLine (s.disk.data fp.ino) fp.pos with
        | none =>
          have hpos : posAfter (s.disk.data fp.ino) fp.pos = fp.pos := by
            rw [posAfter, hnext]
            rfl
          exact .inl ⟨_, rfl, hname, rfl, hpos.symm ▸ hnext⟩
        | some line =>
          have hread := unread_posAfter hnext
          rw [toRead_after _ _ rfl, if_pos rfl]
          rw [if_pos rfl] at hbound
          refine .inr ?_
          dsimp only
          omega

theorem next_progress (h : Invariant parse s) {ino : ℕ} (hname : s.disk.name = some ino) :
    CaughtUp (s.next parse) ∨ toRead (s.next parse) ino < toRead s ino := by
  obtain ⟨hz, lines, hat, -⟩ := h
  cases hat with
  | closed hfp hlast hskip =>
    have hto : toRead s ino = unread (s.disk.data ino) 0 + 1 := by
      rw [toRead, hfp]
    rw [next_of_name hfp hname, hto]
    exact progress_readFrom hz rfl hname (by rw [if_pos rfl]; exact Nat.le_succ _)
      fun _ => Nat.lt_succ_self _
  | @cut fp hfp hino hlast hreads =>
    have hto : toRead s ino = unread (s.disk.data fp.ino) 0 + 1 +
        if fp.ino = ino then 0 else unread (s.disk.data ino) 0 + 1 := by
      rw [toRead, hfp]
      dsimp only
      rw [if_pos hlast]
    have hle := unread_le (s.disk.data fp.ino) fp.pos
    rw [next_of_fp hfp, hto]
    exact progress_readFrom hz hino hname (by omega) fun _ => by omega
  | @reading fp read hfp hino hsize hlast hread hpos hreads =>
    have hto : toRead s ino = unread (s.disk.data fp.ino) fp.pos +
        if fp.ino = ino then 0 else unread (s.disk.data ino) 0 + 1 := by
      rw [toRead, hfp]
      dsimp only
      rw [if_neg (by rw [hlast]; exact some_ne_none _)]
    have hafter := hreads.after.1.pos_le
    rw [next_of_fp hfp, hto]
    exact progress_readFrom hz hino hname le_rfl fun hcut => absurd hcut (by omega)

theorem next_disk (s : State J) : (s.next parse).disk = s.disk := by
  rw [State.next]
  dsimp only
  split
  · rfl
  · split <;> rfl

/-- Nothing changes for a reader that has caught up. -/
theorem CaughtUp.next (h : Invariant parse s) (hup : CaughtUp s) : CaughtUp (s.next parse) := by
  obtain ⟨fp, hfp, hname, hlast, hnext⟩ := hup
  obtain ⟨hz, lines, hat, -⟩ := h
  cases hat with
  | closed hclosed => rw [hclosed] at hfp; cases hfp
  | cut hopen hino hnone => rw [hnone] at hlast; cases hlast
  | @reading fp' read hopen hino hsize hread hpre hpos hreads =>
    obtain rfl : fp' = fp := by
      rw [hopen] at hfp
      exact some.inj hfp
    have hpos : posAfter (s.disk.data fp'.ino) fp'.pos = fp'.pos := by
      rw [posAfter, hnext]
      rfl
    have hle := hreads.pos_le
    have halert : (nextLine (s.disk.data fp'.ino) fp'.pos).bind parse = none := by
      rw [hnext]
      rfl
    rw [next_of_fp hopen, readFrom_wait hz halert hino hname (by omega)]
    exact ⟨_, rfl, hname, rfl, hpos.symm ▸ hnext⟩

theorem caughtUp_of_calls {ino n : ℕ} (h : Invariant parse s) (hname : s.disk.name = some ino)
    (hn : CaughtUp s ∨ toRead s ino < n)
    (hrun : Run (fun s l s' => Step parse s l s' ∧ Meets parse s l) s (List.replicate n .next) s') :
    CaughtUp s' ∧ s'.disk = s.disk := by
  induction n generalizing s with
  | zero =>
    cases hrun
    exact ⟨hn.resolve_right (Nat.not_lt_zero _), rfl⟩
  | succ n ih =>
    rw [replicate_succ] at hrun
    cases hrun with
    | cons hl hrest =>
      obtain ⟨hstep, hmeets⟩ := hl
      cases hstep
      have hdisk : (s.next parse).disk = s.disk := next_disk s
      have hnext : CaughtUp (s.next parse) ∨ toRead (s.next parse) ino < n := by
        rcases hn with hup | hlt
        · exact .inl (hup.next h)
        · exact (next_progress h hname).imp_right fun hless => by omega
      obtain ⟨hup, hsame⟩ := ih (invariant_next h hmeets) (by rw [hdisk]; exact hname) hnext hrest
      exact ⟨hup, hsame.trans hdisk⟩

/-- **The queue of alerts**: as long as no step does harm, the alerts that were returned are those
of the complete lines of all files that were left, and of the first lines of the file that is read,
in their order and once; and when the reader goes on to ask, it returns all of them. -/
theorem jsonQueue_law (parse : Bytes → Option J) (disk : Disk) (tail : Bool)
    (hz : ∀ ino, 0 ∉ disk.data ino)
    (htail : tail = true → ∀ ino, disk.name = some ino → rest (chr '\n') (disk.data ino) = [])
    {labels : List Label}
    (hrun : Run (fun s l s' => Step parse s l s' ∧ Meets parse s l) (start J disk tail) labels s) :
    Kept parse s ∧
      ∀ ino, s.disk.name = some ino → ∃ bound, ∀ n ≥ bound, ∀ s',
        Run (fun s l s' => Step parse s l s' ∧ Meets parse s l) s (List.replicate n .next) s' →
          s'.lastRead = some (s.disk.data ino) ∧
          s'.returned = (s'.behind ++ s'.due).filterMap parse := by
  have hkeep : ∀ s l s', Invariant parse s → Step parse s l s' ∧ Meets parse s l →
      Invariant parse s' := fun _ _ _ h hl => step_invariant h hl.1 hl.2
  have hinv := hrun.invariant hkeep (invariant_start hz htail)
  refine ⟨hinv.kept, fun ino hname => ⟨toRead s ino + 1, fun n hn s' hcalls => ?_⟩⟩
  obtain ⟨hup, hdisk⟩ := caughtUp_of_calls hinv hname (Or.inr hn) hcalls
  obtain ⟨ino', hname', hlast, hreturned⟩ :=
    (hcalls.invariant hkeep hinv).returned_of_caughtUp hup
  obtain rfl : ino = ino' := by
    rw [hdisk, hname] at hname'
    exact some.inj hname'
  rw [hdisk] at hlast hreturned
  refine ⟨hlast, ?_⟩
  rw [hreturned, State.due, hlast]
  rfl

end Runs

/-! ## Runs with a simple parser -/

/-- The empty array is the only JSON. -/
def emptyArray (line : Bytes) : Option Bytes := if line = lit "[]" then some line else none

/-- There is one file, and it is empty. -/
def emptyFile : Disk := ⟨fun _ => [], some 0⟩

/-- An alert that is appended is returned. -/
theorem jsonQueue_law_append :
    Kept emptyArray (State.next emptyArray
      { start Bytes emptyFile true with disk := emptyFile.set 0 (lit "[]\n") }) := by
  have hz : ∀ ino, 0 ∉ emptyFile.data ino := fun _ => not_mem_nil
  refine (@jsonQueue_law _ _ emptyArray emptyFile true hz (fun _ _ _ => rfl)
    [.append (lit "[]\n"), .next] ?_).1
  have hbytes : Meets emptyArray (start Bytes emptyFile true) (.append (lit "[]\n")) :=
    show 0 ∉ lit "[]\n" by decide
  apply Run.cons ⟨@Step.append _ _ (start Bytes emptyFile true) 0 (lit "[]\n") rfl, hbytes⟩
  refine Run.cons ⟨Step.next, ?_⟩ (Run.nil _)
  intro fp hfp
  obtain rfl := some.inj hfp
  exact ⟨fun hname => absurd rfl hname, fun hlast => nomatch hlast⟩

/-- A line that is no JSON is the next one when the file is rotated: the alert behind it is not
returned. -/
theorem not_kept_rotate :
    ∃ s, Run (Step emptyArray) (start Bytes emptyFile false)
      [.append (lit "x\n[]\n"), .rotate 1, .next] s ∧ ¬Kept emptyArray s := by
  apply Exists.intro
  constructor
  · apply Run.cons (@Step.append _ _ (start Bytes emptyFile false) 0 (lit "x\n[]\n") rfl)
    apply Run.cons (@Step.rotate _ _ _ 1 (by decide) (by decide))
    exact Run.cons Step.next (Run.nil _)
  · rintro ⟨lines, -, hreturned⟩
    have hbehind : lit "[]" ∈ ([] : List Bytes) := by
      rw [show ([] : List Bytes) = _ from hreturned]
      refine mem_filterMap.mpr ⟨lit "[]", mem_append_left _ ?_, rfl⟩
      show lit "[]" ∈ [lit "x", lit "[]"]
      decide
    exact absurd hbehind not_mem_nil

end JsonQueue
