import OssecHids.Lib.Lines

/-!
# The queue of JSON alerts

`jqueue_next` reads `alerts.json` line by line while it is written, rotated and truncated. What
cJSON makes of a line is a parameter.

- `readLoop_frame`, `readLoop_unfinished`: a line of any length is read whole;
- `jqueueParseJson_eq`: a read returns the next line if there is one and it is JSON;
- `nextOpen_eq_some`, `nextOpen_eq_none`: a call on an open file.
-/

open CString Framing List

namespace JsonQueue

def OS_MAXSTR : ℕ := 6144

/-- The files, by their inodes, and the one that is called `alerts.json`. -/
structure Disk where
  data : ℕ → Bytes
  name : Option ℕ

structure Stat where
  st_ino : ℕ
  st_size : ℕ
  deriving DecidableEq

/-- An open file. -/
structure Stream where
  ino : ℕ
  pos : ℕ
  deriving DecidableEq

/-- `file_queue` -/
structure FileQueue where
  fp : Option Stream
  f_status : Stat
  /-- `JQUEUE_READ_FAILED` -/
  read_failed : Bool
  deriving DecidableEq

/-- `stat` -/
def Disk.stat (disk : Disk) : Option Stat := disk.name.map fun ino => ⟨ino, (disk.data ino).length⟩

/-- `jqueue_open_path` with `tail`, or without. -/
def jqueueOpenPath (disk : Disk) (tail : Bool) : Option FileQueue :=
  disk.name.map fun ino =>
    { fp := some ⟨ino, if tail then (disk.data ino).length else 0⟩
      f_status := ⟨ino, (disk.data ino).length⟩
      read_failed := false }

/-- The loop of `jqueue_parse_json` that reads a line, with what is in the buffer of the given
size. -/
def readLoop : ℕ → ℕ → Bytes → Bytes → Bytes × Bytes
  | 0, _, buffer, rest => (buffer, rest)
  | fuel + 1, size, buffer, rest =>
    match fgets (size - buffer.length) rest with
    | none => (buffer, rest)
    | some (piece, rest) =>
      let buffer := buffer ++ str piece
      if buffer.length < size - 1 ∨ buffer.getLast? = some (chr '\n') then (buffer, rest)
      else readLoop fuel (size + OS_MAXSTR) buffer rest

section Parse

variable {J : Type*} (parse : Bytes → Option J)

/-- `jqueue_parse_json`: the object, the position, and whether the read failed. -/
def jqueueParseJson (data : Bytes) (pos : ℕ) : Option J × ℕ × Bool :=
  let line := readLoop (data.length + 1) (OS_MAXSTR + 1) [] (data.drop pos)
  let next := pos + ((data.drop pos).length - line.2.length)
  if line.1 = [] then (none, next, true)
  else if line.1.getLast? ≠ some (chr '\n') then (none, pos, false)
  else (parse line.1.dropLast, next, false)

/-- `jqueue_parse_json` on the file of the queue. -/
def parseFrom (disk : Disk) (ino pos : ℕ) (f_status : Stat) : FileQueue × Option J :=
  let read := jqueueParseJson parse (disk.data ino) pos
  (⟨some ⟨ino, read.2.1⟩, f_status, read.2.2⟩, read.1)

/-- `jqueue_next` on an open file. -/
def nextOpen (disk : Disk) (s : Stream) (f_status : Stat) : FileQueue × Option J :=
  let (queue, alert) := parseFrom parse disk s.ino s.pos f_status
  if alert.isSome ∧ queue.read_failed = false then (queue, alert)
  else
    let pos := (queue.fp.map Stream.pos).getD 0
    match disk.stat with
    | none => (⟨none, f_status, false⟩, none)
    | some buf =>
      if buf.st_ino ≠ f_status.st_ino then
        -- the file was rotated
        parseFrom parse disk buf.st_ino 0 buf
      else if buf.st_size < f_status.st_size ∨ (0 < pos ∧ buf.st_size < pos) then
        -- the file was truncated
        parseFrom parse disk s.ino 0 buf
      else (⟨some ⟨s.ino, pos⟩, buf, false⟩, none)

/-- `jqueue_next` -/
def jqueueNext (disk : Disk) (queue : FileQueue) : FileQueue × Option J :=
  match queue.fp with
  | some s => nextOpen parse disk s queue.f_status
  | none =>
    match jqueueOpenPath disk false with
    | none => (queue, none)
    | some queue =>
      match queue.fp with
      | some s => nextOpen parse disk s queue.f_status
      | none => (queue, none)

end Parse

/-! ## Reading a line -/

variable {l r buffer : Bytes} {fuel : ℕ}

theorem takeLine_short {k : ℕ} (hl : chr '\n' ∉ l) (hlen : l.length < k) :
    takeLine k l = (l, []) := by
  induction l generalizing k with
  | nil => cases k <;> rfl
  | cons b l ih =>
    rw [mem_cons, not_or] at hl
    obtain ⟨k, rfl⟩ := Nat.exists_eq_add_one_of_ne_zero (Nat.ne_zero_of_lt hlen)
    rw [takeLine, if_neg (Ne.symm hl.1), ih hl.2 (Nat.lt_of_succ_lt_succ hlen)]

theorem getLast?_ne_newline (hl : chr '\n' ∉ l) : l.getLast? ≠ some (chr '\n') := fun h =>
  hl (mem_of_getLast? h)

/-- A piece that fills the buffer is not the whole line. -/
theorem readLoop_piece (hlen : l.length = OS_MAXSTR) (hl : chr '\n' ∉ l) (hz : 0 ∉ l) (r : Bytes)
    (hbuffer : chr '\n' ∉ buffer) :
    readLoop (fuel + 1) (buffer.length + OS_MAXSTR + 1) buffer (l ++ r) =
      readLoop fuel ((buffer ++ l).length + OS_MAXSTR + 1) (buffer ++ l) r := by
  have hne : l ++ r ≠ [] := ne_nil_of_length_pos (by
    rw [length_append, hlen]
    exact lt_of_lt_of_le (by decide) (Nat.le_add_right ..))
  have hsize : buffer.length + OS_MAXSTR + 1 - buffer.length - 1 = OS_MAXSTR := by omega
  have hstr : str l = l := str_eq_self fun b hb heq => hz (heq ▸ hb)
  have hmore : ¬((buffer ++ l).length < buffer.length + OS_MAXSTR + 1 - 1 ∨
      (buffer ++ l).getLast? = some (chr '\n')) := by
    refine not_or.mpr ⟨?_, getLast?_ne_newline ?_⟩
    · rw [length_append, hlen]
      omega
    · rw [mem_append, not_or]
      exact ⟨hbuffer, hl⟩
  rw [readLoop, fgets, if_neg hne, hsize, takeLine_of_length hl hlen]
  dsimp only
  rw [hstr, if_neg hmore, length_append, hlen]
  rfl

/-- A line is read up to its newline. -/
theorem readLoop_frame (hl : chr '\n' ∉ l) (hz : 0 ∉ l) (hbuffer : chr '\n' ∉ buffer)
    (hfuel : l.length < fuel) :
    readLoop fuel (buffer.length + OS_MAXSTR + 1) buffer (l ++ chr '\n' :: r) =
      (buffer ++ l ++ [chr '\n'], r) := by
  induction fuel generalizing l buffer with
  | zero => cases hfuel
  | succ fuel ih =>
    by_cases hlen : l.length < OS_MAXSTR
    case pos =>
      have hsize : buffer.length + OS_MAXSTR + 1 - buffer.length - 1 = OS_MAXSTR := by omega
      have hstr : str (l ++ [chr '\n']) = l ++ [chr '\n'] := str_eq_self fun b hb => by
        rcases mem_append.mp hb with hb | hb
        · exact fun heq => hz (heq ▸ hb)
        · rw [mem_singleton.mp hb]
          decide
      rw [readLoop, fgets, if_neg (by simp), hsize, takeLine_append hl hlen]
      dsimp only
      rw [hstr, ← append_assoc, if_pos (.inr (by rw [getLast?_concat]))]
    case neg =>
      rw [← take_append_drop OS_MAXSTR l, mem_append, not_or] at hl hz
      have htake : (l.take OS_MAXSTR).length = OS_MAXSTR := by
        rw [length_take]
        omega
      have hdrop : (l.drop OS_MAXSTR).length < fuel := by
        rw [length_drop, OS_MAXSTR] at *
        omega
      have hbuffer' : chr '\n' ∉ buffer ++ l.take OS_MAXSTR := by
        rw [mem_append, not_or]
        exact ⟨hbuffer, hl.1⟩
      nth_rewrite 1 [← take_append_drop OS_MAXSTR l]
      rw [append_assoc, readLoop_piece htake hl.1 hz.1 _ hbuffer,
        ih hl.2 hz.2 hbuffer' hdrop, append_assoc buffer, take_append_drop]

/-- Where there is no newline, everything is read. -/
theorem readLoop_unfinished (hl : chr '\n' ∉ l) (hz : 0 ∉ l) (hbuffer : chr '\n' ∉ buffer)
    (hfuel : l.length < fuel) :
    readLoop fuel (buffer.length + OS_MAXSTR + 1) buffer l = (buffer ++ l, []) := by
  induction fuel generalizing l buffer with
  | zero => cases hfuel
  | succ fuel ih =>
    by_cases hnil : l = []
    case pos =>
      subst hnil
      rw [readLoop, fgets, if_pos rfl, append_nil]
    case neg =>
      by_cases hlen : l.length < OS_MAXSTR
      case pos =>
        have hsize : buffer.length + OS_MAXSTR + 1 - buffer.length - 1 = OS_MAXSTR := by omega
        have hstr : str l = l := str_eq_self fun b hb heq => hz (heq ▸ hb)
        rw [readLoop, fgets, if_neg hnil, hsize, takeLine_short hl hlen]
        dsimp only
        rw [hstr, if_pos]
        rw [length_append]
        omega
      case neg =>
        rw [← take_append_drop OS_MAXSTR l, mem_append, not_or] at hl hz
        have htake : (l.take OS_MAXSTR).length = OS_MAXSTR := by
          rw [length_take]
          omega
        have hdrop : (l.drop OS_MAXSTR).length < fuel := by
          rw [length_drop, OS_MAXSTR] at *
          omega
        have hbuffer' : chr '\n' ∉ buffer ++ l.take OS_MAXSTR := by
          rw [mem_append, not_or]
          exact ⟨hbuffer, hl.1⟩
        nth_rewrite 1 [← take_append_drop OS_MAXSTR l]
        rw [readLoop_piece htake hl.1 hz.1 _ hbuffer, ih hl.2 hz.2 hbuffer' hdrop,
          append_assoc, take_append_drop]

/-! ## What is read -/

/-- The next line, if it is complete. -/
def nextLine (data : Bytes) (pos : ℕ) : Option Bytes := (frames (chr '\n') (data.drop pos)).head?

/-- The position behind the next line, if it is complete. -/
def posAfter (data : Bytes) (pos : ℕ) : ℕ :=
  (nextLine data pos).elim pos fun line => pos + line.length + 1

section Spec

variable {J : Type*} {parse : Bytes → Option J} {data : Bytes} {pos : ℕ} {line : Bytes}

theorem nextLine_eq_some (h : nextLine data pos = some line) :
    chr '\n' ∉ line ∧ ∃ r, data.drop pos = line ++ chr '\n' :: r := by
  by_cases hmem : chr '\n' ∈ data.drop pos
  case pos =>
    obtain ⟨l, r, hdrop, hl⟩ := eq_append_cons_of_mem hmem
    rw [nextLine, hdrop, frames_append_cons hl] at h
    obtain rfl : l = line := Option.some.inj h
    exact ⟨hl, r, hdrop⟩
  case neg =>
    rw [nextLine, frames_of_notMem hmem] at h
    cases h

theorem nextLine_eq_none (h : nextLine data pos = none) : chr '\n' ∉ data.drop pos := by
  intro hmem
  obtain ⟨l, r, hdrop, hl⟩ := eq_append_cons_of_mem hmem
  rw [nextLine, hdrop, frames_append_cons hl] at h
  cases h

/-- A read returns what the next line is, and goes behind it. -/
theorem jqueueParseJson_eq (hz : 0 ∉ data) :
    jqueueParseJson parse data pos =
      ((nextLine data pos).bind parse, posAfter data pos, decide (data.drop pos = [])) := by
  have hlen : (data.drop pos).length ≤ data.length := by
    rw [length_drop]
    exact Nat.sub_le ..
  have hzero : 0 ∉ data.drop pos := fun hmem => hz (mem_of_mem_drop hmem)
  rw [jqueueParseJson]
  cases hnext : nextLine data pos with
  | none =>
    have hnl := nextLine_eq_none hnext
    have hread := @readLoop_unfinished _ [] _ hnl hzero not_mem_nil
      (Nat.lt_succ_of_le hlen)
    rw [length_nil, zero_add, nil_append] at hread
    rw [hread, posAfter, hnext]
    by_cases hend : data.drop pos = []
    case pos =>
      rw [if_pos hend, hend]
      rfl
    case neg =>
      rw [if_neg hend, if_pos (getLast?_ne_newline hnl), decide_eq_false hend]
      rfl
  | some line =>
    obtain ⟨hnl, r, hdrop⟩ := nextLine_eq_some hnext
    rw [hdrop] at hzero hlen ⊢
    rw [mem_append, not_or] at hzero
    have hfuel : line.length < data.length + 1 := by
      rw [length_append] at hlen
      omega
    have hread := @readLoop_frame _ r [] _ hnl hzero.1 not_mem_nil hfuel
    rw [length_nil, zero_add, nil_append] at hread
    rw [hread, posAfter, hnext]
    have hpos : pos + ((line ++ chr '\n' :: r).length - r.length) = pos + line.length + 1 := by
      rw [length_append, length_cons]
      omega
    rw [if_neg (by simp), if_neg (by simp), dropLast_concat, hpos]
    simp

variable {disk : Disk} {s : Stream} {f_status : Stat} {alert : J}

theorem parseFrom_eq {ino : ℕ} (hz : 0 ∉ disk.data ino) :
    parseFrom parse disk ino pos f_status =
      (⟨some ⟨ino, posAfter (disk.data ino) pos⟩, f_status,
        decide ((disk.data ino).drop pos = [])⟩, (nextLine (disk.data ino) pos).bind parse) := by
  rw [parseFrom, jqueueParseJson_eq hz]

theorem nextOpen_eq_some (hz : 0 ∉ disk.data s.ino)
    (halert : (nextLine (disk.data s.ino) s.pos).bind parse = some alert) :
    nextOpen parse disk s f_status =
      (⟨some ⟨s.ino, posAfter (disk.data s.ino) s.pos⟩, f_status, false⟩, some alert) := by
  have hend : decide ((disk.data s.ino).drop s.pos = []) = false := by
    obtain ⟨line, hline, -⟩ := Option.bind_eq_some_iff.mp halert
    obtain ⟨-, r, hdrop⟩ := nextLine_eq_some hline
    rw [hdrop]
    simp
  rw [nextOpen, parseFrom_eq hz, halert, hend]
  exact if_pos ⟨rfl, rfl⟩

theorem nextOpen_eq_none (hz : 0 ∉ disk.data s.ino)
    (halert : (nextLine (disk.data s.ino) s.pos).bind parse = none) :
    nextOpen parse disk s f_status =
      match disk.stat with
      | none => (⟨none, f_status, false⟩, none)
      | some buf =>
        if buf.st_ino ≠ f_status.st_ino then parseFrom parse disk buf.st_ino 0 buf
        else if buf.st_size < f_status.st_size ∨
            (0 < posAfter (disk.data s.ino) s.pos ∧
              buf.st_size < posAfter (disk.data s.ino) s.pos) then
          parseFrom parse disk s.ino 0 buf
        else (⟨some ⟨s.ino, posAfter (disk.data s.ino) s.pos⟩, buf, false⟩, none) := by
  rw [nextOpen, parseFrom_eq hz, halert]
  exact if_neg fun h => Bool.false_ne_true h.1

end Spec

end JsonQueue
