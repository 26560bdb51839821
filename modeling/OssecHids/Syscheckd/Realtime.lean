import OssecHids.Lib.Trace
import OssecHids.Syscheckd.ReadFile

/-!
# The realtime queue

Paths that a notification has come for wait in a queue until they can be checked: the list and the
hash of `run_realtime.c`. The clock is the monotonic one, and memory can always be allocated.

- `PathInv.visit`: what a look at a path leaves of its entry, given what happened to the path;
- `realtime_law`: list and hash, looks, deletes and the end of an entry, in every run.
-/

open CString FimSum Syscheckd Trace List Option Function

namespace Realtime

/-! ## Data -/

def rtFirstDelayMs : ℕ := 200
def rtDeleteConfirmMs : ℕ := 1000
def rtRetryCapMs : ℕ := 5000
def rtUnreadableMax : ℕ := 120

/-- `rt_pend`; `ref` stands for its address. -/
structure Pend where
  ref : ℕ
  path : Bytes
  due : ℕ
  attempts : ℕ
  missing_seen : Bool
  deriving DecidableEq

/-- The database of the agent, `syscheck.fp` -/
abbrev Db := Bytes → Option Bytes

/-- What happens to a path. The times are those of the notification or the look. -/
inductive Event
  | notified (t : ℕ)
  /-- An entry for the path is added to the queue. -/
  | joined
  | looked (t : ℕ)
  /-- A look finds that the path is missing. -/
  | missing (t : ℕ)
  /-- A look finds a directory in the place of a file. -/
  | directory
  /-- A delete message, for a path that is in the database or not, is delivered or not. -/
  | delete (stored delivered : Bool)
  /-- The path is taken from the database. -/
  | removed
  /-- What `realtime_checksumfile` returns -/
  | checked (rc : ℤ)
  | unreadable
  | undelivered
  /-- The entry leaves the queue. -/
  | left
  deriving DecidableEq

/-- How `c_read_file` finds a file. -/
inductive Access
  | missing
  | failed
  | read (r : Reading)

/-- How `read_file` finds a path that is not in the database: what `read_dir` returns for a
directory, with the entries that are stored for the files in it, or a scan of a file. Nothing is
done for a path outside of the directories that are monitored. -/
inductive NewFile
  | outside
  | gone
  /-- `ENOTDIR` or `ELOOP` -/
  | blocked (sent : Bool)
  | failed
  | directory (rc : ℤ) (found : List (Bytes × Bytes))
  | file (opts : Opts) (s : Scan)

/-- What a look at an entry finds, how long it takes, and which messages are delivered. -/
structure Look where
  tick : ℕ
  delay : ℕ
  path_missing : Bool
  is_directory : Bool
  directory_sent : Bool
  access : Access
  update_sent : Bool
  new_file : NewFile
  delete_sent : Bool

/-- The hash, the clock, the database, and what has happened to each path. -/
structure World where
  hash : List (Bytes × ℕ)
  fresh : ℕ
  db : Db
  now : ℕ
  log : Bytes → List Event

structure State extends World where
  head : List Pend

/-! ## Checking a file -/

/-- What `realtime_checksumfile` returns and leaves. -/
structure Check where
  rc : ℤ
  db : Db
  events : List Event

/-- `c_read_file`, which leaves the alert for a missing file to the queue. -/
def cReadFile (access : Access) (oldsum : Bytes) : ℤ × Bytes :=
  match access with
  | .missing => (-1, [])
  | .failed => (-2, [])
  | .read r =>
    match Syscheckd.cReadFile (some r) oldsum with
    | none => (-2, [])
    | some newsum => (0, newsum)

/-- `read_file` -/
def readFile (new_file : NewFile) (path : Bytes) (db : Db) : Check :=
  match new_file with
  | .outside => { rc := 0, db, events := [] }
  | .gone => { rc := 0, db, events := [] }
  | .blocked sent => { rc := 0, db, events := [.delete (db path).isSome sent] }
  | .failed => { rc := -1, db, events := [] }
  | .directory rc found =>
    { rc, db := found.foldl (fun db (f, entry) => Function.update db f (some entry)) db,
      events := [] }
  | .file opts s =>
    if (checksum opts.toChecks s.first).isNone then { rc := -1, db, events := [] }
    else
      { rc := 0, db := Function.update db path (readFileAt opts path (db path) s).1, events := [] }

/-- The second half of `realtime_checksumfile`, for a new file -/
def checkNew (l : Look) (path : Bytes) (db : Db) : Check :=
  let read := readFile l.new_file path db
  { read with rc := if read.rc < 0 then -2 else 0 }

/-- And the first half, for a file with an entry -/
def checkStored (l : Look) (path buf : Bytes) (db : Db) : Check :=
  let (read_rc, c_sum) := cReadFile l.access buf
  if read_rc < 0 then { rc := read_rc, db, events := [] }
  else
    let old := buf.drop (fimSumDataOffset buf)
    if fimSumEqual c_sum old then { rc := 0, db, events := [] }
    else
      let real_change := fimSumHasRealChange old c_sum
      if real_change && !l.update_sent then { rc := 0, db, events := [] }
      else
        { rc := if real_change then 1 else 0
          db := Function.update db path (some (updatedEntry buf c_sum))
          events := [] }

/-- `realtime_checksumfile` -/
def realtimeChecksumfile (l : Look) (path : Bytes) (db : Db) : Check :=
  match db path with
  | none => checkNew l path db
  | some buf =>
    if l.is_directory then
      if l.directory_sent then
        let check := checkNew l path (Function.update db path none)
        { check with events := [.directory, .delete true true, .removed] ++ check.events }
      else
        let check := checkNew l path db
        { check with events := [.directory, .delete true false] ++ check.events }
    else checkStored l path buf db

/-! ## The queue -/

def rtDueAfter (now delay_ms : ℕ) : ℕ := now + delay_ms

def rtUntil (now due : ℕ) : ℕ := due - now

def rtBackoffMs (attempts : ℕ) : ℕ :=
  let steps := [200, 500, 1000, 2000, rtRetryCapMs]
  if attempts < 1 then 200 else steps.getD (attempts - 1) 30000

/-- `OSHash_Get` -/
def osHashGet (hash : List (Bytes × ℕ)) (key : Bytes) : Option ℕ := hash.lookup key

/-- `OSHash_Delete` -/
def osHashDelete (hash : List (Bytes × ℕ)) (key : Bytes) : List (Bytes × ℕ) :=
  hash.eraseP fun node => node.1 == key

/-- What a notification does to the entry that its path has. -/
def Pend.notify (now : ℕ) (e : Pend) : Pend :=
  { e with
    missing_seen := false
    due :=
      if rtFirstDelayMs < rtUntil now e.due then rtDueAfter now rtFirstDelayMs else e.due }

/-- `realtime_enqueue` -/
def realtimeEnqueue (file_name : Bytes) (s : State) : State :=
  if file_name = [] then s
  else
    match osHashGet s.hash file_name with
    | some ref =>
      { s with
        head := s.head.map fun e => if e.ref = ref then e.notify s.now else e
        log := Function.update s.log file_name (s.log file_name ++ [.notified s.now]) }
    | none =>
      { s with
        head := ⟨s.fresh, file_name, rtDueAfter s.now rtFirstDelayMs, 0, false⟩ :: s.head
        hash := (file_name, s.fresh) :: s.hash
        fresh := s.fresh + 1
        log := Function.update s.log file_name (s.log file_name ++ [.notified s.now, .joined]) }

/-- What a look leaves: the entry, unless it was dropped. -/
structure Visit where
  kept : Option Pend
  db : Db
  now : ℕ
  events : List Event

/-- The body of the loop of `realtime_pending_process` -/
def visit (l : Look) (e : Pend) (db : Db) (now : ℕ) : Visit :=
  let now := now + l.tick
  if 0 < rtUntil now e.due then { kept := some e, db, now, events := [] }
  else
    let later := now + l.delay
    let confirm := { e with missing_seen := true, due := rtDueAfter later rtDeleteConfirmMs }
    let retry := { e with
      attempts := e.attempts + 1
      due := rtDueAfter later (rtBackoffMs (e.attempts + 1)) }
    if l.path_missing && !e.missing_seen then
      { kept := some confirm, db, now := later, events := [.looked now, .missing now] }
    else
      let check := realtimeChecksumfile l e.path db
      let events := .looked now :: (if l.path_missing then [.missing now] else []) ++
        check.events ++ [.checked check.rc]
      if check.rc = -1 then
        let events := events ++ [.missing now]
        if !e.missing_seen then { kept := some confirm, db := check.db, now := later, events }
        else
          let stored := (check.db e.path).isSome
          if !l.delete_sent then
            { kept := some retry, db := check.db, now := later,
              events := events ++ [.delete stored false, .undelivered] }
          else
            { kept := none, db := Function.update check.db e.path none, now := later,
              events := events ++ [.delete stored true, .removed, .left] }
      else if check.rc = -2 then
        let events := events ++ [.unreadable]
        if rtUnreadableMax ≤ e.attempts + 1 then
          { kept := none, db := check.db, now := later, events := events ++ [.left] }
        else
          { kept := some { retry with missing_seen := false }, db := check.db, now := later,
            events }
      else { kept := none, db := check.db, now := later, events := events ++ [.left] }

/-- The world after a look; `rt_pend_drop` deletes the path from the hash. -/
def World.after (w : World) (e : Pend) (v : Visit) : World :=
  { w with
    hash := if v.kept.isSome then w.hash else osHashDelete w.hash e.path
    db := v.db
    now := v.now
    log := Function.update w.log e.path (w.log e.path ++ v.events) }

/-- The loop of `realtime_pending_process`, over the rest of the list -/
def processFrom (looks : ℕ → Look) : ℕ → List Pend → World → List Pend × World
  | _, [], w => ([], w)
  | n, e :: rest, w =>
    let v := visit (looks n) e w.db w.now
    let (rest, w) := processFrom looks (n + 1) rest (w.after e v)
    (v.kept.toList ++ rest, w)

/-- `realtime_pending_process`. The recovery of lost notifications, which comes first, is made of
notifications and a scan. -/
def realtimePendingProcess (looks : ℕ → Look) (s : State) : State :=
  let (head, w) := processFrom looks 0 s.head s.toWorld
  { w with head }

/-! ## Runs -/

/-- A notification, time that goes by, a scan that changes the database, or a pass over the
queue. -/
inductive Label
  | notify (file_name : Bytes)
  | advance (ms : ℕ)
  | scan (db : Db)
  | process (looks : ℕ → Look)

def step (s : State) : Label → State
  | .notify file_name => realtimeEnqueue file_name s
  | .advance ms => { s with now := s.now + ms }
  | .scan db => { s with db }
  | .process looks => realtimePendingProcess looks s

def init : State where
  hash := []
  fresh := 0
  db := fun _ => none
  now := 0
  log := fun _ => []
  head := []

/-- The state after some steps -/
def run (ls : List Label) : State := ls.foldl step init

/-! ## What has to hold -/

def Event.IsNotified : Event → Prop
  | .notified _ => True
  | _ => False

def Event.IsLooked : Event → Prop
  | .looked _ => True
  | _ => False

/-- The failed attempts since the entry was added: unreadable files, and deletes that were not
delivered. -/
def failures (log : List Event) : ℕ :=
  log.foldl (fun n ev =>
    match ev with
    | .joined => 0
    | .unreadable | .undelivered => n + 1
    | _ => n) 0

/-- The path was found missing twice, long enough apart, and there was no notification since. -/
def Confirmed (pre : List Event) : Prop :=
  ∃ front t post t', pre = front ++ .missing t :: post ∧ (∀ u, .notified u ∉ post) ∧
    .missing t' ∈ post ∧ t + rtDeleteConfirmMs ≤ t'

/-- The last look found a directory. -/
def AtDirectory (pre : List Event) : Prop := Since Event.IsLooked .directory pre

/-- Behind every notification there was a look. -/
def Answered (pre : List Event) : Prop :=
  ∀ front t post, pre = front ++ .notified t :: post → ∃ t', .looked t' ∈ post ∧ t ≤ t'

/-- A check is finished, a delete was delivered, or the file is unreadable once more, after too many
failed attempts. -/
def Finished (pre : List Event) : Prop :=
  (∃ rc, 0 ≤ rc ∧ [.checked rc] <:+ pre) ∨ [.delete true true, .removed] <:+ pre ∨
    ([.unreadable] <:+ pre ∧ rtUnreadableMax ≤ failures pre)

/-- What has happened to a path when it is told to be deleted, is taken from the database, or leaves
the queue. -/
def Law (pre : List Event) : Event → Prop
  | .delete true _ => Confirmed pre ∨ AtDirectory pre
  | .removed => [.delete true true] <:+ pre
  | .left => Answered pre ∧ Finished pre
  | _ => True

/-- The attempts of an entry are the failed ones, and it has the mark for a missing path since a look
that is long enough ago when it is due. -/
structure EntryInv (e : Pend) (log : List Event) : Prop where
  attempts : failures log = e.attempts
  missing : e.missing_seen = true →
    ∃ t, Since Event.IsNotified (.missing t) log ∧ t + rtDeleteConfirmMs ≤ e.due

/-- A path in the queue, or one that is not: no notification for it waits for a look. -/
structure PathInv (item : Option Pend) (log : List Event) (now : ℕ) : Prop where
  law : Always Law log
  le_now : ∀ t, .notified t ∈ log → t ≤ now
  entry : ∀ e ∈ item, EntryInv e log
  settled : item = none → ∀ t, ¬ Since (· = .left) (.notified t) log

/-! ## Events of a look -/

/-- Events that neither begin nor end anything -/
def Event.Neutral : Event → Prop
  | .notified _ | .joined | .unreadable | .undelivered | .left => False
  | _ => True

variable {e : Pend} {log new pre : List Event} {now t : ℕ} {l : Look} {db : Db} {path : Bytes}

theorem failures_append_of_neutral (h : ∀ ev ∈ new, ev.Neutral) :
    failures (log ++ new) = failures log := by
  induction new generalizing log with
  | nil => rw [append_nil]
  | cons ev new ih =>
    rw [forall_mem_cons] at h
    rw [append_cons, ih h.2, failures, foldl_append]
    cases ev with
    | notified | joined | unreadable | undelivered | left => exact absurd h.1 id
    | looked | missing | directory | delete | removed | checked => rfl

theorem failures_concat_unreadable (log : List Event) :
    failures (log ++ [.unreadable]) = failures log + 1 := by
  rw [failures, foldl_append]
  rfl

theorem failures_concat_undelivered (log : List Event) :
    failures (log ++ [.undelivered]) = failures log + 1 := by
  rw [failures, foldl_append]
  rfl

theorem notMem_of_neutral (h : ∀ ev ∈ new, ev.Neutral) (t : ℕ) : .notified t ∉ new :=
  fun hmem => h _ hmem

theorem readFile_events (new_file : NewFile) (path : Bytes) (db : Db) :
    (readFile new_file path db).events = [] ∨
      ∃ sent, (readFile new_file path db).events = [.delete (db path).isSome sent] := by
  cases new_file with
  | blocked sent => exact .inr ⟨sent, rfl⟩
  | outside | gone | failed | directory => exact .inl rfl
  | file opts s =>
    rw [readFile]
    split
    · exact .inl rfl
    · exact .inl rfl

/-- What a check sends and removes: nothing of what is in the database, unless a directory is
found. -/
inductive CheckEvents : List Event → Prop
  | nothing : CheckEvents []
  | blocked (sent : Bool) : CheckEvents [.delete false sent]
  | directory {rest : List Event} (h : rest = [] ∨ ∃ stored sent, rest = [.delete stored sent]) :
    CheckEvents (.directory :: .delete true true :: .removed :: rest)
  | undelivered {rest : List Event} (h : rest = [] ∨ ∃ stored sent, rest = [.delete stored sent]) :
    CheckEvents (.directory :: .delete true false :: rest)

theorem checkNew_rc (l : Look) (path : Bytes) (db : Db) :
    (checkNew l path db).rc = -2 ∨ (checkNew l path db).rc = 0 := by
  rw [checkNew]
  split
  · exact .inl rfl
  · exact .inr rfl

theorem checkStored_cases (l : Look) (path buf : Bytes) (db : Db) :
    (checkStored l path buf db).events = [] ∧
      ((checkStored l path buf db).rc = -1 → (checkStored l path buf db).db = db) ∧
      (checkStored l path buf db).rc ∈ ([-2, -1, 0, 1] : List ℤ) := by
  have hzero : (0 : ℤ) ∈ ([-2, -1, 0] : List ℤ) := by decide
  have hrc : (0 : ℤ) ∈ ([-2, -1, 0, 1] : List ℤ) ∧ (1 : ℤ) ∈ ([-2, -1, 0, 1] : List ℤ) := by decide
  have hread : (cReadFile l.access buf).1 ∈ ([-2, -1, 0] : List ℤ) := by
    cases l.access with
    | missing => exact mem_cons_of_mem _ mem_cons_self
    | failed => exact mem_cons_self
    | read r =>
      rw [cReadFile]
      split
      · exact mem_cons_self
      · exact hzero
  rw [checkStored]
  dsimp only
  split
  · refine ⟨rfl, fun _ => rfl, ?_⟩
    simp only [mem_cons, not_mem_nil, or_false] at hread ⊢
    omega
  · split
    · exact ⟨rfl, fun _ => rfl, hrc.1⟩
    · split
      · exact ⟨rfl, fun _ => rfl, hrc.1⟩
      · split
        · exact ⟨rfl, fun h : (1 : ℤ) = -1 => absurd h (by decide), hrc.2⟩
        · exact ⟨rfl, fun h : (0 : ℤ) = -1 => absurd h (by decide), hrc.1⟩

theorem realtimeChecksumfile_cases (l : Look) (path : Bytes) (db : Db) :
    CheckEvents (realtimeChecksumfile l path db).events ∧
      ((realtimeChecksumfile l path db).rc = -1 →
        ((realtimeChecksumfile l path db).db path).isSome = true) ∧
      (realtimeChecksumfile l path db).rc ∈ ([-2, -1, 0, 1] : List ℤ) := by
  have hrc : ∀ db', ((checkNew l path db').rc = -1 → False) ∧
      (checkNew l path db').rc ∈ ([-2, -1, 0, 1] : List ℤ) := by
    intro db'
    rcases checkNew_rc l path db' with h | h
    · rw [h]
      decide
    · rw [h]
      decide
  have hnew : ∀ db', (checkNew l path db').events = [] ∨
      ∃ sent, (checkNew l path db').events = [.delete (db' path).isSome sent] := fun db' =>
    readFile_events l.new_file path db'
  have hsome : ∀ db', (checkNew l path db').events = [] ∨
      ∃ stored sent, (checkNew l path db').events = [.delete stored sent] := fun db' =>
    (hnew db').imp_right fun ⟨sent, h⟩ => ⟨_, sent, h⟩
  rw [realtimeChecksumfile]
  split
  case h_1 hdb =>
    refine ⟨?_, fun h => absurd h (hrc db).1, (hrc db).2⟩
    rcases hnew db with h | ⟨sent, h⟩
    · rw [h]
      exact .nothing
    · rw [h, hdb]
      exact .blocked sent
  case h_2 buf hdb =>
    split
    · split
      · exact ⟨.directory (hsome _), fun h => absurd h (hrc _).1, (hrc _).2⟩
      · exact ⟨.undelivered (hsome _), fun h => absurd h (hrc _).1, (hrc _).2⟩
    · obtain ⟨hevents, hsame, hmem⟩ := checkStored_cases l path buf db
      refine ⟨?_, fun h => ?_, hmem⟩
      · rw [hevents]
        exact .nothing
      · rw [hsame h, hdb]
        rfl

/-! ## Laws of a look -/

/-- Events that the law says nothing about -/
def Event.Free : Event → Prop
  | .delete true _ | .removed | .left => False
  | _ => True

theorem law_of_free {ev : Event} (h : ev.Free) : Law pre ev := by
  cases ev with
  | delete stored delivered =>
    cases stored with
    | true => cases h
    | false => trivial
  | removed | left => cases h
  | notified | joined | looked | missing | directory | checked | unreadable | undelivered => trivial

theorem always_append_of_free (h : Always Law log) (hnew : ∀ ev ∈ new, ev.Free) :
    Always Law (log ++ new) := by
  refine always_append.mpr ⟨h, fun front ev post heq => law_of_free (hnew ev ?_)⟩
  rw [heq]
  exact mem_append_right _ mem_cons_self

theorem always_concat (h : Always Law log) {ev : Event} (hev : Law log ev) :
    Always Law (log ++ [ev]) := by
  refine always_append.mpr ⟨h, always_cons.mpr ⟨?_, always_nil⟩⟩
  rwa [append_nil]

theorem always_append_atDirectory (h : Always Law log) (hdir : AtDirectory log)
    {rest : List Event} (hrest : rest = [] ∨ ∃ stored sent, rest = [.delete stored sent]) :
    Always Law (log ++ rest) := by
  rcases hrest with rfl | ⟨stored, sent, rfl⟩
  · rwa [append_nil]
  · cases stored with
    | true => exact always_concat h (.inr hdir)
    | false => exact always_concat h trivial

theorem CheckEvents.always (h : Always Law log) (hnew : CheckEvents new) :
    Always Law (log ++ new) := by
  have hfree : Always Law (log ++ [.directory]) :=
    always_append_of_free h fun ev hev => by
      rw [mem_singleton] at hev
      rw [hev]
      trivial
  have hdir : AtDirectory (log ++ [.directory]) := since_concat_self _ _ _
  have hdelete : ∀ sent, Always Law (log ++ [.directory] ++ [.delete true sent]) ∧
      AtDirectory (log ++ [.directory] ++ [.delete true sent]) := fun sent => by
    refine ⟨always_concat hfree (.inr hdir), hdir.append fun ev hev => ?_⟩
    rw [mem_singleton] at hev
    rw [hev]
    exact id
  cases hnew with
  | nothing => rwa [append_nil]
  | blocked sent =>
    refine always_append_of_free h fun ev hev => ?_
    rw [mem_singleton] at hev
    rw [hev]
    trivial
  | directory hrest =>
    obtain ⟨hlaw, hat⟩ := hdelete true
    have hremoved : Law (log ++ [.directory] ++ [.delete true true]) .removed :=
      suffix_append _ _
    rw [append_cons, append_cons, append_cons]
    refine always_append_atDirectory (always_concat hlaw hremoved) ?_ hrest
    refine hat.append fun ev hev => ?_
    rw [mem_singleton] at hev
    rw [hev]
    exact id
  | undelivered hrest =>
    obtain ⟨hlaw, hat⟩ := hdelete false
    rw [append_cons, append_cons]
    exact always_append_atDirectory hlaw hat hrest

theorem CheckEvents.neutral (h : CheckEvents new) : ∀ ev ∈ new, ev.Neutral := by
  have hrest : ∀ {rest : List Event}, (rest = [] ∨ ∃ stored sent, rest = [.delete stored sent]) →
      ∀ ev ∈ rest, ev.Neutral := by
    rintro rest (rfl | ⟨stored, sent, rfl⟩) ev hev
    · cases hev
    · rw [mem_singleton] at hev
      rw [hev]
      trivial
  cases h with
  | nothing => exact fun ev hev => absurd hev not_mem_nil
  | blocked sent => exact hrest (.inr ⟨false, sent, rfl⟩)
  | directory h =>
    rw [forall_mem_cons, forall_mem_cons, forall_mem_cons]
    exact ⟨trivial, trivial, trivial, hrest h⟩
  | undelivered h =>
    rw [forall_mem_cons, forall_mem_cons]
    exact ⟨trivial, trivial, hrest h⟩

/-- The events of a check, with the look in front of it -/
def lookEvents (l : Look) (e : Pend) (db : Db) (now : ℕ) : List Event :=
  .looked now :: (if l.path_missing then [.missing now] else []) ++
    (realtimeChecksumfile l e.path db).events ++ [.checked (realtimeChecksumfile l e.path db).rc]

theorem neutral_lookEvents (l : Look) (e : Pend) (db : Db) (now : ℕ) :
    ∀ ev ∈ lookEvents l e db now, ev.Neutral := by
  have hcheck := (realtimeChecksumfile_cases l e.path db).1.neutral
  have hmissing : ∀ ev ∈ (if l.path_missing then [Event.missing now] else []), ev.Neutral := by
    intro ev hev
    split at hev
    · rw [mem_singleton] at hev
      rw [hev]
      trivial
    · cases hev
  intro ev hev
  rw [lookEvents, mem_append, mem_append, mem_cons, mem_singleton] at hev
  rcases hev with ((rfl | hev) | hev) | rfl
  · trivial
  · exact hmissing ev hev
  · exact hcheck ev hev
  · trivial

theorem always_lookEvents (h : Always Law log) (l : Look) (e : Pend) (db : Db) (now : ℕ) :
    Always Law (log ++ lookEvents l e db now) := by
  have hfront : Always Law
      (log ++ (.looked now :: (if l.path_missing then [Event.missing now] else []))) := by
    refine always_append_of_free h fun ev hev => ?_
    rcases mem_cons.mp hev with rfl | hev
    · trivial
    · split at hev
      · rw [mem_singleton] at hev
        rw [hev]
        trivial
      · cases hev
  have hcheck := (realtimeChecksumfile_cases l e.path db).1.always hfront
  rw [lookEvents, ← append_assoc, ← append_assoc]
  refine always_append_of_free hcheck fun ev hev => ?_
  rw [mem_singleton] at hev
  rw [hev]
  trivial

theorem answered_append (hle : ∀ u, .notified u ∈ log → u ≤ now) {n : ℕ} (hnow : now ≤ n)
    (hnew : ∀ u, .notified u ∉ new) : Answered (log ++ .looked n :: new) := by
  intro front t post heq
  have hnot : Event.notified t ∉ Event.looked n :: new := by
    rw [mem_cons, not_or]
    exact ⟨Event.noConfusion, hnew t⟩
  obtain ⟨hfront, hpost⟩ := mem_of_split heq.symm hnot
  exact ⟨n, hpost, (hle t hfront).trans hnow⟩

/-- A path that was found missing is confirmed by a look when its entry is due. -/
theorem confirmed_append (h : Since Event.IsNotified (.missing t) log) {n : ℕ}
    (hn : t + rtDeleteConfirmMs ≤ n) (hnew : ∀ u, .notified u ∉ new) (hmem : .missing n ∈ new) :
    Confirmed (log ++ new) := by
  obtain ⟨front, post, rfl, hpost⟩ := h
  refine ⟨front, t, post ++ new, n, by rw [append_assoc, cons_append], fun u hu => ?_,
    mem_append_right _ hmem, hn⟩
  rcases mem_append.mp hu with hu | hu
  · exact hpost _ hu trivial
  · exact hnew u hu

/-! ## One path -/

section Path

variable {item : Option Pend}

theorem PathInv.mono (h : PathInv item log now) {later : ℕ} (hle : now ≤ later) :
    PathInv item log later :=
  ⟨h.law, fun t ht => (h.le_now t ht).trans hle, h.entry, h.settled⟩

/-- What is left of an entry that stays, after events that are no notifications -/
theorem PathInv.keep (h : PathInv (some e) log now) {later : ℕ} (hle : now ≤ later)
    (hlaw : Always Law (log ++ new)) (hnew : ∀ u, .notified u ∉ new) {e' : Pend}
    (he' : EntryInv e' (log ++ new)) : PathInv (some e') (log ++ new) later where
  law := hlaw
  le_now u hu := by
    rcases mem_append.mp hu with hu | hu
    · exact (h.le_now u hu).trans hle
    · exact absurd hu (hnew u)
  entry e'' he'' := by
    obtain rfl := some.inj he''
    exact he'
  settled h := absurd h (by simp)

/-- And what is left of one that is dropped -/
theorem PathInv.drop (h : PathInv (some e) log now) {later : ℕ} (hle : now ≤ later)
    (hlaw : Always Law (log ++ new)) (hnew : ∀ u, .notified u ∉ new)
    (hanswered : Answered (log ++ new)) (hfinished : Finished (log ++ new)) :
    PathInv none (log ++ (new ++ [.left])) later where
  law := by
    rw [← append_assoc]
    exact always_concat hlaw ⟨hanswered, hfinished⟩
  le_now u hu := by
    rw [← append_assoc, mem_append, mem_append] at hu
    rcases hu with (hu | hu) | hu
    · exact (h.le_now u hu).trans hle
    · exact absurd hu (hnew u)
    · exact absurd (mem_singleton.mp hu) Event.noConfusion
  entry e'' he'' := absurd he'' (by simp)
  settled _ u := by
    rw [← append_assoc]
    exact not_since_of_ends rfl Event.noConfusion

/-- A look at an entry keeps what is known of its path. -/
theorem PathInv.visit (h : PathInv (some e) log now) (l : Look) (db : Db) :
    PathInv (visit l e db now).kept (log ++ (visit l e db now).events) (visit l e db now).now := by
  have hentry := h.entry e rfl
  rw [Realtime.visit]
  dsimp only
  split
  case isTrue =>
    rw [append_nil]
    exact h.mono (Nat.le_add_right _ _)
  case isFalse hdue =>
    have hdue : e.due ≤ now + l.tick := by
      rw [rtUntil] at hdue
      omega
    generalize hn : now + l.tick = n at hdue ⊢
    have hle : now ≤ n := by omega
    have hlater : now ≤ n + l.delay := by omega
    split
    case isTrue =>
      -- missing for the first time
      have hneutral : ∀ ev ∈ [Event.looked n, .missing n], ev.Neutral := by
        rw [forall_mem_cons, forall_mem_singleton]
        exact ⟨trivial, trivial⟩
      have hfree : ∀ ev ∈ [Event.looked n, .missing n], ev.Free := by
        rw [forall_mem_cons, forall_mem_singleton]
        exact ⟨trivial, trivial⟩
      refine h.keep hlater (always_append_of_free h.law hfree) (notMem_of_neutral hneutral) ⟨?_, ?_⟩
      · rw [failures_append_of_neutral hneutral]
        exact hentry.attempts
      · intro _
        rw [append_cons]
        exact ⟨n, since_concat_self _ _ _, Nat.add_le_add_right (Nat.le_add_right _ _) _⟩
    case isFalse =>
      have hneutral := neutral_lookEvents l e db n
      have hlaw := always_lookEvents h.law l e db n
      have hnew := notMem_of_neutral hneutral
      obtain ⟨-, hstored, hrc⟩ := realtimeChecksumfile_cases l e.path db
      have hfailures : ∀ new : List Event, (∀ ev ∈ new, ev.Neutral) →
          failures (log ++ (lookEvents l e db n ++ new)) = e.attempts := by
        intro new hnew'
        rw [failures_append_of_neutral]
        · exact hentry.attempts
        · exact forall_mem_append.mpr ⟨hneutral, hnew'⟩
      have hanswered : ∀ new : List Event, (∀ u, .notified u ∉ new) →
          Answered (log ++ (lookEvents l e db n ++ new)) := by
        intro new hnew'
        refine answered_append h.le_now hle fun u hu => ?_
        rcases mem_append.mp hu with hu | hu
        · exact hnew u (mem_cons_of_mem _ hu)
        · exact hnew' u hu
      have hevents : Event.looked n :: (if l.path_missing = true then [Event.missing n] else []) ++
          (realtimeChecksumfile l e.path db).events ++
            [.checked (realtimeChecksumfile l e.path db).rc] = lookEvents l e db n := rfl
      rw [hevents]
      have hnotmem : ∀ {a b : List Event}, (∀ u, .notified u ∉ a) → (∀ u, .notified u ∉ b) →
          ∀ u, .notified u ∉ a ++ b := fun ha hb u hu =>
        (mem_append.mp hu).elim (ha u) (hb u)
      split
      case isTrue hgone =>
        have hmissing : ∀ ev ∈ [Event.missing n], ev.Neutral := by
          rw [forall_mem_singleton]
          trivial
        have hlaw' : Always Law (log ++ (lookEvents l e db n ++ [.missing n])) := by
          rw [← append_assoc]
          exact always_concat hlaw trivial
        have hnew' := hnotmem hnew (notMem_of_neutral hmissing)
        split
        case isTrue =>
          -- it has vanished between the two tests
          refine h.keep hlater hlaw' hnew' ⟨hfailures _ hmissing, fun _ => ?_⟩
          rw [← append_assoc]
          exact ⟨n, since_concat_self _ _ _, Nat.add_le_add_right (Nat.le_add_right _ _) _⟩
        case isFalse hseen =>
          obtain ⟨t, hsince, ht⟩ := hentry.missing (by simpa using hseen)
          have hconfirmed : Confirmed (log ++ (lookEvents l e db n ++ [.missing n])) :=
            confirmed_append hsince (ht.trans hdue) hnew' (by simp)
          have hdelete : ∀ sent, Always Law (log ++ (lookEvents l e db n ++ [.missing n] ++
              [.delete true sent])) := fun sent => by
            rw [← append_assoc]
            exact always_concat hlaw' (.inl hconfirmed)
          rw [hstored hgone]
          split
          case isTrue =>
            -- the delete is tried again later
            have hsplit : log ++ (lookEvents l e db n ++ [.missing n] ++
                [.delete true false, .undelivered]) =
                  log ++ (lookEvents l e db n ++ [.missing n, .delete true false]) ++
                    [.undelivered] := by
              simp
            have hneutral' : ∀ ev ∈ [Event.missing n, .delete true false], ev.Neutral := by
              rw [forall_mem_cons, forall_mem_singleton]
              exact ⟨trivial, trivial⟩
            have hdelete' := hdelete false
            rw [append_assoc] at hdelete'
            refine h.keep hlater ?_ (hnotmem hnew' fun u hu => ?_) ⟨?_, fun _ => ⟨t, ?_, ?_⟩⟩
            · rw [hsplit]
              exact always_concat hdelete' trivial
            · simp at hu
            · rw [hsplit, failures_concat_undelivered, hfailures _ hneutral']
            · refine hsince.append fun ev hev hnotified => ?_
              cases ev with
              | notified u =>
                refine hnotmem hnew' (fun u hu => ?_) u hev
                simp at hu
              | _ => exact hnotified
            · dsimp only [rtDueAfter]
              omega
          case isFalse =>
            have hsplit : lookEvents l e db n ++ [.missing n] ++
                [.delete true true, .removed, .left] =
                  lookEvents l e db n ++ [.missing n, .delete true true, .removed] ++ [.left] := by
              simp
            have hnew'' : ∀ u, Event.notified u ∉ [.missing n, .delete true true, .removed] :=
              fun u hu => by simp at hu
            have hremoved : Law (log ++ (lookEvents l e db n ++ [.missing n] ++
                [.delete true true])) .removed := by
              rw [← append_assoc]
              exact suffix_append _ _
            have hlaw'' := always_concat (hdelete true) hremoved
            rw [append_assoc, append_assoc, append_assoc] at hlaw''
            rw [hsplit]
            refine h.drop hlater hlaw'' (hnotmem hnew hnew'') (hanswered _ hnew'') ?_
            exact .inr (.inl ⟨log ++ (lookEvents l e db n ++ [.missing n]), by simp⟩)
      case isFalse hgone =>
        have hlaw' : Always Law (log ++ (lookEvents l e db n ++ [.unreadable])) := by
          rw [← append_assoc]
          exact always_concat hlaw trivial
        have hunreadable : ∀ u, Event.notified u ∉ [Event.unreadable] := fun u hu => by simp at hu
        have hattempts : failures (log ++ (lookEvents l e db n ++ [.unreadable])) =
            e.attempts + 1 := by
          have hlook := hfailures [] fun ev hev => absurd hev not_mem_nil
          rw [append_nil] at hlook
          rw [← append_assoc, failures_concat_unreadable, hlook]
        split
        case isTrue =>
          split
          case isTrue hmax =>
            -- too many attempts have failed
            refine h.drop hlater hlaw' (hnotmem hnew hunreadable) (hanswered _ hunreadable)
              (.inr (.inr ⟨⟨log ++ lookEvents l e db n, by simp⟩, ?_⟩))
            rw [hattempts]
            exact hmax
          case isFalse =>
            exact h.keep hlater hlaw' (hnotmem hnew hunreadable)
              ⟨hattempts, fun hfalse => absurd hfalse Bool.false_ne_true⟩
        case isFalse hread =>
          have hnonneg : 0 ≤ (realtimeChecksumfile l e.path db).rc := by
            simp only [mem_cons, not_mem_nil, or_false] at hrc
            omega
          have hempty := hanswered [] fun u hu => absurd hu not_mem_nil
          rw [append_nil] at hempty
          refine h.drop hlater hlaw hnew hempty (.inl ⟨_, hnonneg, ?_⟩)
          rw [lookEvents, ← append_assoc]
          exact suffix_append _ _

end Path

/-! ## List and hash -/

/-- The node that the hash has for an entry of the list -/
def Pend.node (e : Pend) : Bytes × ℕ := (e.path, e.ref)

/-- The list and the hash hold the same entries, each path once. -/
structure SameEntries (head : List Pend) (hash : List (Bytes × ℕ)) : Prop where
  perm : hash.Perm (head.map Pend.node)
  path_nodup : (head.map Pend.path).Nodup
  ref_nodup : (head.map Pend.ref).Nodup

section SameEntries

variable {head front rest : List Pend} {hash : List (Bytes × ℕ)} {e' : Pend} {ref : ℕ}

theorem SameEntries.mem_hash_iff (h : SameEntries head hash) {node : Bytes × ℕ} :
    node ∈ hash ↔ ∃ e ∈ head, e.node = node := by
  rw [h.perm.mem_iff, List.mem_map]

theorem SameEntries.hash_nodup (h : SameEntries head hash) : (hash.map Prod.fst).Nodup := by
  have hfst : (hash.map Prod.fst).Perm (head.map Pend.path) := by
    have hmap := h.perm.map Prod.fst
    rwa [List.map_map] at hmap
  exact hfst.nodup_iff.mpr h.path_nodup

theorem SameEntries.osHashGet_eq_some (h : SameEntries head hash)
    (hget : osHashGet hash path = some ref) : ∃ e ∈ head, e.path = path ∧ e.ref = ref := by
  rw [osHashGet, lookup_eq_some_iff] at hget
  obtain ⟨l₁, l₂, hsplit, -⟩ := hget
  have hmem : (path, ref) ∈ hash := by
    rw [hsplit]
    exact mem_append_right _ mem_cons_self
  obtain ⟨e, he, hnode⟩ := h.mem_hash_iff.mp hmem
  obtain ⟨hpath, href⟩ := Prod.mk.inj hnode
  exact ⟨e, he, hpath, href⟩

theorem SameEntries.osHashGet_eq_none (h : SameEntries head hash)
    (hget : osHashGet hash path = none) : path ∉ head.map Pend.path := by
  rw [osHashGet, lookup_eq_none_iff] at hget
  rintro hmem
  obtain ⟨e, he, rfl⟩ := List.mem_map.mp hmem
  have hne := hget e.node (h.mem_hash_iff.mpr ⟨e, he, rfl⟩)
  rw [bne_iff_ne] at hne
  exact hne rfl

theorem SameEntries.replace (h : SameEntries (front ++ e :: rest) hash) (hnode : e'.node = e.node) :
    SameEntries (front ++ e' :: rest) hash := by
  obtain ⟨hpath, href⟩ := Prod.mk.inj hnode
  refine ⟨?_, ?_, ?_⟩
  · have hperm := h.perm
    rw [map_append, map_cons] at hperm ⊢
    rwa [hnode]
  · have hnodup := h.path_nodup
    rw [map_append, map_cons] at hnodup ⊢
    rwa [hpath]
  · have hnodup := h.ref_nodup
    rw [map_append, map_cons] at hnodup ⊢
    rwa [href]

/-- `rt_pend_drop` takes an entry from both. -/
theorem SameEntries.drop (h : SameEntries (front ++ e :: rest) hash) :
    SameEntries (front ++ rest) (osHashDelete hash e.path) := by
  have hmem : e.node ∈ hash :=
    h.mem_hash_iff.mpr ⟨e, mem_append_right _ mem_cons_self, rfl⟩
  obtain ⟨node, l₁, l₂, -, hnode, hsplit, herase⟩ :=
    exists_of_eraseP (p := fun node : Bytes × ℕ => node.1 == e.path) hmem (beq_self_eq_true _)
  -- there is only one node with this path
  obtain rfl : node = e.node := by
    refine inj_on_of_nodup_map h.hash_nodup ?_ hmem (beq_iff_eq.mp hnode)
    rw [hsplit]
    exact mem_append_right _ mem_cons_self
  have hsub : (front ++ rest).Sublist (front ++ e :: rest) :=
    List.Sublist.append_left (sublist_cons_self _ _) _
  refine ⟨?_, h.path_nodup.sublist (hsub.map _), h.ref_nodup.sublist (hsub.map _)⟩
  have hperm : (e.node :: (l₁ ++ l₂)).Perm (e.node :: (front ++ rest).map Pend.node) := by
    have hall := h.perm
    rw [hsplit, map_append, map_cons] at hall
    rw [map_append]
    exact perm_middle.symm.trans (hall.trans perm_middle)
  rw [osHashDelete, herase]
  exact hperm.cons_inv

theorem SameEntries.cons (h : SameEntries head hash) (hpath : e.path ∉ head.map Pend.path)
    (href : e.ref ∉ head.map Pend.ref) : SameEntries (e :: head) (e.node :: hash) where
  perm := h.perm.cons _
  path_nodup := nodup_cons.mpr ⟨hpath, h.path_nodup⟩
  ref_nodup := nodup_cons.mpr ⟨href, h.ref_nodup⟩

end SameEntries

/-! ## The queue and the paths -/

/-- The queue, with an entry for each path that is in it. -/
structure Inv (head : List Pend) (w : World) : Prop where
  same : SameEntries head w.hash
  ref_lt : ∀ e ∈ head, e.ref < w.fresh
  inside : ∀ e ∈ head, PathInv (some e) (w.log e.path) w.now
  outside : ∀ path ∉ head.map Pend.path, PathInv none (w.log path) w.now

section Inv

variable {head front rest : List Pend} {w : World} {s : State}

theorem visit_kept (l : Look) (e : Pend) (db : Db) (now : ℕ) :
    ∀ e' ∈ (visit l e db now).kept, e'.node = e.node := by
  rw [visit]
  dsimp only
  intro e' he'
  split at he'
  · obtain rfl := some.inj he'
    rfl
  · split at he'
    · obtain rfl := some.inj he'
      rfl
    · split at he'
      · split at he'
        · obtain rfl := some.inj he'
          rfl
        · split at he'
          · obtain rfl := some.inj he'
            rfl
          · exact absurd he' (by simp)
      · split at he'
        · split at he'
          · exact absurd he' (by simp)
          · obtain rfl := some.inj he'
            rfl
        · exact absurd he' (by simp)

theorem le_visit_now (l : Look) (e : Pend) (db : Db) (now : ℕ) : now ≤ (visit l e db now).now := by
  have hlater : now ≤ now + l.tick + l.delay := by omega
  rw [visit]
  dsimp only
  split
  · exact Nat.le_add_right _ _
  · split
    · exact hlater
    · split
      · split
        · exact hlater
        · split
          · exact hlater
          · exact hlater
      · split
        · split
          · exact hlater
          · exact hlater
        · exact hlater

/-- A look at an entry of the list -/
theorem Inv.after (h : Inv (front ++ e :: rest) w) (l : Look) :
    let v := visit l e w.db w.now
    Inv (front ++ (v.kept.toList ++ rest)) (w.after e v) := by
  intro v
  have hmem : e ∈ front ++ e :: rest := mem_append_right _ mem_cons_self
  have hpath : PathInv v.kept ((w.after e v).log e.path) (w.after e v).now := by
    have hlog : (w.after e v).log e.path = w.log e.path ++ v.events := update_self _ _ _
    rw [hlog]
    exact (h.inside e hmem).visit l w.db
  have hle : w.now ≤ (w.after e v).now := le_visit_now l e w.db w.now
  have hother : ∀ path ≠ e.path, (w.after e v).log path = w.log path := fun path hne =>
    update_of_ne hne _ _
  -- the other entries have other paths
  have hne : ∀ e' ∈ front ++ rest, e'.path ≠ e.path := by
    have hnodup := h.same.path_nodup
    rw [map_append, map_cons, nodup_middle, ← map_append] at hnodup
    intro e' he' heq
    exact (nodup_cons.mp hnodup).1 (List.mem_map.mpr ⟨e', he', heq⟩)
  have hinside : ∀ e' ∈ front ++ rest, PathInv (some e') ((w.after e v).log e'.path)
      (w.after e v).now := by
    intro e' he'
    rw [hother _ (hne e' he')]
    refine (h.inside e' ?_).mono hle
    rw [mem_append, mem_cons]
    exact (mem_append.mp he').imp_right .inr
  have hrefs : ∀ e' ∈ front ++ rest, e'.ref < w.fresh := by
    intro e' he'
    refine h.ref_lt e' ?_
    rw [mem_append, mem_cons]
    exact (mem_append.mp he').imp_right .inr
  have houtside : ∀ path ≠ e.path, path ∉ (front ++ rest).map Pend.path →
      PathInv none ((w.after e v).log path) (w.after e v).now := by
    intro path hpath hnot
    rw [hother _ hpath]
    refine (h.outside path ?_).mono hle
    rw [map_append, map_cons, mem_append, mem_cons]
    rw [map_append, mem_append] at hnot
    tauto
  cases hkept : v.kept with
  | none =>
    rw [hkept] at hpath
    have hhash : (w.after e v).hash = osHashDelete w.hash e.path := by
      rw [World.after, hkept]
      rfl
    rw [toList_none, nil_append]
    refine ⟨?_, hrefs, hinside, fun path hnot => ?_⟩
    · rw [hhash]
      exact h.same.drop
    · by_cases heq : path = e.path
      · rw [heq]
        exact hpath
      · exact houtside path heq hnot
  | some e' =>
    rw [hkept] at hpath
    have hnode : e'.node = e.node := visit_kept l e w.db w.now e' hkept
    obtain ⟨hsame, href⟩ := Prod.mk.inj hnode
    have hhash : (w.after e v).hash = w.hash := by
      rw [World.after, hkept]
      rfl
    rw [toList_some, singleton_append]
    refine ⟨?_, fun e'' he'' => ?_, fun e'' he'' => ?_, fun path hnot => ?_⟩
    · rw [hhash]
      exact h.same.replace hnode
    · rw [mem_append, mem_cons] at he''
      rcases he'' with he'' | rfl | he''
      · exact hrefs e'' (mem_append_left _ he'')
      · rw [href]
        exact h.ref_lt e hmem
      · exact hrefs e'' (mem_append_right _ he'')
    · rw [mem_append, mem_cons] at he''
      rcases he'' with he'' | rfl | he''
      · exact hinside e'' (mem_append_left _ he'')
      · rw [hsame]
        exact hpath
      · exact hinside e'' (mem_append_right _ he'')
    · rw [map_append, map_cons, mem_append, mem_cons, hsame] at hnot
      refine houtside path ?_ ?_
      · tauto
      · rw [map_append, mem_append]
        tauto

theorem Inv.processFrom (looks : ℕ → Look) (n : ℕ) (h : Inv (front ++ rest) w) :
    Inv (front ++ (processFrom looks n rest w).1) (processFrom looks n rest w).2 := by
  induction rest generalizing front w n with
  | nil => exact h
  | cons e rest ih =>
    have hafter := h.after (looks n)
    dsimp only at hafter
    rw [← append_assoc] at hafter
    have hrest := ih (n + 1) hafter
    rwa [append_assoc] at hrest

theorem PathInv.notify (h : PathInv (some e) log now) :
    PathInv (some (e.notify now)) (log ++ [.notified now]) now where
  law := always_concat h.law trivial
  le_now u hu := by
    rcases mem_append.mp hu with hu | hu
    · exact h.le_now u hu
    · obtain rfl := Event.notified.inj (mem_singleton.mp hu)
      exact le_rfl
  entry e' he' := by
    obtain rfl := some.inj he'
    refine ⟨?_, fun hfalse => absurd hfalse Bool.false_ne_true⟩
    rw [failures, foldl_append]
    exact (h.entry e rfl).attempts
  settled hnone := absurd hnone (by simp)

/-- And for one that does not -/
theorem PathInv.join (h : PathInv none log now) (hattempts : e.attempts = 0)
    (hmissing : e.missing_seen = false) :
    PathInv (some e) (log ++ [.notified now, .joined]) now where
  law := by
    have hnotified : Law log (.notified now) := trivial
    rw [append_cons]
    exact always_concat (always_concat h.law hnotified) trivial
  le_now u hu := by
    rw [mem_append, mem_cons, mem_singleton] at hu
    rcases hu with hu | hu | hu
    · exact h.le_now u hu
    · obtain rfl := Event.notified.inj hu
      exact le_rfl
    · cases hu
  entry e' he' := by
    obtain rfl := some.inj he'
    refine ⟨?_, fun htrue => ?_⟩
    · rw [failures, foldl_append, hattempts]
      rfl
    · rw [hmissing] at htrue
      cases htrue
  settled hnone := absurd hnone (by simp)

theorem Inv.realtimeEnqueue (h : Inv s.head s.toWorld) (file_name : Bytes) :
    Inv (realtimeEnqueue file_name s).head (realtimeEnqueue file_name s).toWorld := by
  rw [Realtime.realtimeEnqueue]
  split
  case isTrue => exact h
  case isFalse =>
    have hother : ∀ (new : List Event) (path : Bytes), path ≠ file_name →
        Function.update s.log file_name (s.log file_name ++ new) path = s.log path :=
      fun new path hne => update_of_ne hne _ _
    split
    case h_1 ref hget =>
      -- the hash leads to the entry of this path, and no other
      obtain ⟨e, he, hpath, href⟩ := h.same.osHashGet_eq_some hget
      have hfst : ∀ e' : Pend, (if e'.ref = ref then e'.notify s.now else e').path = e'.path :=
        fun e' => by
          split
          · rfl
          · rfl
      have hsnd : ∀ e' : Pend, (if e'.ref = ref then e'.notify s.now else e').ref = e'.ref :=
        fun e' => by
          split
          · rfl
          · rfl
      have hpaths : (s.head.map fun e' => if e'.ref = ref then e'.notify s.now else e').map
          Pend.path = s.head.map Pend.path := by
        rw [List.map_map]
        exact map_congr_left fun e' _ => hfst e'
      have hrefs : (s.head.map fun e' => if e'.ref = ref then e'.notify s.now else e').map
          Pend.ref = s.head.map Pend.ref := by
        rw [List.map_map]
        exact map_congr_left fun e' _ => hsnd e'
      have hnodes : (s.head.map fun e' => if e'.ref = ref then e'.notify s.now else e').map
          Pend.node = s.head.map Pend.node := by
        rw [List.map_map]
        exact map_congr_left fun e' _ => Prod.ext (hfst e') (hsnd e')
      refine ⟨⟨?_, ?_, ?_⟩, ?_, ?_, ?_⟩
      · rw [hnodes]
        exact h.same.perm
      · rw [hpaths]
        exact h.same.path_nodup
      · rw [hrefs]
        exact h.same.ref_nodup
      · intro e' he'
        obtain ⟨e₀, he₀, rfl⟩ := List.mem_map.mp he'
        rw [hsnd]
        exact h.ref_lt e₀ he₀
      · intro e' he'
        obtain ⟨e₀, he₀, rfl⟩ := List.mem_map.mp he'
        dsimp only
        by_cases hsame : e₀.ref = ref
        · obtain rfl : e₀ = e :=
            inj_on_of_nodup_map h.same.ref_nodup he₀ he (hsame.trans href.symm)
          rw [if_pos hsame]
          have hlog : Function.update s.log file_name (s.log file_name ++ [.notified s.now])
              (e₀.notify s.now).path = s.log e₀.path ++ [.notified s.now] := by
            rw [← hpath]
            exact update_self _ _ _
          rw [hlog]
          exact (h.inside e₀ he₀).notify
        · have hne : e₀.path ≠ file_name := fun heq => by
            have hunique := inj_on_of_nodup_map h.same.path_nodup he₀ he
              (heq.trans hpath.symm)
            rw [hunique] at hsame
            exact hsame href
          rw [if_neg hsame, hother _ _ hne]
          exact h.inside e₀ he₀
      · intro path hnot
        rw [hpaths] at hnot
        have hne : path ≠ file_name := fun heq =>
          hnot (List.mem_map.mpr ⟨e, he, hpath.trans heq.symm⟩)
        dsimp only
        rw [hother _ _ hne]
        exact h.outside path hnot
    case h_2 hget =>
      have hnot := h.same.osHashGet_eq_none hget
      have hfresh : ∀ e ∈ s.head, e.ref ≠ s.fresh := fun e he => (h.ref_lt e he).ne
      refine ⟨h.same.cons hnot fun hmem => ?_, fun e he => ?_, fun e he => ?_, fun path hmem => ?_⟩
      · obtain ⟨e, he, href⟩ := List.mem_map.mp hmem
        exact hfresh e he href
      · rcases mem_cons.mp he with rfl | he
        · exact Nat.lt_succ_self _
        · exact Nat.lt_succ_of_lt (h.ref_lt e he)
      · rcases mem_cons.mp he with rfl | he
        · dsimp only
          rw [update_self]
          exact (h.outside file_name hnot).join rfl rfl
        · have hne : e.path ≠ file_name := fun heq => hnot (List.mem_map.mpr ⟨e, he, heq⟩)
          dsimp only
          rw [hother _ _ hne]
          exact h.inside e he
      · rw [map_cons, mem_cons, not_or] at hmem
        dsimp only
        rw [hother _ _ hmem.1]
        exact h.outside path hmem.2

theorem Inv.step (h : Inv s.head s.toWorld) (l : Label) :
    Inv (step s l).head (step s l).toWorld := by
  cases l with
  | notify file_name => exact h.realtimeEnqueue file_name
  | advance ms =>
    have hle : s.now ≤ s.now + ms := Nat.le_add_right _ _
    exact ⟨h.same, h.ref_lt, fun e he => (h.inside e he).mono hle,
      fun path hnot => (h.outside path hnot).mono hle⟩
  | scan db => exact ⟨h.same, h.ref_lt, h.inside, h.outside⟩
  | process looks =>
    have hall : Inv ([] ++ s.head) s.toWorld := h
    exact hall.processFrom looks 0

theorem inv_init : Inv init.head init.toWorld where
  same := ⟨.nil, nodup_nil, nodup_nil⟩
  ref_lt _ he := absurd he not_mem_nil
  inside _ he := absurd he not_mem_nil
  outside _ _ :=
    { law := always_nil
      le_now := fun _ h => absurd h not_mem_nil
      entry := fun _ h => absurd h (by simp)
      settled := fun _ _ ⟨pre, post, h, _⟩ =>
        absurd h (append_ne_nil_of_right_ne_nil pre (cons_ne_nil _ post)).symm }

theorem inv_run (ls : List Label) : Inv (run ls).head (run ls).toWorld := by
  have hfold : ∀ (ls : List Label) (s : State), Inv s.head s.toWorld →
      Inv (ls.foldl Realtime.step s).head (ls.foldl Realtime.step s).toWorld := by
    intro ls
    induction ls with
    | nil => exact fun _ h => h
    | cons l ls ih => exact fun s h => ih _ (h.step l)
  exact hfold ls init inv_init

end Inv

/-- In every run, list and hash hold the same paths, each once; a path that was notified waits in
the queue until it leaves; and what happens to a path obeys the law: a delete is sent for a path
that was found missing twice or is a directory now, nothing is removed before its delete was
delivered, and an entry leaves after a look that came behind every notification, when its check is
finished, its delete was delivered or too many attempts have failed. -/
theorem realtime_law (ls : List Label) :
    (((run ls).hash.map Prod.fst).Perm ((run ls).head.map Pend.path) ∧
        ((run ls).head.map Pend.path).Nodup ∧ ((run ls).hash.map Prod.fst).Nodup) ∧
      (∀ path t, Since (· = .left) (.notified t) ((run ls).log path) →
        path ∈ (run ls).head.map Pend.path) ∧
      ∀ path, Always Law ((run ls).log path) := by
  have h := inv_run ls
  refine ⟨⟨?_, h.same.path_nodup, h.same.hash_nodup⟩, fun path t hsince => ?_, fun path => ?_⟩
  · have hperm := h.same.perm.map Prod.fst
    rwa [List.map_map] at hperm
  · by_contra hnot
    exact (h.outside path hnot).settled rfl t hsince
  · by_cases hmem : path ∈ (run ls).head.map Pend.path
    · obtain ⟨e, he, rfl⟩ := List.mem_map.mp hmem
      exact (h.inside e he).law
    · exact (h.outside path hmem).law

/-- A file that is replaced by a directory is reported at the first look. And when a delete could not
be delivered 119 times, an entry leaves after a single look that finds its file unreadable. -/
theorem realtime_law_err :
    let path := lit "/etc/a"
    let stored : Db := fun p => if p = path then some [] else none
    let replaced : Look :=
      { tick := 0, delay := 0, path_missing := false, is_directory := true, directory_sent := true
        access := .failed, update_sent := true, new_file := .directory 0 [], delete_sent := false }
    let gone : Look :=
      { replaced with path_missing := true, is_directory := false, access := .missing }
    let unreadable : Look := { replaced with is_directory := false }
    let waiting : List Label := [.scan stored, .notify path, .advance 200]
    let directory := waiting ++ [.process fun _ => replaced]
    let failing := waiting ++ [.process fun _ => gone] ++
      (List.replicate 119 [Label.advance 30000, .process fun _ => gone]).flatten ++
        [.advance 30000, .process fun _ => unreadable]
    (¬ Always (fun pre ev => ev = .delete true true → Confirmed pre) ((run directory).log path)) ∧
      ¬ Always (fun pre ev => ev = .left → (∃ rc, 0 ≤ rc ∧ [.checked rc] <:+ pre) ∨
        [.delete true true, .removed] <:+ pre ∨ rtUnreadableMax ≤ pre.count .unreadable)
          ((run failing).log path) := by
  intro path stored replaced gone unreadable waiting directory failing
  constructor
  · intro h
    have hlog : (run directory).log path = [.notified 0, .joined, .looked 200, .directory] ++
        .delete true true :: [.removed, .checked 0, .left] := by
      decide +kernel
    obtain ⟨front, t, post, t', hpre, -⟩ := h _ _ _ hlog rfl
    have hmem : Event.missing t ∈ [.notified 0, .joined, .looked 200, .directory] := by
      rw [hpre]
      exact mem_append_right _ mem_cons_self
    simp at hmem
  · intro h
    obtain ⟨pre, hlog, hlast, hcount⟩ : ∃ pre, (run failing).log path = pre ++ .left :: [] ∧
        pre.getLast? = some .unreadable ∧ pre.count .unreadable < rtUnreadableMax :=
      ⟨((run failing).log path).dropLast, by decide +kernel⟩
    rcases h _ _ _ hlog rfl with ⟨rc, -, front, rfl⟩ | ⟨front, rfl⟩ | hmax
    · simp at hlast
    · simp at hlast
    · exact absurd hmax (Nat.not_le.mpr hcount)

end Realtime
