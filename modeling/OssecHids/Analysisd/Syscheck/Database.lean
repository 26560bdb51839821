import OssecHids.Analysisd.Syscheck.ChangeText
import OssecHids.Lib.Stream
import OssecHids.Lib.Transition

/-!
# The integrity databases

For each agent the manager has a file with a row for every monitored file, and an index of it in
memory. `DecodeSyscheck` compares what an agent sends with the row, comments the row out and
appends a new one.

Every function is modelled for the case that opening, reading and writing the file and allocating
memory succeed. The table of agents is as large as need be.
-/

open CString FimSum Transition

namespace Syscheck

/-! ## Data -/

/-- `sk_db_entry` -/
structure Entry where
  pos : ℕ
  prefix_sum : Option Bytes
  deriving DecidableEq

/-- `sk_agent_index[agent_id]`, a hash of the entries by file name -/
abbrev Index := Bytes → Option Entry

/-- What belongs to an agent: its file, its index once there is one, and whether its database is
completed (which the manager writes to a file, too). -/
structure Agent where
  file : Bytes := []
  index : Option Index := none
  index_incomplete : Bool := false
  completed : Bool := false

/-- The shared decoders `sk_dec_*` -/
inductive Decoder
  | mod | mod2 | mod3 | new | del
  deriving DecidableEq

/-- What an event becomes that is reported. -/
structure Alert where
  full_log : Bytes
  decoder_info : Decoder
  changes : Changes := {}
  deriving DecidableEq

/-- The event that is decoded. Whether maintenance is on for its location is read from a file. -/
structure Eventinfo where
  location : Bytes
  log : Bytes
  time : ℕ
  maintenance : Bool
  /-- The log is a C string. -/
  log_str : 0 ∉ log

/-- The members of `Config` that matter here. -/
structure Config where
  syscheck_auto_ignore : Bool
  syscheck_alert_new : Bool
  syscheck_report_new_as_changed : Bool
  syscheck_ignore : List Bytes

/-- The agents' databases, by location, and the buffers of the decoder. -/
structure State where
  agents : Bytes → Agent
  sdb : Texts

/-! ## Rows -/

/-- A row as it is printed. -/
def rowText (f_name : Bytes) (row : Bytes × ℕ) : Bytes :=
  row.1 ++ (chr ' ' :: chr '!' :: (fmtU row.2 ++ chr ' ' :: (f_name ++ [chr '\n'])))

/-- A string without the newline at its end. -/
def stripNewline (s : Bytes) : Bytes := if s.getLast? = some (chr '\n') then s.dropLast else s

/-- `DB_ParseEntryFilename`: the line after a zero byte was written behind the sum, and the file
name. `DB_SearchLinear` does the same to `sdb.buf`. -/
def dbParseEntryFilename (line_buf : Bytes) : Option (Bytes × Bytes) :=
  if line_buf.headD 0 = chr '\n' ∨ line_buf.headD 0 = chr '#' then none
  else
    match strchr (chr ' ') line_buf with
    | none => none
    | some p =>
      let saved_name :=
        if p.tail.headD 0 = chr '!' then (strchr (chr ' ') p.tail).map List.tail else some p.tail
      saved_name.map fun saved_name =>
        (line_buf.take (ptrDiff p line_buf) ++ 0 :: stripNewline (str p.tail),
          stripNewline (str saved_name))

/-- What `DB_BuildIndex` does with a line. -/
def dbBuildStep (state : ℕ × Index) (line : Bytes) : ℕ × Index :=
  (state.1 + line.length,
    match dbParseEntryFilename line with
    | none => state.2
    | some (line_copy, fname) => Function.update state.2 fname (some ⟨state.1, some (str line_copy)⟩))

/-- `DB_BuildIndex`, where there is no index yet -/
def dbBuildIndex (fp : Bytes) : Index :=
  ((readLines 6144 fp).foldl dbBuildStep (0, fun _ => none)).2

/-- The loop of `DB_SearchLinear`: the position and `sdb.buf` for the first row of a file. -/
def dbSearchLines (f_name : Bytes) : ℕ → List Bytes → Option (ℕ × Bytes)
  | _, [] => none
  | pos, line :: lines =>
    match dbParseEntryFilename line with
    | none => dbSearchLines f_name (pos + line.length) lines
    | some (buf, saved_name) =>
      if f_name = saved_name then some (pos, buf)
      else dbSearchLines f_name (pos + line.length) lines

/-! ## A row that is found -/

/-- A row of a file that was reported as a new one. -/
def newMarker (buf : Bytes) : Bool := strncmpEq 4 buf (lit "!+++")

/-- `saved_sum` -/
def savedSum (buf : Bytes) : Bytes := str (buf.drop (if newMarker buf then 4 else 3))

/-- How often a file has changed, `p`. -/
def changeCount (buf : Bytes) : ℕ :=
  if newMarker buf ∨ buf.headD 0 ≠ chr '!' then 0
  else if (buf.drop 1).headD 0 ≠ chr '!' then 1
  else if (buf.drop 2).headD 0 = chr '!' then 3
  else if (buf.drop 2).headD 0 = chr '?' then 4
  else 2

/-- The marks of the row that is written for a change. -/
def changeMarks (p : ℕ) : Bytes :=
  [chr '!', if 1 ≤ p then chr '!' else chr '+',
    if p = 2 then chr '!' else if 2 < p then chr '?' else chr '+']

/-- The decoder for a change; none for a file that changes too often. -/
def changeDecoder (cfg : Config) (p : ℕ) : Option Decoder :=
  if !cfg.syscheck_auto_ignore then some .mod
  else
    match p with
    | 0 => some .mod
    | 1 => some .mod2
    | 2 => some .mod3
    | _ => none

/-- What processing a row leaves: `entry` is written to the index if it is given. -/
structure Found where
  file : Bytes
  entry : Option Entry
  sdb : Texts
  alert : Option Alert

/-- Comment out the row at a position and append another one. -/
def replaceRow (fp : Bytes) (init_pos : ℕ) (newPrefix f_name : Bytes) (time : ℕ) : Bytes × Entry :=
  (fp.set init_pos (chr '#') ++ rowText f_name (newPrefix, time),
    ⟨fp.length, some (snprintf 6145 newPrefix)⟩)

/-- `DB_QuietUpdate` -/
def dbQuietUpdate (f_name c_sum : Bytes) (lf : Eventinfo) (fp : Bytes) (init_pos : ℕ)
    (sdb : Texts) : Found :=
  let (file, entry) := replaceRow fp init_pos (lit "+++" ++ c_sum) f_name lf.time
  { file, entry, sdb, alert := none }

/-- A sum that starts with `-1` -/
def isDeleted (sum : Bytes) : Bool := sum.take 2 == lit "-1"

/-- The text, the decoder and the values of the event for a change. -/
def changeAlert (f_name saved_sum c_sum : Bytes) (data : Option Bytes) (sdb : Texts)
    (dec : Decoder) : Texts × Alert :=
  if isDeleted c_sum then (sdb, { full_log := deletedComment f_name, decoder_info := .del })
  else if isDeleted saved_sum then
    (sdb, { full_log := readdedComment f_name, decoder_info := .new })
  else
    let p := pairs saved_sum c_sum
    let sdb := changeTexts sdb p
    (sdb, { full_log := changeComment sdb f_name data, decoder_info := dec, changes := changes p })

/-- `DB_ProcessFoundEntry`; `buf` and `init_pos` are what `sdb` has for the row. -/
def dbProcessFoundEntry (cfg : Config) (f_name c_sum : Bytes) (lf : Eventinfo)
    (data : Option Bytes) (fp : Bytes) (sdb : Texts) (buf : Bytes) (init_pos : ℕ) : Found :=
  let saved_sum := savedSum buf
  let c_sum := fimSumKeepHashes 6145 saved_sum c_sum
  if saved_sum = c_sum then { file := fp, entry := none, sdb, alert := none }
  else if !fimSumHasRealChange saved_sum c_sum then dbQuietUpdate f_name c_sum lf fp init_pos sdb
  else if lf.maintenance then dbQuietUpdate f_name c_sum lf fp init_pos sdb
  else
    let p := changeCount buf
    match changeDecoder cfg p with
    | none => { file := fp, entry := none, sdb, alert := none }
    | some dec =>
      let (file, entry) := replaceRow fp init_pos (changeMarks p ++ c_sum) f_name lf.time
      let (sdb, alert) := changeAlert f_name saved_sum c_sum data sdb dec
      { file, entry, sdb, alert := some alert }

/-! ## Searching -/

/-- Write the entry of a file, which is created if there is none. -/
def setEntry (index : Option Index) (f_name : Bytes) (entry : Option Entry) : Option Index :=
  index.map fun index => Function.update index f_name
    (some (entry.getD ((index f_name).getD ⟨0, none⟩)))

/-- `DB_SearchLinear` -/
def dbSearchLinear (cfg : Config) (f_name c_sum : Bytes) (lf : Eventinfo) (data : Option Bytes)
    (fp : Bytes) (sdb : Texts) : Option Found :=
  (dbSearchLines f_name 0 (readLines 6144 fp)).map fun (init_pos, buf) =>
    dbProcessFoundEntry cfg f_name c_sum lf data fp sdb buf init_pos

/-- The end of `DB_Search`, for a file that has no row. -/
def dbAddEntry (cfg : Config) (f_name c_sum : Bytes) (lf : Eventinfo) (agent : Agent)
    (sdb : Texts) : Found :=
  let mark_changed :=
    !lf.maintenance && cfg.syscheck_report_new_as_changed && agent.completed
  let newPrefix := (if mark_changed then lit "!+++" else lit "+++") ++ c_sum
  let file := agent.file ++ rowText f_name (newPrefix, lf.time)
  let entry : Option Entry := some ⟨agent.file.length, some (snprintf 6145 newPrefix)⟩
  if lf.maintenance then { file, entry, sdb, alert := none }
  else if cfg.syscheck_alert_new then
    let (sdb, changes) := newTexts sdb c_sum
    { file, entry, sdb,
      alert := some { full_log := newComment sdb f_name, decoder_info := .new, changes } }
  else { file, entry, sdb, alert := none }

/-- Where a row is looked for in the file: `DB_SearchLinear`, and what follows if it finds none. -/
def dbSearchFile (cfg : Config) (f_name c_sum : Bytes) (lf : Eventinfo) (data : Option Bytes)
    (agent : Agent) (sdb : Texts) : Found :=
  match dbSearchLinear cfg f_name c_sum lf data agent.file sdb with
  | some found => found
  | none => dbAddEntry cfg f_name c_sum lf agent sdb

/-- `DB_Search` behind `DB_BuildIndex` -/
def dbSearch (cfg : Config) (f_name c_sum : Bytes) (lf : Eventinfo) (data : Option Bytes)
    (agent : Agent) (sdb : Texts) : Found :=
  let db_entry := agent.index.bind fun index => index f_name
  match db_entry with
  | some ⟨pos, some prefix_sum⟩ =>
    dbProcessFoundEntry cfg f_name c_sum lf data agent.file sdb (prefix_sum.take 6144) pos
  | _ =>
    if agent.index.isNone || agent.index_incomplete || db_entry.isSome then
      dbSearchFile cfg f_name c_sum lf data agent sdb
    else dbAddEntry cfg f_name c_sum lf agent sdb

/-- What is left of an agent. -/
def Agent.store (agent : Agent) (f_name : Bytes) (found : Found) : Agent :=
  { agent with file := found.file, index := setEntry agent.index f_name found.entry }

/-- `DB_BuildIndex` -/
def Agent.build (agent : Agent) : Agent :=
  { agent with index := some (agent.index.getD (dbBuildIndex agent.file)) }

/-- The locations that `DB_File` opens a database for. -/
def locationOk (agent : Bytes) : Bool :=
  let sk_name :=
    match strchr (chr ')') agent with
    | some paren => strstr (lit "->") paren
    | none => strstr (lit "->") agent
  match sk_name with
  | none => true
  | some sk_name => sk_name.drop 2 == lit "syscheck" || sk_name.drop 2 == lit "syscheck-registry"

/-! ## The decoder -/

/-- `tolower` in the C locale -/
def toLower (b : UInt8) : UInt8 := if 65 ≤ b && b ≤ 90 then b + 32 else b

/-- `strncasecmp(*ff_ig, f_name, strlen(*ff_ig)) == 0` for one of the entries -/
def ignored (cfg : Config) (f_name : Bytes) : Bool :=
  cfg.syscheck_ignore.any fun ff_ig => (ff_ig.map toLower).isPrefixOf (f_name.map toLower)

/-- `DB_SetCompleted`; only agents with an opened database are known. -/
def dbSetCompleted (agents : Bytes → Agent) (location : Bytes) : Bytes → Agent :=
  if (agents location).index.isSome then
    Function.update agents location { agents location with completed := true }
  else agents

/-- The parts of a message: the sum, the file name and what is behind the first line. -/
structure Message where
  c_sum : Bytes
  f_name : Bytes
  data : Option Bytes

/-- A message is `checksum filename`, and more behind a newline. -/
def parseMessage (log : Bytes) : Option Message :=
  (strchr (chr ' ') log).map fun f_name =>
    { c_sum := log.take (ptrDiff f_name log)
      f_name := f_name.tail.takeWhile (· != chr '\n')
      data := (strchr (chr '\n') f_name.tail).map List.tail }

/-- The messages that get to `DB_Search`, and to a database. -/
def accepts (cfg : Config) (location : Bytes) (m : Message) : Bool :=
  !ignored cfg m.f_name && (m.c_sum == lit "-1" || (strchr (chr ':') m.c_sum).isSome) &&
    locationOk location

/-- `DecodeSyscheck` -/
def decodeSyscheck (cfg : Config) (s : State) (lf : Eventinfo) : State × Option Alert :=
  match parseMessage lf.log with
  | none =>
    if lf.log = lit "syscheck-db-completed" then
      ({ s with agents := dbSetCompleted s.agents lf.location }, none)
    else (s, none)
  | some m =>
    if accepts cfg lf.location m then
      let agent := (s.agents lf.location).build
      let found := dbSearch cfg m.f_name m.c_sum lf m.data agent s.sdb
      ({ agents := Function.update s.agents lf.location (agent.store m.f_name found)
         sdb := found.sdb }, found.alert)
    else (s, none)

/-! ## Runs -/

/-- No event has been decoded, and no database been written. -/
def init : State := { agents := fun _ => {}, sdb := {} }

/-- The manager is started again: the index of every database is gone. -/
def restart (s : State) : State where
  agents := fun location =>
    { s.agents location with index := none, index_incomplete := false }
  sdb := {}

inductive Label
  | event (lf : Eventinfo)
  | restart

/-- A step of the manager, and the alert it makes. -/
def step (cfg : Config) (s : State) : Label → State × Option Alert
  | .event lf => decodeSyscheck cfg s lf
  | .restart => (restart s, none)

abbrev Step (cfg : Config) : State → Label × Option Alert → State → Prop := StepOf (step cfg)

/-- The state after some steps, and what they were and made. -/
def runLabels (cfg : Config) : State → List Label → State × List (Label × Option Alert)
  | s, [] => (s, [])
  | s, l :: ls =>
    let (s', alert) := step cfg s l
    let (t, done) := runLabels cfg s' ls
    (t, (l, alert) :: done)

theorem run_runLabels (cfg : Config) (s : State) (ls : List Label) :
    Run (Step cfg) s (runLabels cfg s ls).2 (runLabels cfg s ls).1 := by
  induction ls generalizing s with
  | nil => exact .nil s
  | cons l ls ih => exact .cons rfl (ih (step cfg s l).1)

end Syscheck
