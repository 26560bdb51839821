import OssecHids.Lib.KeyedList
import OssecHids.OsExecd.Request

/-!
# The active-response daemon

`execd.c` and `timeout_dup.c`: `ExecdStart` runs the command of a request with "add" and lists it
with the time at which it is to be run again with "delete". The entry is listed until that second
run has been reaped. Requests, ticks of the clock and exits of children come in any order; a
request for an address whose "delete" is running waits for it.

Every fork succeeds here, and the pid is one that no child has.
-/

open CString KeyedList Transition

namespace Execd

/-! ## Entries and children -/

/-- `timeout_data`; the pid of a "delete" that has not been started is not positive. -/
structure TimeoutData where
  time_of_addition : ℤ
  time_to_block : Int32
  command : List Bytes
  delete_pid : ℤ := 0
  deriving DecidableEq, Repr

/-- A child that has not been reaped. -/
structure Child where
  pid : ℤ
  cmd : List Bytes
  exited : Bool := false
  deriving DecidableEq, Repr

/-- The children, and the pids of those to come. -/
structure Processes where
  children : List Child
  forks : List ℤ

/-- `ExecCmd`; there is nothing if the next pid is not free. -/
def execCmd (cmd : List Bytes) (procs : Processes) : Option (ℤ × Processes) :=
  match procs.forks with
  | [] => none
  | pid :: forks =>
    if 0 < pid ∧ pid ∉ procs.children.map Child.pid then
      some (pid, { children := procs.children ++ [{ pid, cmd }], forks })
    else none

/-! ## Repeated offenders -/

/-- The loop that looks for the zero behind the configured timeouts; there is nothing when it
leaves the array. -/
def offendersLoop (repeated_offenders_timeout : List Int32) : ℕ → ℕ → Option ℕ
  | 0, _ => none
  | fuel + 1, i2 =>
    (repeated_offenders_timeout[i2]?).bind fun timeout =>
      if timeout != 0 then offendersLoop repeated_offenders_timeout fuel (i2 + 1) else some i2

/-- The number of configured timeouts. -/
def offendersCount (repeated_offenders_timeout : List Int32) : Option ℕ :=
  offendersLoop repeated_offenders_timeout (repeated_offenders_timeout.length + 1) 0

/-- An element of an array; there is nothing outside of it. -/
def arrayAt (array : List Int32) (i : ℤ) : Option Int32 := if i < 0 then none else array[i.toNat]?

/-- The timeout of an offender that has been seen `ntimes` times, and the text that is stored
instead of `ntimes`, if there is one. -/
def offenderTimeout (repeated_offenders_timeout : List Int32) (ntimes : Bytes) :
    Option (Int32 × Option Bytes) :=
  (offendersCount repeated_offenders_timeout).bind fun i2 =>
    let ntimes_int := atoi ntimes
    if ntimes_int ≥ i2 then
      (arrayAt repeated_offenders_timeout (i2 - 1)).map fun timeout => (timeout * 60, none)
    else
      (arrayAt repeated_offenders_timeout ntimes_int).map fun timeout =>
        (timeout * 60, some (fmtD (ntimes_int + 1)))

/-- `rkey` -/
def rkey (command user ip : Bytes) : Bytes :=
  snprintf 255 (command ++ lit " " ++ user ++ lit " " ++ ip)

/-- `repeated_hash`: what `OSHash_Get` finds. -/
abbrev RepeatedHash := Bytes → Option Bytes

/-- The stored text is replaced, if there is another one. -/
def RepeatedHash.store (hash : RepeatedHash) (rkey : Bytes) : Option Bytes → RepeatedHash
  | none => hash
  | some ntimes => Function.update hash rkey (some ntimes)

/-! ## The three functions -/

/-- Whether an entry is one for the command, the user and the address of a request. -/
def isDuplicate (timeout_args : List Bytes) (entry : TimeoutData) : Bool :=
  match entry.command[0]?, entry.command[2]?, entry.command[3]? with
  | some command, some user, some ip =>
    some ip == timeout_args[3]? && some user == timeout_args[2]? &&
      some command == timeout_args[0]?
  | _, _, _ => false

/-- The entry for a request that comes again, and the hash. -/
def renewEntry (repeated_offenders_timeout : List Int32) (timeout_args : List Bytes)
    (curr_time : ℤ) (repeated_hash : Option RepeatedHash) (entry : TimeoutData) :
    Option (TimeoutData × Option RepeatedHash) :=
  let entry := { entry with time_of_addition := curr_time }
  match repeated_hash, entry.command[0]?, timeout_args[2]?, timeout_args[3]? with
  | some hash, some command, some user, some ip =>
    if repeated_offenders_timeout.headD 0 ≠ 0 ∧ ip.headD 0 ≠ chr '-' then
      match hash (rkey command user ip) with
      | none => some (entry, some hash)
      | some ntimes =>
        (offenderTimeout repeated_offenders_timeout ntimes).map fun (timeout, stored) =>
          ({ entry with time_to_block := timeout },
            some (hash.store (rkey command user ip) stored))
    else some (entry, some hash)
  | _, _, _, _ => some (entry, repeated_hash)

/-- What `ExecdTimeoutDupCheck` comes to. -/
inductive DupCheck
  /-- The request is incomplete. -/
  | incomplete
  | renewed (entry : TimeoutData) (timeout_list : List TimeoutData)
      (repeated_hash : Option RepeatedHash)
  /-- It is in `waitpid`, for the "delete" of the entry. -/
  | waits (delete_pid : ℤ)
  | absent

/-- `ExecdTimeoutDupCheck`, up to the wait if there is one. -/
def execdTimeoutDupCheck (repeated_offenders_timeout : List Int32)
    (timeout_list : List TimeoutData) (timeout_args : List Bytes) (curr_time : ℤ)
    (repeated_hash : Option RepeatedHash) : Option DupCheck :=
  if timeout_args[2]? = none ∨ timeout_args[3]? = none then some .incomplete
  else
    match splitFirst (isDuplicate timeout_args) timeout_list with
    | none => some .absent
    | some (front, entry, back) =>
      if entry.delete_pid > 0 then some (.waits entry.delete_pid)
      else
        (renewEntry repeated_offenders_timeout timeout_args curr_time repeated_hash entry).map
          fun (entry, hash) => .renewed entry (front ++ entry :: back) hash

/-- `ExecdTimeoutReapDelete` -/
def execdTimeoutReapDelete (timeout_list : List TimeoutData) (pid : ℤ) : List TimeoutData :=
  if pid ≤ 0 then timeout_list
  else
    match splitFirst (fun entry : TimeoutData => entry.delete_pid == pid) timeout_list with
    | none => timeout_list
    | some (front, _, back) => front ++ back

/-- Whether the block of an entry is over. -/
def isDue (now : ℤ) (entry : TimeoutData) : Bool :=
  entry.delete_pid ≤ 0 && entry.time_to_block.toInt < now - entry.time_of_addition

/-- `ExecdTimeoutLaunchDeletes`, with the entries that it starts "delete" for. -/
def execdTimeoutLaunchDeletes (now : ℤ) :
    List TimeoutData → Processes → Option (List TimeoutData × List TimeoutData × Processes)
  | [], procs => some ([], [], procs)
  | entry :: rest, procs =>
    if isDue now entry then
      (execCmd entry.command procs).bind fun (pid, procs) =>
        let entry := { entry with delete_pid := pid }
        (execdTimeoutLaunchDeletes now rest procs).map fun (started, rest, procs) =>
          (entry :: started, entry :: rest, procs)
    else
      (execdTimeoutLaunchDeletes now rest procs).map fun (started, rest, procs) =>
        (started, entry :: rest, procs)

/-! ## The daemon -/

/-- A request that waits in `ExecdTimeoutDupCheck`. -/
structure Waiting where
  command : Bytes
  args : List Bytes
  timeout_value : Int32
  curr_time : ℤ
  delete_pid : ℤ

structure State where
  config : List ExecConfig
  timeout_list : List TimeoutData := []
  repeated_hash : Option RepeatedHash
  childcount : ℕ := 0
  /-- What the kernel knows: it is not the daemon's. -/
  children : List Child := []
  waiting : Option Waiting := none

/-- The state in front of the main loop. -/
def init (repeated_offenders_timeout : List Int32) (config : List ExecConfig) : State where
  config := config
  repeated_hash := if repeated_offenders_timeout.headD 0 ≠ 0 then some fun _ => none else none

inductive Input
  /-- A child exits. -/
  | exit (pid : ℤ)
  /-- The main loop cleans up a child. -/
  | reap (pid : ℤ)
  /-- The main loop looks at the clock. -/
  | tick (now : ℤ) (forks : List ℤ)
  /-- A message, with what is in `ar.conf` should it be read again. -/
  | message (buffer : Bytes) (now : ℤ) (reload : List ExecConfig) (forks : List ℤ)
  /-- The `waitpid` of `ExecdTimeoutDupCheck` returns. -/
  | resume (forks : List ℤ)

inductive Event
  /-- A complete request is looked for on the list. -/
  | request (timeout_args : List Bytes) (now : ℤ)
  /-- The request has started a block or extended one, for this time. -/
  | blocks (timeout_args : List Bytes) (time_to_block : Int32)
  /-- The command of a request is run, whose timeout is configured so. -/
  | add (cmd : List Bytes) (timeout_value : Int32)
  /-- The command of an entry that has timed out is run. -/
  | delete (cmd : List Bytes) (now : ℤ)
  | reaped (pid : ℤ)
  deriving DecidableEq, Repr

/-- `ExecdStart` for a command that is to be executed. -/
def State.execute (s : State) (repeated_offenders_timeout : List Int32) (command : Bytes)
    (args : List Bytes) (timeout_value : Int32) (curr_time : ℤ) (forks : List ℤ) :
    Option (List Event × State) :=
  (execCmd (cmdArgs command args) { children := s.children, forks }).bind fun (_, procs) =>
    let s := { s with children := procs.children, childcount := s.childcount + 1 }
    let run := Event.add (cmdArgs command args) timeout_value
    let listed (timeout_value : Int32) (hash : Option RepeatedHash) : List Event × State :=
      ([run, .blocks (timeoutArgs command args) timeout_value],
        { s with
          repeated_hash := hash
          timeout_list := s.timeout_list ++
            [{ command := timeoutArgs command args
               time_of_addition := curr_time
               time_to_block := timeout_value }] })
    if timeout_value = 0 then some ([run], s)
    else
      match s.repeated_hash with
      | none => some (listed timeout_value none)
      | some hash =>
        let rkey := rkey command (args.getD 0 []) (args.getD 1 [])
        match hash rkey with
        | none => some (listed timeout_value (some (hash.store rkey (some (lit "0")))))
        | some ntimes =>
          (offenderTimeout repeated_offenders_timeout ntimes).map fun (timeout, stored) =>
            listed timeout (some (hash.store rkey stored))

/-- `ExecdStart` for a message whose command is known. -/
def State.request (s : State) (repeated_offenders_timeout : List Int32) (command : Bytes)
    (args : List Bytes) (timeout_value : Int32) (curr_time : ℤ) (forks : List ℤ) :
    Option (List Event × State) :=
  let asked := Event.request (timeoutArgs command args) curr_time
  (execdTimeoutDupCheck repeated_offenders_timeout s.timeout_list (timeoutArgs command args)
      curr_time s.repeated_hash).bind fun
    | .incomplete => some ([], s)
    | .renewed entry timeout_list repeated_hash =>
      some ([asked, .blocks (timeoutArgs command args) entry.time_to_block],
        { s with timeout_list, repeated_hash })
    | .waits delete_pid =>
      some ([asked], { s with
        waiting := some { command, args, timeout_value, curr_time, delete_pid } })
    | .absent =>
      (s.execute repeated_offenders_timeout command args timeout_value curr_time forks).map
        fun (events, s) => (asked :: events, s)

/-- `ExecdStart` for a message. -/
def State.message (s : State) (inet : Inet) (repeated_offenders_timeout : List Int32)
    (buffer : Bytes) (now : ℤ) (reload : List ExecConfig) (forks : List ℤ) :
    Option (List Event × State) :=
  match cutAt (chr ' ') (removeControlCharacters (str buffer)) with
  | none => some ([], s)
  | some (name, tmp_msg) =>
    let s := if getCommandbyName s.config name = none then { s with config := reload } else s
    match getCommandbyName s.config name with
    | none => some ([], s)
    | some exec =>
      if exec.exec_cmd = [] then some ([], s)
      else
        s.request repeated_offenders_timeout exec.exec_cmd (requestArguments inet tmp_msg)
          exec.exec_timeout now forks

/-- What is done for an input; there is nothing if it cannot come or the array is left. -/
def State.step (inet : Inet) (repeated_offenders_timeout : List Int32) (s : State) :
    Input → Option (List Event × State)
  | .exit pid =>
    some ([], { s with
      children := s.children.map fun child =>
        if child.pid = pid then { child with exited := true } else child })
  | .reap pid =>
    match s.waiting with
    | some _ => none
    | none =>
      if s.childcount ≠ 0 ∧ ∃ child ∈ s.children, child.pid = pid ∧ child.exited then
        some ([.reaped pid], { s with
          children := s.children.filter fun child => child.pid ≠ pid
          childcount := s.childcount - 1
          timeout_list := execdTimeoutReapDelete s.timeout_list pid })
      else none
  | .tick now forks =>
    match s.waiting with
    | some _ => none
    | none =>
      (execdTimeoutLaunchDeletes now s.timeout_list { children := s.children, forks }).map
        fun (started, timeout_list, procs) =>
          (started.map fun entry => .delete entry.command now, { s with
            timeout_list
            children := procs.children
            childcount := s.childcount + started.length })
  | .message buffer now reload forks =>
    match s.waiting with
    | some _ => none
    | none => s.message inet repeated_offenders_timeout buffer now reload forks
  | .resume forks =>
    s.waiting.bind fun w =>
      -- `waitpid` fails for a child that is not there
      let got := s.children.any fun child => child.pid = w.delete_pid
      if got ∧ ¬∃ child ∈ s.children, child.pid = w.delete_pid ∧ child.exited then none
      else
        let list := (splitFirst (isDuplicate (timeoutArgs w.command w.args)) s.timeout_list).elim
          s.timeout_list fun (front, _, back) => front ++ back
        let s := { s with
          children := s.children.filter fun child => child.pid ≠ w.delete_pid
          childcount := if got then s.childcount - 1 else s.childcount
          timeout_list := list
          waiting := none }
        (s.execute repeated_offenders_timeout w.command w.args w.timeout_value w.curr_time
          forks).map fun (events, s) => (if got then .reaped w.delete_pid :: events else events, s)

def Step (inet : Inet) (repeated_offenders_timeout : List Int32) (s : State)
    (l : Input × List Event) (s' : State) : Prop :=
  s.step inet repeated_offenders_timeout l.1 = some (l.2, s')

/-- The daemon over a list of inputs, with all its events. -/
def State.runs (inet : Inet) (repeated_offenders_timeout : List Int32) :
    State → List Input → Option (List Event × State)
  | s, [] => some ([], s)
  | s, input :: inputs =>
    (s.step inet repeated_offenders_timeout input).bind fun (new, s) =>
      (s.runs inet repeated_offenders_timeout inputs).map fun (rest, s) => (new ++ rest, s)

end Execd
