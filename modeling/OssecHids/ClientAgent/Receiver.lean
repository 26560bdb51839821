import OssecHids.Lib.CString

/-!
# The messages of the server

`receive_msg` tells commands from the content of a file by the first three bytes of a message.

- `isValidHeader`: what is a command;
- `receiveMsg`: what the agent does with one message;
- `receiveMsg_content`: what is no command is written to the file that is open.
-/

open CString List

namespace ClientAgent

def CONTROL_HEADER : Bytes := lit "#!-"

def EXECD_HEADER : Bytes := lit "execd "

def FILE_UPDATE_HEADER : Bytes := lit "up file "

def FILE_CLOSE_HEADER : Bytes := lit "close file "

def HC_SK_RESTART : Bytes := lit "syscheck restart"

def HC_ACK : Bytes := lit "agent ack "

def SHAREDCFG_DIR : Bytes := lit "/etc/shared"

def SHAREDCFG_FILENAME : Bytes := lit "merged.mg"

def OS_SIZE_1024 : ℕ := 1024

/-- What the agent finds on its host: whether `execd` listens, whether a file can be opened for
writing, and the MD5 of its bytes. -/
structure Host where
  execdq : Bool
  fopen : Bytes → Bool
  md5 : Bytes → Bytes

/-- The state between two messages. -/
structure Agent where
  /-- The path of the file that is being written. -/
  fp : Option Bytes
  file_sum : Bytes
  file : Bytes
  /-- The files of the host. -/
  disk : Bytes → Option Bytes

/-- What the agent does besides writing the file. -/
inductive Action
  /-- An active response is handed to `execd`. -/
  | execd (cmd : Bytes)
  | restartSyscheck
  /-- `UnmergeFiles` is called. -/
  | unmergeFiles (path : Bytes)
  deriving DecidableEq, Repr

/-- `IsValidHeader` -/
def isValidHeader (s : Bytes) : Bool := CONTROL_HEADER.isPrefixOf s

/-- The name of a file, as the agent writes it: up to the newline, without slashes and without a
leading dot. -/
def cleanName (t : Bytes) : Bytes :=
  let name := (t.takeWhile (· != chr '\n')).map fun b => if b = chr '/' then chr '-' else b
  if name.head? = some (chr '.') then chr '-' :: name.tail else name

/-- The path of a file of the server. -/
def sharedFile (name : Bytes) : Bytes :=
  snprintf OS_SIZE_1024 (SHAREDCFG_DIR ++ chr '/' :: cleanName name)

/-- What follows the last `/`. -/
def baseName (path : Bytes) : Option Bytes :=
  if chr '/' ∈ path then some (path.reverse.takeWhile (· != chr '/')).reverse else none

variable (host : Host) (a : Agent)

/-- The file update message. -/
def fileUpdate (tmp_msg : Bytes) : Agent :=
  match strchr (chr ' ') tmp_msg with
  | none => a
  | some validate_file =>
    let file_sum := strncpy 33 (tmp_msg.take (ptrDiff validate_file tmp_msg))
    let file := sharedFile validate_file.tail
    if host.fopen file then
      { fp := some file, file_sum, file, disk := Function.update a.disk file (some []) }
    else { a with fp := none, file_sum, file }

/-- The file is complete: it is kept if it has the MD5 that was announced. -/
def fileClose : Agent × List Action :=
  if a.file = [] then (a, [])
  else
    match a.disk a.file with
    | none => ({ a with file := [] }, [])
    | some content =>
      if host.md5 content ≠ a.file_sum then
        ({ a with disk := Function.update a.disk a.file none, file := [] }, [])
      else
        match baseName a.file with
        | some name =>
          ({ a with file := [] }, if name = SHAREDCFG_FILENAME then [.unmergeFiles a.file] else [])
        | none => ({ a with disk := Function.update a.disk a.file none, file := [] }, [])

/-- `receive_msg` for a message. -/
def receiveMsg (tmp_msg : Bytes) : Agent × List Action :=
  if isValidHeader tmp_msg then
    let tmp_msg := tmp_msg.drop CONTROL_HEADER.length
    if EXECD_HEADER.isPrefixOf tmp_msg then
      (a, if host.execdq then [.execd (tmp_msg.drop EXECD_HEADER.length)] else [])
    else if tmp_msg = HC_SK_RESTART then (a, [.restartSyscheck])
    else if tmp_msg = HC_ACK then (a, [])
    else
      -- a file that is being written is closed by every other command
      let a := { a with fp := none }
      if FILE_UPDATE_HEADER.isPrefixOf tmp_msg then
        (fileUpdate host a (tmp_msg.drop FILE_UPDATE_HEADER.length), [])
      else if FILE_CLOSE_HEADER.isPrefixOf tmp_msg then fileClose host a
      else (a, [])
  else
    match a.fp with
    | some path =>
      ({ a with disk := Function.update a.disk path (some ((a.disk path).getD [] ++ tmp_msg)) }, [])
    | none => (a, [])

/-- Messages in their order. -/
def receive : Agent → List Bytes → Agent × List Action
  | a, [] => (a, [])
  | a, m :: msgs =>
    let (a, done) := receiveMsg host a m
    let (a, done') := receive a msgs
    (a, done ++ done')

variable {host a}

theorem receive_append (l₁ l₂ : List Bytes) :
    receive host a (l₁ ++ l₂) =
      ((receive host (receive host a l₁).1 l₂).1,
        (receive host a l₁).2 ++ (receive host (receive host a l₁).1 l₂).2) := by
  induction l₁ generalizing a with
  | nil => rfl
  | cons m l₁ ih =>
    simp only [cons_append, receive, ih, append_assoc]

/-! ## The messages of a file -/

theorem receiveMsg_content {m path : Bytes} (hm : isValidHeader m = false)
    (hfp : a.fp = some path) :
    receiveMsg host a m =
      ({ a with disk := Function.update a.disk path (some ((a.disk path).getD [] ++ m)) }, []) := by
  rw [receiveMsg.eq_def, if_neg (by rw [hm]; exact Bool.false_ne_true), hfp]

theorem receiveMsg_ignored {m : Bytes} (hm : isValidHeader m = false) (hfp : a.fp = none) :
    receiveMsg host a m = (a, []) := by
  rw [receiveMsg.eq_def, if_neg (by rw [hm]; exact Bool.false_ne_true), hfp]

/-- The content that was written, message after message. -/
theorem receive_content {msgs : List Bytes} {path content : Bytes}
    (hmsgs : ∀ m ∈ msgs, isValidHeader m = false) (hfp : a.fp = some path)
    (hcontent : a.disk path = some content) :
    receive host a msgs =
      ({ a with disk := Function.update a.disk path (some (content ++ msgs.flatten)) }, []) := by
  induction msgs generalizing a content with
  | nil =>
    rw [receive, flatten_nil, append_nil, ← hcontent, Function.update_eq_self]
  | cons m msgs ih =>
    have hm := hmsgs m mem_cons_self
    rw [receive, receiveMsg_content hm hfp, hcontent, Option.getD_some]
    dsimp only
    have hrest := @ih { a with disk := Function.update a.disk path (some (content ++ m)) }
      (content ++ m) (fun x hx => hmsgs x (mem_cons_of_mem _ hx)) hfp
      (Function.update_self ..)
    rw [hrest, flatten_cons, append_assoc]
    rw [Function.update_idem, append_nil]

theorem receive_ignored {msgs : List Bytes} (hmsgs : ∀ m ∈ msgs, isValidHeader m = false)
    (hfp : a.fp = none) : receive host a msgs = (a, []) := by
  induction msgs with
  | nil => rfl
  | cons m msgs ih =>
    rw [receive, receiveMsg_ignored (hmsgs m mem_cons_self) hfp]
    dsimp only
    rw [ih fun x hx => hmsgs x (mem_cons_of_mem _ hx)]
    rfl

theorem isValidHeader_append (t : Bytes) : isValidHeader (CONTROL_HEADER ++ t) = true := by
  rw [isValidHeader, List.isPrefixOf_iff_prefix]
  exact prefix_append ..

theorem receiveMsg_fileUpdate (t : Bytes) :
    receiveMsg host a (CONTROL_HEADER ++ (FILE_UPDATE_HEADER ++ t)) =
      (fileUpdate host { a with fp := none } t, []) := by
  have hupdate : FILE_UPDATE_HEADER.isPrefixOf (FILE_UPDATE_HEADER ++ t) = true :=
    List.isPrefixOf_iff_prefix.mpr (prefix_append ..)
  have hexecd : EXECD_HEADER.isPrefixOf (FILE_UPDATE_HEADER ++ t) = false := rfl
  have hrestart : FILE_UPDATE_HEADER ++ t ≠ HC_SK_RESTART := by
    intro h
    exact absurd (congrArg List.head? h) (show some (chr 'u') ≠ some (chr 's') by decide)
  have hack : FILE_UPDATE_HEADER ++ t ≠ HC_ACK := by
    intro h
    exact absurd (congrArg List.head? h) (show some (chr 'u') ≠ some (chr 'a') by decide)
  rw [receiveMsg.eq_def, if_pos (isValidHeader_append _)]
  rw [drop_left, if_neg (by rw [hexecd]; exact Bool.false_ne_true), if_neg hrestart,
    if_neg hack, if_pos hupdate, drop_left]

theorem receiveMsg_fileClose :
    receiveMsg host a (CONTROL_HEADER ++ FILE_CLOSE_HEADER) =
      fileClose host { a with fp := none } := by
  rw [receiveMsg.eq_def, if_pos (isValidHeader_append _)]
  rfl

end ClientAgent
