import OssecHids.Analysisd.RuleInfo
import OssecHids.Lib.Escape
import OssecHids.Lib.Words

/-!
# Sending an active response

`OS_Exec` writes a request from an event and an active response, for the execution daemon of this
host or for the remote daemon.

- `osShellEscape`: a backslash in front of what a shell acts on;
- `osARFormatRemoteHdr`: where the remote daemon is to send a request;
- `osExec`: the request, and the daemon it goes to.
-/

open CString Words List Option

/-- A C string: the zero byte at its end is not written. -/
abbrev CStr := { s : Bytes // 0 ∉ s }

/-- `OS_SIZE_1024` -/
def OS_SIZE_1024 : ℕ := 1024

namespace Exec

def ALL_AGENTS : ℕ := 0o01
def REMOTE_AGENT : ℕ := 0o02
def SPECIFIC_AGENT : ℕ := 0o04
def AS_ONLY : ℕ := 0o10

def ALL_AGENTS_C : UInt8 := chr 'A'
def REMOTE_AGENT_C : UInt8 := chr 'R'
def SPECIFIC_AGENT_C : UInt8 := chr 'S'
def NONE_C : UInt8 := chr 'N'
def NO_AR_C : UInt8 := chr '!'

def REMOTE_AR : ℕ := 0o01
def LOCAL_AR : ℕ := 0o02

def USERNAME : ℕ := 0o01
def SRCIP : ℕ := 0o04
def FILENAME : ℕ := 0o10

/-! ## Arguments -/

/-- A user name that is there, and is not the placeholder. -/
def isUsername (user : CStr) : Bool := user.1 != [] && user.1 != lit "-"

/-- `ar_pick_username` -/
def arPickUsername (dstuser srcuser : Option CStr) : Option CStr :=
  match dstuser.filter isUsername with
  | some dstuser => some dstuser
  | none => srcuser.filter isUsername

/-- A character that `ar_safe_argument` lets pass. -/
def isSafe (c : UInt8) : Bool :=
  isDigit c || (chr 'A' ≤ c && c ≤ chr 'Z') || (chr 'a' ≤ c && c ≤ chr 'z') ||
    (lit ".:-_@").contains c

/-- `ar_safe_argument` -/
def arSafeArgument (value : Bytes) : Bool :=
  value != [] && value.headD 0 != chr '-' && value != lit "." && value != lit ".." &&
    value.all isSafe

/-- `shell_escapes` -/
def shell_escapes : Bytes := lit "\\\"' \t;`><|#*[]\x7b\x7d&$!:()"

/-- `strchr(shell_escapes, c)`: there is no zero byte at the end of the array, and what is on the
`stack` behind it is searched, too. -/
def isShellEscape (stack : Bytes) (c : UInt8) : Bool := (shell_escapes ++ str stack).contains c

/-- `os_shell_escape` -/
def osShellEscape (stack src : Bytes) : Bytes :=
  Escape.escape (chr '\\') (isShellEscape stack) src

/-! ## Records -/

/-- An active response; `expect` is that of its command. -/
structure ActiveResponse where
  name : CStr
  location : ℕ
  agent_id : Option CStr
  expect : ℕ

/-- The members of an event that a request is written from; `sigid` is that of its rule. -/
structure Eventinfo where
  srcip : Option CStr
  dstuser : Option CStr
  srcuser : Option CStr
  filename : Option CStr
  location : CStr
  time : ℤ
  alert_id : ℤ
  sigid : ℤ

/-- The members of `Config` that are read, and the position in the log of alerts. -/
structure Config where
  ar : ℕ
  /-- `OS_IPFoundList` in `Config.allow_list`. -/
  allow_list : Bytes → Bool
  hostname_allow_list : List CStr
  crt_ftell : ℤ

/-- A request that has been sent, and whether its location and file name were left out. -/
inductive Request
  | execq (exec_msg : Bytes) (truncated : Bool)
  | arq (exec_msg : Bytes) (truncated : Bool)
  deriving DecidableEq, Repr

/-! ## Requests -/

/-- The address of an event, without the prefix of a mapped one. -/
def cleanIp (srcip : Bytes) : Bytes :=
  if strncmpEq 7 srcip (lit "::ffff:") then srcip.drop 7 else srcip

/-- The address of a request; without one the response is not executed. -/
def Config.ip (config : Config) (lf : Eventinfo) (ar : ActiveResponse) : Option Bytes :=
  match lf.srcip with
  | none => some (lit "-")
  | some srcip =>
    if !hasFlag ar.expect SRCIP then some (lit "-")
    else if !arSafeArgument (cleanIp srcip.1) then none
    else if config.allow_list (cleanIp srcip.1) then none
    else if config.hostname_allow_list.any fun wl =>
      strncmpEq (cleanIp srcip.1).length wl.1 (cleanIp srcip.1) then none
    else some (cleanIp srcip.1)

/-- The user of a request. -/
def Eventinfo.user (lf : Eventinfo) (ar : ActiveResponse) : Bytes :=
  if hasFlag ar.expect USERNAME then
    match arPickUsername lf.dstuser lf.srcuser with
    | none => lit "-"
    | some uname => if arSafeArgument uname.1 then uname.1 else lit "-"
  else lit "-"

/-- The file name of a request, if one is expected. -/
def Eventinfo.file (lf : Eventinfo) (ar : ActiveResponse) : Option CStr :=
  if hasFlag ar.expect FILENAME then lf.filename else none

/-- The position of the alert in the log. -/
def Config.alertId (config : Config) (lf : Eventinfo) : ℤ :=
  if lf.alert_id ≠ 0 then lf.alert_id else config.crt_ftell

/-- The conversion `%ld.%ld`. -/
def timeId (time alert_id : ℤ) : Bytes := fmtD time ++ chr '.' :: fmtD alert_id

/-- The command of a request, `%s %s %s %ld.%ld %d %s %s`. -/
def command (name user ip time_id sigid location filename : Bytes) : Bytes :=
  [chr ' '].intercalate [name, user, ip, time_id, sigid, location, filename]

/-- The two calls of `snprintf`: a text that does not fit is written with placeholders. -/
def execMsg (text : Bytes → Bytes → Bytes) (location filename : Bytes) : Option (Bytes × Bool) :=
  if (text location filename).length < OS_SIZE_1024 then some (text location filename, false)
  else if (text (lit "-") (lit "-")).length < OS_SIZE_1024 then
    some (text (lit "-") (lit "-"), true)
  else none

/-- `AR_REMOTE_HDR_BUFSZ` -/
def AR_REMOTE_HDR_BUFSZ : ℕ := 1025

/-- `OS_AR_FormatRemoteHdr` -/
def osARFormatRemoteHdr (location : Bytes) (f_all f_remote f_specific : UInt8) : Option Bytes :=
  let source :=
    if location.headD 0 = chr '(' then
      (strstr (lit "->") location).map fun source_end =>
        location.take (ptrDiff source_end location)
    else some (lit "(local_source) []")
  source.bind fun source =>
    let buf := source ++ [chr ' ', f_all, f_remote, f_specific]
    if buf.length ≥ AR_REMOTE_HDR_BUFSZ then none else some buf

/-- The header of a request for the remote daemon. -/
def ActiveResponse.hdr (ar : ActiveResponse) (location : Bytes) : Option Bytes :=
  osARFormatRemoteHdr location
    (if hasFlag ar.location ALL_AGENTS then ALL_AGENTS_C else NONE_C)
    (if hasFlag ar.location REMOTE_AGENT then REMOTE_AGENT_C else NONE_C)
    (if hasFlag ar.location SPECIFIC_AGENT then SPECIFIC_AGENT_C else NONE_C)

/-- The agent id of a request; a missing one is printed, too. -/
def ActiveResponse.agentId (ar : ActiveResponse) : Bytes :=
  match ar.agent_id with
  | none => lit "(null)"
  | some agent_id => agent_id.1

/-- The command that is sent for an event, with a location and a file name. -/
def Config.text (config : Config) (lf : Eventinfo) (ar : ActiveResponse) (ip : Bytes)
    (location filename : Bytes) : Bytes :=
  command ar.name.1 (lf.user ar) ip (timeId lf.time (config.alertId lf)) (fmtD lf.sigid) location
    filename

/-- The text for the name of a file in a request. -/
def Eventinfo.fileText (stack : Bytes) (lf : Eventinfo) (ar : ActiveResponse) : Bytes :=
  match lf.file ar with
  | none => lit "-"
  | some filename => osShellEscape stack filename.1

/-- `OS_Exec` -/
def osExec (stack : Bytes) (config : Config) (lf : Eventinfo) (ar : ActiveResponse) :
    Option Request :=
  match config.ip lf ar with
  | none => none
  | some ip =>
    if (lf.file ar).isSome ∧ lf.location.1.getLast? = some (chr '\\') then none
    else
      let filename := lf.fileText stack ar
      if hasFlag ar.location AS_ONLY ∨
          (hasFlag ar.location REMOTE_AGENT ∧ lf.location.1.headD 0 ≠ chr '(') then
        if !hasFlag config.ar LOCAL_AR then none
        else
          (execMsg (config.text lf ar ip) lf.location.1 filename).map fun (exec_msg, truncated) =>
            .execq exec_msg truncated
      else if hasFlag config.ar REMOTE_AR then
        (ar.hdr lf.location.1).bind fun ar_hdr =>
          let text := fun location filename =>
            [chr ' '].intercalate [ar_hdr, ar.agentId, config.text lf ar ip location filename]
          (execMsg text lf.location.1 filename).map fun (exec_msg, truncated) =>
            .arq exec_msg truncated
      else none

/-- The command of a request, without what was left out. -/
def Config.request (config : Config) (stack : Bytes) (lf : Eventinfo) (ar : ActiveResponse)
    (ip : Bytes) (truncated : Bool) : Bytes :=
  if truncated then config.text lf ar ip (lit "-") (lit "-")
  else config.text lf ar ip lf.location.1 (lf.fileText stack ar)

theorem execMsg_eq_some {text : Bytes → Bytes → Bytes} {location filename exec_msg : Bytes}
    {truncated : Bool} (h : execMsg text location filename = some (exec_msg, truncated)) :
    exec_msg.length < OS_SIZE_1024 ∧
      exec_msg = if truncated then text (lit "-") (lit "-") else text location filename := by
  rw [execMsg] at h
  split_ifs at h with hfits hshort
  · cases h
    exact ⟨hfits, rfl⟩
  · cases h
    exact ⟨hshort, rfl⟩

/-! ## What is safe -/

theorem isSafe_of_arSafeArgument {value : Bytes} (h : arSafeArgument value) :
    ∀ c ∈ value, isSafe c := by
  rw [arSafeArgument, Bool.and_eq_true] at h
  exact all_eq_true.mp h.2

theorem isSafe_ip {config : Config} {lf : Eventinfo} {ar : ActiveResponse} {ip : Bytes}
    (h : config.ip lf ar = some ip) : ∀ c ∈ ip, isSafe c := by
  have hplaceholder : ∀ c ∈ lit "-", isSafe c := forall_mem_of_all (by decide)
  rw [Config.ip] at h
  split at h
  · exact some.inj h ▸ hplaceholder
  · split_ifs at h with _ hsafe
    · exact some.inj h ▸ hplaceholder
    · exact some.inj h ▸ isSafe_of_arSafeArgument (by simpa using hsafe)

theorem isSafe_user (lf : Eventinfo) (ar : ActiveResponse) : ∀ c ∈ lf.user ar, isSafe c := by
  have hplaceholder : ∀ c ∈ lit "-", isSafe c := forall_mem_of_all (by decide)
  rw [Eventinfo.user]
  split_ifs
  · split
    · exact hplaceholder
    · split_ifs with hsafe
      · exact isSafe_of_arSafeArgument hsafe
      · exact hplaceholder
  · exact hplaceholder

theorem ne_zero_of_isSafe {s : Bytes} (h : ∀ c ∈ s, isSafe c) : ∀ b ∈ s, b ≠ 0 := fun b hb hzero =>
  absurd (h b hb) (by rw [hzero]; decide)

theorem ne_zero_osShellEscape {stack s : Bytes} (h : 0 ∉ s) : ∀ b ∈ osShellEscape stack s, b ≠ 0 := by
  intro b hb
  obtain ⟨c, hc, hb⟩ := mem_flatMap.mp hb
  have hne : c ≠ 0 := fun hzero => h (hzero ▸ hc)
  split_ifs at hb
  · rcases mem_cons.mp hb with rfl | hb
    · decide
    · rwa [mem_singleton.mp hb]
  · rwa [mem_singleton.mp hb]

/-- A command is a C string. -/
theorem ne_zero_text {config : Config} {lf : Eventinfo} {ar : ActiveResponse}
    {ip location filename : Bytes} (hip : config.ip lf ar = some ip)
    (hlocation : ∀ b ∈ location, b ≠ 0) (hfilename : ∀ b ∈ filename, b ≠ 0) :
    ∀ b ∈ config.text lf ar ip location filename, b ≠ 0 := by
  refine forall_mem_intercalate (by decide) ?_
  simp only [forall_mem_cons]
  refine ⟨fun b hb hzero => ar.name.2 (hzero ▸ hb), ne_zero_of_isSafe (isSafe_user lf ar),
    ne_zero_of_isSafe (isSafe_ip hip), ?_, ne_zero_fmtD _, hlocation, hfilename,
    fun _ h => absurd h not_mem_nil⟩
  intro b hb
  rcases mem_append.mp hb with hb | hb
  · exact ne_zero_fmtD _ b hb
  · rcases mem_cons.mp hb with rfl | hb
    · decide
    · exact ne_zero_fmtD _ b hb

theorem ne_zero_request {config : Config} {lf : Eventinfo} {ar : ActiveResponse} {ip : Bytes}
    (stack : Bytes) (truncated : Bool) (hip : config.ip lf ar = some ip) :
    ∀ b ∈ config.request stack lf ar ip truncated, b ≠ 0 := by
  have hplaceholder : ∀ b ∈ lit "-", b ≠ 0 := forall_mem_of_all (by decide)
  rw [Config.request]
  split_ifs
  · exact ne_zero_text hip hplaceholder hplaceholder
  · refine ne_zero_text hip (fun b hb hzero => lf.location.2 (hzero ▸ hb)) ?_
    rw [Eventinfo.fileText]
    split
    case h_1 => exact hplaceholder
    case h_2 filename _ => exact ne_zero_osShellEscape filename.2

end Exec
