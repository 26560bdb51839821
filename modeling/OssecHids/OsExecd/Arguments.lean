import OssecHids.Analysisd.Exec
import OssecHids.OsExecd.Request

/-!
# The arguments of a request

`OS_Exec` puts a backslash in front of what a shell acts on in a file name, the execution daemon
drops the control characters of a request and splits it at the blanks without a backslash. A tab
has a backslash, which stays behind when the tab is dropped.

- `Returns`: the arguments of a request are what it was written from;
- `arguments_law`: when that is so;
- `not_returns_tab`: a tab in front of a blank makes one argument more.
-/

open CString Escape Words Exec List Option

namespace Execd

/-- The arguments of a request are what it was written from, its address in one spelling; the last
one is the name of the file, with backslashes and without control characters. -/
def Returns (inet : Inet) (exec_msg name user ip time_id sigid location filename : Bytes) : Prop :=
  ∃ tmp_msg file,
    cutAt (chr ' ') (removeControlCharacters (str exec_msg)) =
      some (removeControlCharacters name, tmp_msg) ∧
    requestArguments inet tmp_msg =
      [user, (canonicalIP inet ip).getD ip, time_id, sigid, location, file] ∧
    unescape (chr '\\') file = removeControlCharacters filename

/-- A text that neither daemon changes, and that is not split. -/
def Plain (s : Bytes) : Prop := ∀ b ∈ s, b ≠ chr ' ' ∧ b ≠ chr '\\' ∧ isControlCharacter b = false

variable {s : Bytes} {b : UInt8}

theorem Plain.removeControlCharacters (h : Plain s) : removeControlCharacters s = s :=
  filter_eq_self.mpr fun b hb => by rw [(h b hb).2.2, Bool.not_false]

theorem Plain.isProtected (h : Plain s) : Protected (chr '\\') (chr ' ') s :=
  .of_notMem (fun hmem => (h _ hmem).2.1 rfl) fun hmem => (h _ hmem).1 rfl

theorem Plain.ne_zero (h : Plain s) : ∀ b ∈ s, b ≠ 0 := fun b hb hzero =>
  absurd (h b hb).2.2 (by rw [hzero]; decide)

theorem plain_of_isSafe (h : ∀ c ∈ s, isSafe c) : Plain s := by
  intro b hb
  have hsafe := h b hb
  refine ⟨?_, ?_, ?_⟩
  · rintro rfl
    cases hsafe
  · rintro rfl
    cases hsafe
  · by_contra hcontrol
    rw [Bool.not_eq_false, isControlCharacter, Bool.or_eq_true, decide_eq_true_eq,
      beq_iff_eq] at hcontrol
    rcases hcontrol with hle | rfl
    · -- each safe character is behind the control characters
      have hchr : chr 'A' = 65 ∧ chr 'a' = 97 ∧ lit ".:-_@" = [46, 58, 45, 95, 64] := by decide
      simp [isSafe, isDigit, hchr, UInt8.le_iff_toNat_le, ← UInt8.toNat_inj] at hsafe hle
      omega
    · cases hsafe

theorem plain_fmtD (i : ℤ) : Plain (fmtD i) := plain_of_isSafe fun c hc => by
  rcases mem_fmtD hc with rfl | hdigit
  · decide
  · simp [isSafe, hdigit]

theorem plain_timeId (time alert_id : ℤ) : Plain (timeId time alert_id) := by
  intro b hb
  rcases mem_append.mp hb with hb | hb
  · exact plain_fmtD time b hb
  · rcases mem_cons.mp hb with rfl | hb
    · exact ⟨by decide, by decide, by decide⟩
    · exact plain_fmtD alert_id b hb

theorem notMem_removeControlCharacters (hb : isControlCharacter b = false) :
    b ∉ removeControlCharacters s ↔ b ∉ s := by
  rw [removeControlCharacters, mem_filter, hb, Bool.not_false, and_iff_left rfl]

/-- What is left of an escaped file name when the control characters are dropped. -/
theorem removeControlCharacters_osShellEscape (stack s : Bytes) :
    removeControlCharacters (osShellEscape stack s) =
      residue (chr '\\') (isShellEscape stack) isControlCharacter false s :=
  (nil_append _).symm

/-- What `OS_Exec` puts a backslash in front of, and the backslash itself. -/
theorem isShellEscape_of_mem {stack : Bytes} (h : b ∈ shell_escapes) : isShellEscape stack b := by
  rw [isShellEscape, contains_iff_mem]
  exact mem_append_left _ h

theorem argumentsLoop_command {user ip time_id sigid location : Bytes} (huser : Plain user)
    (hip : Plain ip) (htime : Plain time_id) (hsigid : Plain sigid) (hlocation : Plain location)
    (file : Bytes) :
    argumentsLoop (MAX_ARGS - 1 - 2)
        ([chr ' '].intercalate [user, ip, time_id, sigid, location, file]) =
      [user, ip, time_id, sigid, location] ++ argumentsLoop 24 file := by
  have hargs : ∀ arg ∈ [user, ip, time_id, sigid, location], Protected (chr '\\') (chr ' ') arg := by
    simp only [forall_mem_cons]
    exact ⟨huser.isProtected, hip.isProtected, htime.isProtected, hsigid.isProtected,
      hlocation.isProtected, fun _ h => absurd h not_mem_nil⟩
  change argumentsLoop ([user, ip, time_id, sigid, location].length + 24)
    ([chr ' '].intercalate ([user, ip, time_id, sigid, location] ++ [file])) = _
  exact argumentsLoop_intercalate hargs

/-- When the arguments of a request are what it was written from. -/
theorem returns_command_iff {name user ip time_id sigid location filename : Bytes}
    (inet : Inet) (stack : Bytes) (hname : 0 ∉ name) (huser : Plain user) (hip : Plain ip)
    (htime : Plain time_id) (hsigid : Plain sigid) (hlocation : Plain location)
    (hfilename : 0 ∉ filename) :
    Returns inet (command name user ip time_id sigid location (osShellEscape stack filename)) name
        user ip time_id sigid location filename ↔
      chr ' ' ∉ name ∧
      Settles (chr '\\') (isShellEscape stack) isControlCharacter false filename := by
  have hescape : isShellEscape stack (chr '\\') := isShellEscape_of_mem (by decide)
  have hblank : isShellEscape stack (chr ' ') := isShellEscape_of_mem (by decide)
  have hdrop : isControlCharacter (chr '\\') = false := by decide
  have hback := unescape_residue_iff (s := filename) hescape hdrop
  rw [← removeControlCharacters_osShellEscape, ← removeControlCharacters.eq_def] at hback
  -- the request as the other daemon sees it
  have hmsg : removeControlCharacters (str (command name user ip time_id sigid location
      (osShellEscape stack filename))) =
      removeControlCharacters name ++ chr ' ' :: [chr ' '].intercalate [user, ip, time_id, sigid,
        location, removeControlCharacters (osShellEscape stack filename)] := by
    rw [str_eq_self, command, removeControlCharacters, filter_intercalate (by decide)]
    · simp only [map_cons, map_nil, ← removeControlCharacters.eq_def,
        huser.removeControlCharacters, hip.removeControlCharacters, htime.removeControlCharacters,
        hsigid.removeControlCharacters, hlocation.removeControlCharacters]
      rw [intercalate_cons_of_ne_nil (cons_ne_nil _ _), append_assoc, singleton_append]
    · refine forall_mem_intercalate (by decide) ?_
      simp only [forall_mem_cons]
      exact ⟨fun b hb hzero => hname (hzero ▸ hb), huser.ne_zero, hip.ne_zero, htime.ne_zero,
        hsigid.ne_zero, hlocation.ne_zero, ne_zero_osShellEscape hfilename,
        fun _ h => absurd h not_mem_nil⟩
  rw [Returns, hmsg]
  constructor
  · rintro ⟨tmp_msg, file, hcut, hargs, hfile⟩
    obtain ⟨heq, hnot⟩ := exists_of_cutAt_eq_some hcut
    rw [notMem_removeControlCharacters (by decide)] at hnot
    obtain rfl := (List.cons.inj (append_cancel_left heq)).2
    rw [requestArguments, argumentsLoop_command huser hip htime hsigid hlocation] at hargs
    have hlast : argumentsLoop 24 (removeControlCharacters (osShellEscape stack filename)) =
        [file] := by simpa using hargs
    obtain ⟨-, rfl⟩ := argumentsLoop_eq_singleton.mp hlast
    exact ⟨hnot, hback.mp hfile⟩
  · rintro ⟨hnot, hsettles⟩
    have hprotected := protected_residue hescape hdrop hblank hsettles
    rw [← removeControlCharacters_osShellEscape] at hprotected
    refine ⟨_, _, cutAt_append ((notMem_removeControlCharacters (by decide)).mpr hnot) ?_, ?_,
      hback.mpr hsettles⟩
    · intro b hb hzero
      exact hname (hzero ▸ mem_of_mem_filter hb)
    · rw [requestArguments, argumentsLoop_command huser hip htime hsigid hlocation,
        argumentsLoop_eq_singleton.mpr ⟨osShellEscapeStrchr_eq_none hprotected, rfl⟩]
      rfl

/-- A request for this host that fits. -/
theorem osExec_eq_execq {stack : Bytes} {config : Config} {lf : Exec.Eventinfo} {ar : ActiveResponse}
    {exec_msg : Bytes} {filename : CStr} (hfile : lf.file ar = some filename)
    (hexec : osExec stack config lf ar = some (.execq exec_msg false)) :
    ∃ ip, config.ip lf ar = some ip ∧
      exec_msg = config.text lf ar ip lf.location.1 (osShellEscape stack filename.1) := by
  have htext : lf.fileText stack ar = osShellEscape stack filename.1 := by
    rw [Exec.Eventinfo.fileText, hfile]
  rw [osExec, htext] at hexec
  cases hip : config.ip lf ar with
  | none =>
    rw [hip] at hexec
    exact absurd hexec (some_ne_none _).symm
  | some ip =>
    rw [hip] at hexec
    split_ifs at hexec
    · obtain ⟨⟨msg, truncated⟩, hmsg, heq⟩ := map_eq_some_iff.mp hexec
      obtain ⟨rfl, rfl⟩ := Request.execq.inj heq
      exact ⟨ip, rfl, (execMsg_eq_some hmsg).2⟩
    · obtain ⟨ar_hdr, -, hexec⟩ := bind_eq_some_iff.mp hexec
      obtain ⟨_, -, heq⟩ := map_eq_some_iff.mp hexec
      cases heq

/-- The arguments of a request come back exactly when the name of the response has no blank and,
in the name of the file, each control character that gets a backslash is followed by backslashes
and then a character that gets none; the control characters that get none apart. -/
theorem arguments_law {inet : Inet} {stack : Bytes} {config : Config} {lf : Exec.Eventinfo}
    {ar : ActiveResponse} {exec_msg : Bytes} {filename : CStr}
    (hexec : osExec stack config lf ar = some (.execq exec_msg false))
    (hexpect : hasFlag ar.expect FILENAME) (hfile : lf.filename = some filename)
    (hlocation : Plain lf.location.1) :
    (∃ ip, config.ip lf ar = some ip ∧
        Returns inet exec_msg ar.name.1 (lf.user ar) ip (timeId lf.time (config.alertId lf))
          (fmtD lf.sigid) lf.location.1 filename.1) ↔
      chr ' ' ∉ ar.name.1 ∧
      Separate (chr '\\') (isShellEscape stack) isControlCharacter
        (kept (isShellEscape stack) isControlCharacter filename.1) := by
  have hlf : lf.file ar = some filename := by rw [Exec.Eventinfo.file, if_pos hexpect, hfile]
  obtain ⟨ip, hip, rfl⟩ := osExec_eq_execq hlf hexec
  have hiff := returns_command_iff inet stack ar.name.2
    (plain_of_isSafe (isSafe_user lf ar)) (plain_of_isSafe (isSafe_ip hip))
    (plain_timeId lf.time (config.alertId lf)) (plain_fmtD lf.sigid) hlocation filename.2
  rw [settles_iff (isShellEscape_of_mem (by decide)) (by decide)] at hiff
  rw [hip]
  simpa [Config.text] using hiff

/-- A response on this host that expects a file name. -/
def quarantine : ActiveResponse where
  name := ⟨lit "quarantine0", by decide⟩
  location := AS_ONLY
  agent_id := none
  expect := FILENAME

/-- An event about a file. -/
def fileEvent (filename : CStr) : Exec.Eventinfo where
  srcip := none
  dstuser := none
  srcuser := none
  filename := some filename
  location := ⟨lit "host->syscheck", by decide⟩
  time := 1700000000
  alert_id := 42
  sigid := 550

/-- A server that executes responses. -/
def localServer : Config where
  ar := LOCAL_AR
  allow_list _ := false
  hostname_allow_list := []
  crt_ftell := 0

/-- A library that knows no address. -/
def noInet : Inet where
  inet_pton _ := none
  inet_pton6 _ := none
  inet_ntop _ := []
  inet_ntop6 _ := []

/-- A blank and a tab in a file name. -/
theorem arguments_law_blank :
    let lf := fileEvent ⟨lit "a b;\tc", by decide⟩
    let exec_msg := lit "quarantine0 - - 1700000000.42 550 host->syscheck a\\ b\\;\\\tc"
    osExec [] localServer lf quarantine = some (.execq exec_msg false) ∧
    ((∃ ip, localServer.ip lf quarantine = some ip ∧
        Returns noInet exec_msg quarantine.name.1 (lf.user quarantine) ip
          (timeId lf.time (localServer.alertId lf)) (fmtD lf.sigid) lf.location.1
          (lit "a b;\tc")) ↔
      chr ' ' ∉ quarantine.name.1 ∧
      Separate (chr '\\') (isShellEscape []) isControlCharacter
        (kept (isShellEscape []) isControlCharacter (lit "a b;\tc"))) := by
  intro lf exec_msg
  have hexec : osExec [] localServer lf quarantine = some (.execq exec_msg false) := by decide
  have hlocation : Plain lf.location.1 := forall_mem_of_all (by decide)
  exact ⟨hexec, arguments_law hexec (by decide) rfl hlocation⟩

/-- A tab in front of a blank in a file name makes one argument more: the backslash that is left of
the tab protects the one in front of the blank. -/
theorem not_returns_tab :
    let lf := fileEvent ⟨lit "a\t b", by decide⟩
    let exec_msg := lit "quarantine0 - - 1700000000.42 550 host->syscheck a\\\t\\ b"
    osExec [] localServer lf quarantine = some (.execq exec_msg false) ∧
    hasFlag quarantine.expect FILENAME ∧
    Plain lf.location.1 ∧
    ¬∃ ip, localServer.ip lf quarantine = some ip ∧
      Returns noInet exec_msg quarantine.name.1 (lf.user quarantine) ip
        (timeId lf.time (localServer.alertId lf)) (fmtD lf.sigid) lf.location.1 (lit "a\t b") := by
  intro lf exec_msg
  refine ⟨by decide, by decide, forall_mem_of_all (by decide), ?_⟩
  rintro ⟨ip, -, tmp_msg, file, hcut, hargs, -⟩
  have hmsg : cutAt (chr ' ') (removeControlCharacters (str exec_msg)) = some (lit "quarantine0",
      lit "- - 1700000000.42 550 host->syscheck a\\\\ b") := by decide
  obtain rfl := (Prod.mk.inj (some.inj (hmsg.symm.trans hcut))).2
  have hlength : (requestArguments noInet
      (lit "- - 1700000000.42 550 host->syscheck a\\\\ b")).length = 7 := by decide
  rw [hargs] at hlength
  exact absurd hlength (by simp)

end Execd
