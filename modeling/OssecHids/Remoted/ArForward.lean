import OssecHids.Analysisd.Exec
import OssecHids.OsCrypto.Reload
import OssecHids.OsExecd.Request

/-!
# Forwarding an active response

`AR_Forward` reads the header of a request, `(name) ip`, three letters and an agent id, and sends
what is behind it to the agents that the letters stand for.

- `Forward.targets`: the agents a request is sent to;
- `forward_law`: a request is read as it was written, whatever an agent has put into its location.
-/

open CString Exec List Option

namespace Remoted

/-- `CONTROL_HEADER` -/
def CONTROL_HEADER : Bytes := lit "#!-"

/-- `EXECD_HEADER` -/
def EXECD_HEADER : Bytes := lit "execd "

def NO_AR_MSG : ℕ := 0o20

/-- The buffer `ret` after `OS_RecvUnix(socket, sizet, ret)`, up to the first byte that is kept. -/
def osRecvUnix (sizet : ℕ) (msg stale : Bytes) : Bytes := msg.take (sizet - 1) ++ 0 :: stale

/-- What `AR_Forward` reads from a request. -/
structure Forward where
  location : Bytes
  /-- The text between the name and the letters, which is passed over. -/
  srcip : Bytes
  ar_location : ℕ
  ar_agent_id : Bytes
  msg_to_send : Bytes
  deriving DecidableEq, Repr

/-- The letters of a header; the last one is read behind the end of a text that is too short. -/
def arLocation (ar_location_str : Bytes) : ℕ :=
  (if ar_location_str.headD 0 = ALL_AGENTS_C then ALL_AGENTS else 0) |||
  (if (ar_location_str.drop 1).headD 0 = REMOTE_AGENT_C then REMOTE_AGENT
    else if (ar_location_str.drop 1).headD 0 = NO_AR_C then NO_AR_MSG else 0) |||
  (if (ar_location_str.drop 2).headD 0 = SPECIFIC_AGENT_C then SPECIFIC_AGENT else 0)

/-- The body of the loop of `AR_Forward`, up to the lock of the keys. The name ends at the zero
byte that is written over the parenthesis; if that is the first byte, at the next one. -/
def arForward (msg : Bytes) : Option Forward :=
  (strchr (chr ')') msg).bind fun paren =>
  (strchr (chr ' ') (paren.drop 2)).bind fun blank =>
  let ar_location_str := blank.drop 1
  (strchr (chr ' ') ar_location_str).bind fun p =>
  (strchr (chr ' ') (p.drop 1)).map fun q =>
    let zeroed := setByte (setByte (setByte msg (ptrDiff paren msg) 0) (ptrDiff p msg) 0)
      (ptrDiff q msg) 0
    let ar_location := arLocation ar_location_str
    { location := str (zeroed.drop 1)
      srcip := (paren.drop 2).take (ptrDiff blank (paren.drop 2))
      ar_location := ar_location
      ar_agent_id := (p.drop 1).take (ptrDiff q (p.drop 1))
      msg_to_send := snprintf OS_SIZE_1024
        (CONTROL_HEADER ++ (if hasFlag ar_location NO_AR_MSG then [] else EXECD_HEADER) ++
          str (q.drop 1)) }

/-- `OS_IsAllowedName`, `none` for -1. -/
def osIsAllowedName (keys : Keystore) (name : Bytes) : Option ℕ :=
  keys.keyentries.findIdx? fun entry => entry.name == name

/-- The entries that `AR_Forward` calls `send_msg` for, by the letters, the name and the id. -/
def targets (keys : Keystore) (ar_location : ℕ) (name agent_id : Bytes) : List ℕ :=
  if hasFlag ar_location ALL_AGENTS then List.range keys.keyentries.length
  else if hasFlag ar_location REMOTE_AGENT then (osIsAllowedName keys name).toList
  else if hasFlag ar_location SPECIFIC_AGENT then (keys.osIsAllowedID agent_id).toList
  else []

/-- The entries that a request is sent to. -/
def Forward.targets (keys : Keystore) (fwd : Forward) : List ℕ :=
  Remoted.targets keys fwd.ar_location fwd.location fwd.ar_agent_id

/-- The location of an agent, as the remote daemon writes it in front of the location there. -/
def srcmsg (name ip : Bytes) : Bytes := chr '(' :: (name ++ chr ')' :: chr ' ' :: ip)

variable {name ip rest : Bytes}

theorem and_targets (opts : ℕ) :
    ((if hasFlag opts ALL_AGENTS then ALL_AGENTS else 0) |||
      (if hasFlag opts REMOTE_AGENT then REMOTE_AGENT else 0) |||
      (if hasFlag opts SPECIFIC_AGENT then SPECIFIC_AGENT else 0)) =
        opts &&& (ALL_AGENTS ||| REMOTE_AGENT ||| SPECIFIC_AGENT) := by
  -- a flag of the three is a flag of what is left of the options
  have hflag : ∀ flag, 7 &&& flag = flag → hasFlag opts flag = hasFlag (opts &&& 7) flag :=
    fun flag h => by rw [hasFlag, hasFlag, Nat.and_assoc, h]
  rw [hflag ALL_AGENTS rfl, hflag REMOTE_AGENT rfl, hflag SPECIFIC_AGENT rfl]
  change _ = opts &&& 7
  have hlt : opts &&& 7 < 8 := Nat.lt_succ_of_le Nat.and_le_right
  generalize opts &&& 7 = m at hlt ⊢
  decide +revert

theorem arLocation_append (ar : ActiveResponse) (s : Bytes) :
    arLocation ((if hasFlag ar.location ALL_AGENTS then ALL_AGENTS_C else NONE_C) ::
      (if hasFlag ar.location REMOTE_AGENT then REMOTE_AGENT_C else NONE_C) ::
      (if hasFlag ar.location SPECIFIC_AGENT then SPECIFIC_AGENT_C else NONE_C) :: s) =
      ar.location &&& (ALL_AGENTS ||| REMOTE_AGENT ||| SPECIFIC_AGENT) := by
  rw [← and_targets, arLocation]
  dsimp only [headD_cons, drop_succ_cons, drop_zero]
  cases hasFlag ar.location ALL_AGENTS <;> cases hasFlag ar.location REMOTE_AGENT <;>
    cases hasFlag ar.location SPECIFIC_AGENT <;> rfl

/-- The header for an event at an agent ends where the agent's own text starts. -/
theorem osARFormatRemoteHdr_eq_some {a r s : UInt8} {ar_hdr : Bytes}
    (harrow : ¬lit "->" <:+: srcmsg name ip)
    (h : osARFormatRemoteHdr (srcmsg name ip ++ (lit "->" ++ rest)) a r s = some ar_hdr) :
    ar_hdr = srcmsg name ip ++ [chr ' ', a, r, s] := by
  have hstrstr : strstr (lit "->") (srcmsg name ip ++ (lit "->" ++ rest)) =
      some (lit "->" ++ rest) := strstr_pair (by decide) harrow
  have hhead : (srcmsg name ip ++ (lit "->" ++ rest)).headD 0 = chr '(' := rfl
  rw [osARFormatRemoteHdr, if_pos hhead, hstrstr, map_some, ptrDiff, length_append,
    Nat.add_sub_cancel, take_left, bind_some] at h
  dsimp only at h
  split_ifs at h
  exact (some.inj h).symm

/-- The request that `OS_Exec` writes for an event at an agent. -/
theorem osExec_eq_arq {stack : Bytes} {config : Config} {lf : Exec.Eventinfo} {ar : ActiveResponse}
    {exec_msg : Bytes} {truncated : Bool}
    (hexec : osExec stack config lf ar = some (.arq exec_msg truncated))
    (hlocation : lf.location.1 = srcmsg name ip ++ (lit "->" ++ rest))
    (harrow : ¬lit "->" <:+: srcmsg name ip) :
    ¬hasFlag ar.location AS_ONLY ∧
    ∃ srcip, config.ip lf ar = some srcip ∧
      exec_msg.length < OS_SIZE_1024 ∧
      exec_msg = srcmsg name ip ++ chr ' ' ::
        (if hasFlag ar.location ALL_AGENTS then ALL_AGENTS_C else NONE_C) ::
        (if hasFlag ar.location REMOTE_AGENT then REMOTE_AGENT_C else NONE_C) ::
        (if hasFlag ar.location SPECIFIC_AGENT then SPECIFIC_AGENT_C else NONE_C) :: chr ' ' ::
        (ar.agentId ++ chr ' ' :: config.request stack lf ar srcip truncated) := by
  rw [osExec] at hexec
  cases hsrcip : config.ip lf ar with
  | none =>
    rw [hsrcip] at hexec
    exact absurd hexec (some_ne_none _).symm
  | some srcip =>
    rw [hsrcip] at hexec
    split_ifs at hexec with _ hlocal _ hremote
    · obtain ⟨_, -, heq⟩ := map_eq_some_iff.mp hexec
      cases heq
    · obtain ⟨ar_hdr, hhdr, hexec⟩ := bind_eq_some_iff.mp hexec
      obtain ⟨⟨msg, clipped⟩, hmsg, heq⟩ := map_eq_some_iff.mp hexec
      obtain ⟨rfl, rfl⟩ := Request.arq.inj heq
      obtain ⟨hlength, hmsg⟩ := execMsg_eq_some hmsg
      rw [ActiveResponse.hdr, hlocation] at hhdr
      rw [osARFormatRemoteHdr_eq_some harrow hhdr] at hmsg
      refine ⟨fun has => hlocal (.inl has), srcip, rfl, hlength, ?_⟩
      rw [Config.request]
      cases clipped with
      | true => simpa [intercalate_cons_cons] using hmsg
      | false => simpa [intercalate_cons_cons] using hmsg

/-- A byte that is written behind a place leaves what is in front of it. -/
theorem exists_setByte_append {l s : Bytes} {b : UInt8} {j : ℕ} (hj : l.length < j) :
    ∃ s', setByte (l ++ b :: s) j 0 = l ++ b :: s' := by
  obtain ⟨k, rfl⟩ := Nat.exists_eq_add_of_lt hj
  refine ⟨s.set k 0, ?_⟩
  rw [setByte, set_append_right _ _ (by omega), Nat.add_assoc, Nat.add_sub_cancel_left,
    set_cons_succ]

/-- What `AR_Forward` reads from a request that was written for an event at an agent. -/
theorem arForward_append {a r s : UInt8} {agent_id command : Bytes} (stale : Bytes)
    (hname : chr ')' ∉ name) (hip : chr ' ' ∉ ip) (hid : chr ' ' ∉ agent_id)
    (hletters : chr ' ' ∉ [a, r, s] ∧ ∀ b ∈ [a, r, s], b ≠ 0)
    (hstr : ∀ b ∈ srcmsg name ip, b ≠ 0) (hid_str : ∀ b ∈ agent_id, b ≠ 0)
    (hcommand_str : ∀ b ∈ command, b ≠ 0) :
    arForward (srcmsg name ip ++ chr ' ' :: a :: r :: s :: chr ' ' ::
        (agent_id ++ chr ' ' :: (command ++ 0 :: stale))) = some {
      location := name
      srcip := ip
      ar_location := arLocation (a :: r :: s :: chr ' ' ::
        (agent_id ++ chr ' ' :: (command ++ 0 :: stale)))
      ar_agent_id := agent_id
      msg_to_send := snprintf OS_SIZE_1024 (CONTROL_HEADER ++
        (if hasFlag (arLocation (a :: r :: s :: chr ' ' ::
          (agent_id ++ chr ' ' :: (command ++ 0 :: stale)))) NO_AR_MSG then [] else EXECD_HEADER) ++
        command) } := by
  set tail := agent_id ++ chr ' ' :: (command ++ 0 :: stale) with htail
  set letters := a :: r :: s :: chr ' ' :: tail with hletters_eq
  have hmsg : srcmsg name ip ++ chr ' ' :: letters =
      (chr '(' :: name) ++ chr ')' :: chr ' ' :: (ip ++ chr ' ' :: letters) := by simp [srcmsg]
  simp only [srcmsg, forall_mem_cons, forall_mem_append] at hstr
  obtain ⟨hopen, hname_str, -, -, hip_str⟩ := hstr
  -- the places that are searched for
  have hparen : strchr (chr ')') (srcmsg name ip ++ chr ' ' :: letters) =
      some (chr ')' :: chr ' ' :: (ip ++ chr ' ' :: letters)) := by
    rw [hmsg]
    refine strchr_append ?_ (forall_mem_cons.mpr ⟨hopen, hname_str⟩)
    rw [mem_cons, not_or]
    exact ⟨by decide, hname⟩
  have hblank : strchr (chr ' ') (ip ++ chr ' ' :: letters) = some (chr ' ' :: letters) :=
    strchr_append hip hip_str
  have hp : strchr (chr ' ') letters = some (chr ' ' :: tail) :=
    strchr_append hletters.1 hletters.2
  have hq : strchr (chr ' ') tail = some (chr ' ' :: (command ++ 0 :: stale)) :=
    strchr_append hid hid_str
  -- the name ends at the first zero byte that is written
  have hlocation : ∀ j k, name.length + 1 < j → name.length + 1 < k →
      str ((setByte (setByte (setByte (srcmsg name ip ++ chr ' ' :: letters) (name.length + 1) 0) j 0)
        k 0).drop 1) = name := by
    intro j k hj hk
    have hfirst : setByte (srcmsg name ip ++ chr ' ' :: letters) (name.length + 1) 0 =
        (chr '(' :: name) ++ 0 :: (chr ' ' :: (ip ++ chr ' ' :: letters)) := by
      rw [hmsg, setByte, set_append_right _ _ (by simp), length_cons, Nat.sub_self, set_cons_zero]
    obtain ⟨s₁, hsecond⟩ := exists_setByte_append (l := chr '(' :: name) (b := 0)
      (s := chr ' ' :: (ip ++ chr ' ' :: letters)) hj
    obtain ⟨s₂, hthird⟩ := exists_setByte_append (l := chr '(' :: name) (b := 0) (s := s₁) hk
    rw [hfirst, hsecond, hthird, cons_append, drop_one, tail_cons, str_append_zero hname_str]
  have hlen : (srcmsg name ip ++ chr ' ' :: letters).length =
      name.length + ip.length + tail.length + 8 := by
    simp [srcmsg, hletters_eq]
    omega
  have hlen_tail : tail.length = agent_id.length + 1 + (command ++ 0 :: stale).length := by
    simp [htail]
    omega
  have hdrop : (chr ')' :: chr ' ' :: (ip ++ chr ' ' :: letters)).drop 2 =
      ip ++ chr ' ' :: letters := rfl
  have htake : ∀ l t : Bytes, (l ++ t).take (ptrDiff t (l ++ t)) = l := fun l t => by
    rw [ptrDiff, length_append, Nat.add_sub_cancel, take_left]
  have hfirst : ptrDiff (chr ')' :: chr ' ' :: (ip ++ chr ' ' :: letters))
      (srcmsg name ip ++ chr ' ' :: letters) = name.length + 1 := by
    rw [hmsg, ptrDiff, length_append, Nat.add_sub_cancel, length_cons]
  rw [arForward, hparen]
  dsimp only [bind_some]
  rw [hdrop, hblank]
  dsimp only [bind_some]
  rw [drop_one, tail_cons, hp]
  dsimp only [bind_some]
  rw [drop_one, tail_cons, hq, map_some, some.injEq, Forward.mk.injEq, hfirst]
  refine ⟨hlocation _ _ ?_ ?_, htake ip _, rfl, htake agent_id _, ?_⟩
  · rw [ptrDiff, hlen, length_cons]
    omega
  · rw [ptrDiff, hlen, hlen_tail, length_cons]
    omega
  · rw [drop_one, tail_cons, str_append_zero hcommand_str]

theorem targets_and (keys : Keystore) (opts : ℕ) (name agent_id : Bytes) :
    targets keys (opts &&& (ALL_AGENTS ||| REMOTE_AGENT ||| SPECIFIC_AGENT)) name agent_id =
      targets keys opts name agent_id := by
  have hflag : ∀ flag, 7 &&& flag = flag → hasFlag (opts &&& 7) flag = hasFlag opts flag :=
    fun flag h => by rw [hasFlag, hasFlag, Nat.and_assoc, h]
  rw [targets, targets, show ALL_AGENTS ||| REMOTE_AGENT ||| SPECIFIC_AGENT = 7 from rfl,
    hflag ALL_AGENTS rfl, hflag REMOTE_AGENT rfl, hflag SPECIFIC_AGENT rfl]

/-- A request for an event at an agent is read as it was written: the name, the address, the
letters, the agent id and the command; and it goes to the agents that the response is for. -/
theorem forward_law {stack : Bytes} {config : Config} {lf : Exec.Eventinfo} {ar : ActiveResponse}
    {exec_msg : Bytes} {truncated : Bool}
    (hexec : osExec stack config lf ar = some (.arq exec_msg truncated))
    (hlocation : lf.location.1 = srcmsg name ip ++ (lit "->" ++ rest))
    (hname : chr ')' ∉ name) (hip : chr ' ' ∉ ip) (harrow : ¬lit "->" <:+: srcmsg name ip)
    (hid : chr ' ' ∉ ar.agentId) (keys : Keystore) (stale : Bytes) :
    ¬hasFlag ar.location AS_ONLY ∧
    ∃ srcip, config.ip lf ar = some srcip ∧
      let fwd : Forward := {
        location := name
        srcip := ip
        ar_location := ar.location &&& (ALL_AGENTS ||| REMOTE_AGENT ||| SPECIFIC_AGENT)
        ar_agent_id := ar.agentId
        msg_to_send := CONTROL_HEADER ++ EXECD_HEADER ++
          config.request stack lf ar srcip truncated }
      arForward (osRecvUnix OS_SIZE_1024 exec_msg stale) = some fwd ∧
        fwd.targets keys = targets keys ar.location name ar.agentId := by
  obtain ⟨has, srcip, hsrcip, hlength, rfl⟩ := osExec_eq_arq hexec hlocation harrow
  refine ⟨has, srcip, hsrcip, ?_, targets_and keys _ _ _⟩
  have hstr : ∀ b ∈ srcmsg name ip, b ≠ 0 := fun b hb hzero =>
    lf.location.2 (by rw [hlocation, ← hzero]; exact mem_append_left _ hb)
  have hid_str : ∀ b ∈ ar.agentId, b ≠ 0 := by
    rw [ActiveResponse.agentId]
    split
    case h_1 => exact forall_mem_of_all (by decide)
    case h_2 agent_id _ => exact fun b hb hzero => agent_id.2 (hzero ▸ hb)
  have hletters : ∀ p q t : Bool,
      let letters := [if p then ALL_AGENTS_C else NONE_C, if q then REMOTE_AGENT_C else NONE_C,
        if t then SPECIFIC_AGENT_C else NONE_C]
      chr ' ' ∉ letters ∧ (letters.all fun b => decide (b ≠ 0)) = true := by decide
  obtain ⟨hblank, hnonzero⟩ := hletters (hasFlag ar.location ALL_AGENTS)
    (hasFlag ar.location REMOTE_AGENT) (hasFlag ar.location SPECIFIC_AGENT)
  have hno_ar : hasFlag (ar.location &&& (ALL_AGENTS ||| REMOTE_AGENT ||| SPECIFIC_AGENT))
      NO_AR_MSG = false := by
    rw [hasFlag, Nat.and_assoc,
      show (ALL_AGENTS ||| REMOTE_AGENT ||| SPECIFIC_AGENT) &&& NO_AR_MSG = 0 from rfl, Nat.and_zero]
    rfl
  have hforward := arForward_append stale hname hip hid ⟨hblank, forall_mem_of_all hnonzero⟩ hstr
    hid_str (ne_zero_request stack truncated hsrcip)
  rw [arLocation_append, hno_ar, snprintf, take_of_length_le] at hforward
  · rw [osRecvUnix, take_of_length_le (Nat.le_sub_one_of_lt hlength)]
    simpa using hforward
  · -- the two headers are not longer than the one that is taken off
    simp only [srcmsg, length_append, length_cons, OS_SIZE_1024] at hlength ⊢
    have hheaders : CONTROL_HEADER.length = 3 ∧ EXECD_HEADER.length = 6 := by decide
    simp only [Bool.false_eq_true, if_false]
    omega

/-- A server that sends responses to its agents. -/
def remoteServer : Config where
  ar := REMOTE_AR
  allow_list _ := false
  hostname_allow_list := []
  crt_ftell := 0

/-- A response without arguments. -/
def restart (location : ℕ) (agent_id : Option CStr) : ActiveResponse where
  name := ⟨lit "restart0", by decide⟩
  location := location
  agent_id := agent_id
  expect := 0

/-- An event with a location. -/
def eventAt (location : CStr) : Exec.Eventinfo where
  srcip := none
  dstuser := none
  srcuser := none
  filename := none
  location := location
  time := 1700000000
  alert_id := 42
  sigid := 550

/-- The keys of one agent. -/
def webKeys : Keystore where
  rids := ⟨fun _ => none, 1, Nat.one_pos, by simp, by simp⟩
  rcv_count := 0
  keyentries := [{
    rcvd := 0, counter := .zero, keyid := 0, id := lit "001", key := [], name := lit "web"
    ip := lit "10.0.0.1", peer_info := [], fp := none, inode := 0, crypto_method := .aes }]
  keyhash_id := [(lit "001", 0)]
  keyhash_ip := [(lit "10.0.0.1", 0)]
  file_change := 0

/-- A location in which an agent writes a header of its own. -/
theorem forward_law_header :
    let lf := eventAt ⟨lit "(web) 10.0.0.1->x AAS 007 (db) 10.0.0.2->y", by decide⟩
    let ar := restart REMOTE_AGENT none
    let exec_msg := lit "(web) 10.0.0.1 NRN (null) restart0 - - 1700000000.42 550 " ++ lf.location.1 ++
      lit " -"
    osExec [] remoteServer lf ar = some (.arq exec_msg false) ∧
    ∃ fwd, arForward (osRecvUnix OS_SIZE_1024 exec_msg []) = some fwd ∧
      fwd.location = lit "web" ∧ fwd.ar_location = REMOTE_AGENT ∧ fwd.targets webKeys = [0] := by
  intro lf ar exec_msg
  have hexec : osExec [] remoteServer lf ar = some (.arq exec_msg false) := by decide
  have hlocation : lf.location.1 = srcmsg (lit "web") (lit "10.0.0.1") ++
      (lit "->" ++ lit "x AAS 007 (db) 10.0.0.2->y") := by decide
  have hhead : chr '>' ∉ srcmsg (lit "web") (lit "10.0.0.1") := by decide
  have harrow : ¬lit "->" <:+: srcmsg (lit "web") (lit "10.0.0.1") := fun hinner =>
    hhead (hinner.subset (mem_cons_of_mem _ mem_cons_self))
  have hid : chr ' ' ∉ ar.agentId := by decide
  obtain ⟨-, srcip, -, hforward, htargets⟩ :=
    forward_law hexec hlocation (by decide) (by decide) harrow hid webKeys []
  have hwebKeys : targets webKeys ar.location (lit "web") ar.agentId = [0] := by decide
  exact ⟨hexec, _, hforward, rfl, by dsimp only; decide, htargets.trans hwebKeys⟩

/-- An arrow in the name of an agent and a blank in an agent id move what is behind them, and a
response that is also for this host is sent to no agent. -/
theorem not_forwarded :
    (let exec_msg := lit "(a NRN (null) restart0 - - 1700000000.42 550 (a->b) 10.0.0.1->x -";
      osExec [] remoteServer (eventAt ⟨lit "(a->b) 10.0.0.1->x", by decide⟩)
          (restart REMOTE_AGENT none) = some (.arq exec_msg false) ∧
        (arForward (osRecvUnix OS_SIZE_1024 exec_msg [])).map Forward.ar_location ≠
          some REMOTE_AGENT) ∧
    (let exec_msg := lit "(web) 10.0.0.1 NNS 001  restart0 - - 1700000000.42 550 (web) 10.0.0.1->x -";
      osExec [] remoteServer (eventAt ⟨lit "(web) 10.0.0.1->x", by decide⟩)
          (restart SPECIFIC_AGENT (some ⟨lit "001 ", by decide⟩)) = some (.arq exec_msg false) ∧
        (arForward (osRecvUnix OS_SIZE_1024 exec_msg [])).map Forward.ar_agent_id ≠
          some (lit "001 ")) ∧
    osExec [] remoteServer (eventAt ⟨lit "(web) 10.0.0.1->x", by decide⟩)
      (restart (ALL_AGENTS ||| AS_ONLY) none) = none := by
  refine ⟨⟨by decide, by decide⟩, ⟨by decide, by decide⟩, by decide⟩

end Remoted
