import OssecHids.OsExecd.Daemon

/-!
# Blocks and their timeouts

What holds of the timeout list of `ExecdStart`, whatever comes in whatever order.

- `Core`: what holds between the list, the children and the requests so far;
- `Inv.step`: every step keeps it;
- `timeout_law`: one entry for a command, a user and an address, and no "add" beside a "delete".
-/

open CString KeyedList Transition List Option

namespace Execd

/-! ## What has happened -/

/-- The command, the user and the address of a command line. -/
def key (cmd : List Bytes) : Option Bytes × Option Bytes × Option Bytes :=
  (cmd[0]?, cmd[2]?, cmd[3]?)

def TimeoutData.key (entry : TimeoutData) : Option Bytes × Option Bytes × Option Bytes :=
  Execd.key entry.command

/-- The time of a request with this key. -/
def Event.requestTime (k : Option Bytes × Option Bytes × Option Bytes) : Event → Option ℤ
  | .request timeout_args now => if Execd.key timeout_args = k then some now else none
  | _ => none

/-- The time of the last request with this key. -/
def lastRequest (k : Option Bytes × Option Bytes × Option Bytes) (past : List Event) : Option ℤ :=
  (past.filterMap (Event.requestTime k)).getLast?

/-- The events of a run. -/
def events (ls : List (Input × List Event)) : List Event := ls.flatMap Prod.snd

/-- What the kernel knows of the children, whether they have exited or not. -/
def jobs (children : List Child) : List (ℤ × List Bytes) :=
  children.map fun child => (child.pid, child.cmd)

/-! ## What is to hold -/

/-- What is to hold in every state. -/
structure Law (s : State) : Prop where
  /-- There is at most one entry for a command, a user and an address. -/
  unique : UniqueKeys TimeoutData.key s.timeout_list
  /-- There is at most one "delete" for them that has not been reaped. -/
  one_delete : ∀ k, (s.children.filter fun child =>
    child.cmd[1]? = some DELETE_ENTRY ∧ key child.cmd = k).length ≤ 1
  /-- The main loop knows how many children there are to clean up. -/
  childcount : s.childcount = s.children.length

/-- What is to hold of every step. -/
structure StepLaw (past : List Event) (s : State) (new : List Event) (s' : State) : Prop where
  /-- A command that is added for some time has one entry, with its arguments. -/
  listed : ∀ cmd timeout_value, .add cmd timeout_value ∈ new → timeout_value ≠ 0 →
    ∃ entry, (s'.timeout_list.filter fun entry => entry.key = key cmd) = [entry] ∧
      entry.command = cmd.set 1 DELETE_ENTRY
  /-- No "delete" with its key is there when a command is added. -/
  alone : ∀ cmd timeout_value, .add cmd timeout_value ∈ new → ∀ child ∈ s'.children,
    child.cmd[1]? = some DELETE_ENTRY → key child.cmd ≠ key cmd
  /-- A "delete" is run for an entry of which none is running, and whose time has passed since the
  last request with its key. -/
  due : ∀ cmd now, .delete cmd now ∈ new → ∃ entry ∈ s.timeout_list, entry.command = cmd ∧
    ¬0 < entry.delete_pid ∧
      ∃ t, lastRequest (key cmd) past = some t ∧ entry.time_to_block.toInt < now - t
  /-- An entry stays until the "delete" that has been run for it is reaped. -/
  kept : ∀ entry ∈ s.timeout_list,
    (∃ entry' ∈ s'.timeout_list, entry'.command = entry.command ∧
      (0 < entry.delete_pid → entry'.delete_pid = entry.delete_pid)) ∨
    (.reaped entry.delete_pid ∈ new ∧ ∃ child ∈ s.children, child.pid = entry.delete_pid ∧
      child.cmd = entry.command ∧ child.exited = true)

/-! ## The invariant -/

/-- What holds between the requests so far, the list and the children. -/
structure Core (past : List Event) (list : List TimeoutData) (js : List (ℤ × List Bytes)) :
    Prop where
  complete : ∀ entry ∈ list, ∃ command user ip args,
    entry.command = timeoutArgs command (user :: ip :: args)
  unique : UniqueKeys TimeoutData.key list
  pids : UniqueKeys Prod.fst js
  positive : ∀ job ∈ js, 0 < job.1
  /-- The "delete" that an entry waits for is there. -/
  started : ∀ entry ∈ list, 0 < entry.delete_pid → (entry.delete_pid, entry.command) ∈ js
  /-- Every "delete" that is there is waited for. -/
  deletes : ∀ job ∈ js, job.2[1]? = some DELETE_ENTRY →
    ∃ entry ∈ list, entry.delete_pid = job.1 ∧ entry.command = job.2
  last : ∀ entry ∈ list, ¬0 < entry.delete_pid →
    lastRequest entry.key past = some entry.time_of_addition

/-- A request that waits has an entry whose "delete" it waits for. -/
structure Waits (past : List Event) (list : List TimeoutData) (w : Waiting) : Prop where
  complete : ∃ user ip args, w.args = user :: ip :: args
  entry : ∃ entry ∈ list, entry.key = key (timeoutArgs w.command w.args) ∧
    entry.delete_pid = w.delete_pid
  positive : 0 < w.delete_pid
  last : lastRequest (key (timeoutArgs w.command w.args)) past = some w.curr_time

structure Inv (past : List Event) (s : State) : Prop where
  core : Core past s.timeout_list (jobs s.children)
  childcount : s.childcount = s.children.length
  waits : ∀ w, s.waiting = some w → Waits past s.timeout_list w

variable {past past' : List Event} {list front back : List TimeoutData} {entry : TimeoutData}
  {js : List (ℤ × List Bytes)} {pid now : ℤ} {command : Bytes} {args cmd : List Bytes}

theorem lastRequest_append {k : Option Bytes × Option Bytes × Option Bytes} {new : List Event}
    (h : ∀ e ∈ new, e.requestTime k = none) : lastRequest k (past ++ new) = lastRequest k past := by
  rw [lastRequest, filterMap_append, filterMap_eq_nil_iff.mpr h, append_nil]
  rfl

theorem lastRequest_concat (past : List Event) (timeout_args : List Bytes) (now : ℤ) :
    lastRequest (key timeout_args) (past ++ [.request timeout_args now]) = some now := by
  rw [lastRequest, filterMap_append]
  simp [Event.requestTime]

theorem isDuplicate_iff {timeout_args : List Bytes}
    (h : ∃ command user ip args, entry.command = timeoutArgs command (user :: ip :: args)) :
    isDuplicate timeout_args entry = true ↔ entry.key = key timeout_args := by
  obtain ⟨command, user, ip, args, h⟩ := h
  rw [isDuplicate, TimeoutData.key, key, key, h]
  simp [timeoutArgs, and_comm]

namespace Core

theorem eq_of_delete_pid_eq (h : Core past list js) {entry' : TimeoutData} (hmem : entry ∈ list)
    (hmem' : entry' ∈ list) (hpid : 0 < entry.delete_pid)
    (heq : entry'.delete_pid = entry.delete_pid) : entry' = entry := by
  have hjob := h.started entry hmem hpid
  have hjob' := h.started entry' hmem' (heq ▸ hpid)
  have hsame := h.pids.eq_of_key_eq hjob' hjob heq
  apply h.unique.eq_of_key_eq hmem' hmem
  rw [TimeoutData.key, TimeoutData.key, (Prod.mk.inj hsame).2]

/-- A child is reaped, and its entry goes if it has one. -/
theorem reap (h : Core past list js) (pid : ℤ) :
    Core past (list.filter fun entry => entry.delete_pid ≠ pid)
      (js.filter fun job => job.1 ≠ pid) where
  complete entry hmem := h.complete entry (mem_filter.mp hmem).1
  unique := h.unique.sublist filter_sublist
  pids := h.pids.sublist filter_sublist
  positive job hmem := h.positive job (mem_filter.mp hmem).1
  started entry hmem hpos := by
    rw [mem_filter] at hmem ⊢
    exact ⟨h.started entry hmem.1 hpos, hmem.2⟩
  deletes job hmem hdelete := by
    rw [mem_filter] at hmem
    obtain ⟨entry, hentry, heq, hcmd⟩ := h.deletes job hmem.1 hdelete
    refine ⟨entry, mem_filter.mpr ⟨hentry, ?_⟩, heq, hcmd⟩
    rw [heq]
    exact hmem.2
  last entry hmem := h.last entry (mem_filter.mp hmem).1

theorem congr_past (h : Core past list js) (past' : List Event)
    (hpast : ∀ entry ∈ list, ¬0 < entry.delete_pid →
      lastRequest entry.key past' = lastRequest entry.key past) : Core past' list js :=
  { h with last := fun entry hmem hpid => (hpast entry hmem hpid).trans (h.last entry hmem hpid) }

/-- An entry is exchanged for one with the same arguments, whose "delete" may have been run. -/
theorem replace (entry' : TimeoutData) (h : Core past (front ++ entry :: back) js)
    (hidle : ¬0 < entry.delete_pid) (hcmd : entry'.command = entry.command)
    {js' : List (ℤ × List Bytes)} (hpids : UniqueKeys Prod.fst js')
    (hpositive : ∀ job ∈ js', 0 < job.1) (hjs : js ⊆ js')
    (hstarted : 0 < entry'.delete_pid → (entry'.delete_pid, entry'.command) ∈ js')
    (hdeletes : ∀ job ∈ js', job ∈ js ∨ (entry'.delete_pid = job.1 ∧ entry'.command = job.2))
    (hpast : ∀ e ∈ front ++ back, lastRequest e.key past' = lastRequest e.key past)
    (hlast : ¬0 < entry'.delete_pid → lastRequest entry'.key past' = some entry'.time_of_addition) :
    Core past' (front ++ entry' :: back) js' := by
  have hkey : entry'.key = entry.key := by rw [TimeoutData.key, TimeoutData.key, hcmd]
  have hmem : ∀ {e}, e ∈ front ++ entry' :: back → e = entry' ∨ e ∈ front ++ back := by
    intro e he
    rw [mem_append, mem_cons] at he
    rw [mem_append]
    tauto
  have hold : ∀ {e}, e ∈ front ++ back → e ∈ front ++ entry :: back := by
    intro e he
    rw [mem_append] at he
    rw [mem_append, mem_cons]
    tauto
  constructor
  case complete =>
    intro e he
    rcases hmem he with rfl | he
    · rw [hcmd]
      exact h.complete entry (by simp)
    · exact h.complete e (hold he)
  case unique => exact h.unique.replace hkey
  case pids => exact hpids
  case positive => exact hpositive
  case started =>
    intro e he hpos
    rcases hmem he with rfl | he
    · exact hstarted hpos
    · exact hjs (h.started e (hold he) hpos)
  case deletes =>
    intro job hjob hdelete
    rcases hdeletes job hjob with hthere | hnew
    · -- the entry of an old child is not the one that is exchanged
      obtain ⟨e, he, hpid, hsame⟩ := h.deletes job hthere hdelete
      refine ⟨e, ?_, hpid, hsame⟩
      have hpos := h.positive job hthere
      rcases mem_append.mp he with he | he
      · exact mem_append_left _ he
      · rcases mem_cons.mp he with rfl | he
        · exact absurd (hpid ▸ hpos) hidle
        · exact mem_append_right _ (mem_cons_of_mem _ he)
    · exact ⟨entry', by simp, hnew.1, hnew.2⟩
  case last =>
    intro e he hpos
    rcases hmem he with rfl | he
    · exact hlast hpos
    · exact (hpast e he).trans (h.last e (hold he) hpos)

/-- The "delete" of an entry is run. -/
theorem start (h : Core past (front ++ entry :: back) js) (hidle : ¬0 < entry.delete_pid)
    (hpid : 0 < pid) (hfree : ∀ job ∈ js, job.1 ≠ pid) :
    Core past (front ++ { entry with delete_pid := pid } :: back) (js ++ [(pid, entry.command)]) := by
  have hpids : UniqueKeys Prod.fst (js ++ [(pid, entry.command)]) := h.pids.concat hfree
  refine h.replace { entry with delete_pid := pid } hidle rfl hpids ?_
    (subset_append_left _ _) (fun _ => by simp) ?_ (fun _ _ => rfl) (fun hnot => absurd hpid hnot)
  · intro job hjob
    rcases mem_append.mp hjob with hjob | hjob
    · exact h.positive job hjob
    · rwa [mem_singleton.mp hjob]
  · intro job hjob
    rcases mem_append.mp hjob with hjob | hjob
    · exact .inl hjob
    · rw [mem_singleton.mp hjob]
      exact .inr ⟨rfl, rfl⟩

/-- The command of a request is run. -/
theorem add (h : Core past list js) (hpid : 0 < pid) (hfree : ∀ job ∈ js, job.1 ≠ pid) :
    Core past list (js ++ [(pid, cmdArgs command args)]) where
  complete := h.complete
  unique := h.unique
  pids := h.pids.concat hfree
  positive job hjob := by
    rcases mem_append.mp hjob with hjob | hjob
    · exact h.positive job hjob
    · rwa [mem_singleton.mp hjob]
  started entry hmem hpos := mem_append_left _ (h.started entry hmem hpos)
  deletes job hjob hdelete := by
    rcases mem_append.mp hjob with hjob | hjob
    · exact h.deletes job hjob hdelete
    · rw [mem_singleton.mp hjob] at hdelete
      exact absurd (some.inj hdelete) (by decide)
  last := h.last

/-- A command is listed that was not. -/
theorem concat (h : Core past list js) (hnew : ∀ e ∈ list, e.key ≠ entry.key)
    (hcomplete : ∃ command user ip args, entry.command = timeoutArgs command (user :: ip :: args))
    (hidle : ¬0 < entry.delete_pid)
    (hlast : lastRequest entry.key past = some entry.time_of_addition) :
    Core past (list ++ [entry]) js where
  complete e he := by
    rcases mem_append.mp he with he | he
    · exact h.complete e he
    · rwa [mem_singleton.mp he]
  unique := h.unique.concat hnew
  pids := h.pids
  positive := h.positive
  started e he hpos := by
    rcases mem_append.mp he with he | he
    · exact h.started e he hpos
    · exact absurd (mem_singleton.mp he ▸ hpos) hidle
  deletes job hjob hdelete := by
    obtain ⟨e, he, heq⟩ := h.deletes job hjob hdelete
    exact ⟨e, mem_append_left _ he, heq⟩
  last e he hpos := by
    rcases mem_append.mp he with he | he
    · exact h.last e he hpos
    · rwa [mem_singleton.mp he]

theorem filter_delete_pid (h : Core past (front ++ entry :: back) js) (hpos : 0 < entry.delete_pid) :
    ((front ++ entry :: back).filter fun e => e.delete_pid ≠ entry.delete_pid) = front ++ back := by
  have hrest : ∀ e ∈ front ++ back, decide (e.delete_pid ≠ entry.delete_pid) = true := by
    intro e he
    refine decide_eq_true fun heq => ?_
    have hmem : e ∈ front ++ entry :: back := by
      rcases mem_append.mp he with he | he
      · exact mem_append_left _ he
      · exact mem_append_right _ (mem_cons_of_mem _ he)
    have hsame := h.eq_of_delete_pid_eq (by simp) hmem hpos heq
    exact h.unique.ne_of_mem he (by rw [hsame])
  rw [filter_append, filter_cons_of_neg (by simp), ← filter_append, filter_eq_self.mpr hrest]

theorem execdTimeoutReapDelete_eq (h : Core past list js) (hpid : 0 < pid) :
    execdTimeoutReapDelete list pid = list.filter fun entry => entry.delete_pid ≠ pid := by
  rw [execdTimeoutReapDelete, if_neg (by omega)]
  cases hsplit : splitFirst (fun entry : TimeoutData => entry.delete_pid == pid) list with
  | none =>
    have hnone := splitFirst_eq_none hsplit
    rw [filter_eq_self.mpr fun e he => by simpa using hnone e he]
  | some r =>
    obtain ⟨front, entry, back⟩ := r
    obtain ⟨rfl, hentry⟩ := splitFirst_eq_some hsplit
    obtain rfl := beq_iff_eq.mp hentry
    exact (h.filter_delete_pid hpid).symm

theorem delete_unique (h : Core past list js) {job job' : ℤ × List Bytes} (hjob : job ∈ js)
    (hjob' : job' ∈ js) (hdelete : job.2[1]? = some DELETE_ENTRY)
    (hdelete' : job'.2[1]? = some DELETE_ENTRY) (heq : key job.2 = key job'.2) : job = job' := by
  obtain ⟨entry, hentry, hpid, hcmd⟩ := h.deletes job hjob hdelete
  obtain ⟨entry', hentry', hpid', hcmd'⟩ := h.deletes job' hjob' hdelete'
  have hsame : entry = entry' := by
    apply h.unique.eq_of_key_eq hentry hentry'
    rw [TimeoutData.key, TimeoutData.key, hcmd, hcmd', heq]
  apply h.pids.eq_of_key_eq hjob hjob'
  rw [← hpid, ← hpid', hsame]

theorem key_ne_of_delete (h : Core past list js) {k : Option Bytes × Option Bytes × Option Bytes}
    (hnone : ∀ entry ∈ list, entry.key ≠ k) :
    ∀ job ∈ js, job.2[1]? = some DELETE_ENTRY → key job.2 ≠ k := by
  intro job hjob hdelete heq
  obtain ⟨entry, hentry, -, hcmd⟩ := h.deletes job hjob hdelete
  exact hnone entry hentry (by rw [TimeoutData.key, hcmd, heq])

end Core

/-! ## What is run -/

theorem execCmd_spec {procs procs' : Processes} (h : execCmd cmd procs = some (pid, procs')) :
    0 < pid ∧ (∀ job ∈ jobs procs.children, job.1 ≠ pid) ∧
      procs'.children = procs.children ++ [{ pid := pid, cmd := cmd }] := by
  rw [execCmd] at h
  split at h
  case h_1 => exact absurd h (some_ne_none _).symm
  case h_2 fork forks _ =>
    split_ifs at h with hfree
    cases h
    refine ⟨hfree.1, fun job hjob heq => hfree.2 ?_, rfl⟩
    obtain ⟨child, hchild, rfl⟩ := mem_map.mp hjob
    exact heq ▸ mem_map_of_mem hchild

theorem jobs_append (children children' : List Child) :
    jobs (children ++ children') = jobs children ++ jobs children' := map_append

/-- What `ExecdTimeoutLaunchDeletes` does to the entries behind those it has looked at. -/
structure Launched (now : ℤ) (rest started rest' : List TimeoutData) (procs procs' : Processes) :
    Prop where
  length : procs'.children.length = procs.children.length + started.length
  due : ∀ entry ∈ started, ∃ entry' ∈ rest, entry'.command = entry.command ∧
    isDue now entry' = true
  kept : ∀ entry ∈ rest, ∃ entry' ∈ rest', entry'.command = entry.command ∧
    (0 < entry.delete_pid → entry'.delete_pid = entry.delete_pid)
  same : rest'.map (fun entry => (entry.command, entry.time_to_block)) =
    rest.map fun entry => (entry.command, entry.time_to_block)
  none_due : ∀ entry ∈ rest', isDue now entry = false

theorem execdTimeoutLaunchDeletes_spec {rest started rest' : List TimeoutData}
    {procs procs' : Processes} (front : List TimeoutData)
    (h : execdTimeoutLaunchDeletes now rest procs = some (started, rest', procs'))
    (hcore : Core past (front ++ rest) (jobs procs.children)) :
    Core past (front ++ rest') (jobs procs'.children) ∧
      Launched now rest started rest' procs procs' := by
  induction rest generalizing front started rest' procs with
  | nil =>
    simp only [execdTimeoutLaunchDeletes, some.injEq, Prod.mk.injEq] at h
    obtain ⟨rfl, rfl, rfl⟩ := h
    exact ⟨hcore, ⟨rfl, by simp, by simp, rfl, by simp⟩⟩
  | cons entry rest ih =>
    rw [execdTimeoutLaunchDeletes] at h
    split_ifs at h with hdue
    · -- the entry has timed out
      obtain ⟨⟨pid, procs₁⟩, hexec, h⟩ := bind_eq_some_iff.mp h
      obtain ⟨⟨started₁, rest₁, procs₂⟩, hloop, heq⟩ := map_eq_some_iff.mp h
      simp only [Prod.mk.injEq] at heq
      obtain ⟨rfl, rfl, rfl⟩ := heq
      obtain ⟨hpid, hfree, hchildren⟩ := execCmd_spec hexec
      have hidle : ¬0 < entry.delete_pid := by
        have hboth := Bool.and_eq_true_iff.mp hdue
        exact not_lt.mpr (of_decide_eq_true hboth.1)
      have hstart := hcore.start hidle hpid hfree
      rw [append_cons] at hstart
      have hjobs : jobs procs₁.children = jobs procs.children ++ [(pid, entry.command)] := by
        rw [hchildren, jobs_append]
        rfl
      rw [← hjobs] at hstart
      obtain ⟨hcore', hlaunched⟩ := ih _ hloop hstart
      refine ⟨by rwa [append_cons], ?_, ?_, ?_, ?_, ?_⟩
      · rw [hlaunched.length, hchildren]
        simp only [length_append, length_cons, length_nil]
        omega
      · rw [forall_mem_cons]
        refine ⟨⟨entry, mem_cons_self, rfl, hdue⟩, fun e he => ?_⟩
        obtain ⟨e', he', hsame⟩ := hlaunched.due e he
        exact ⟨e', mem_cons_of_mem _ he', hsame⟩
      · rw [forall_mem_cons]
        refine ⟨⟨_, mem_cons_self, rfl, fun hpos => absurd hpos hidle⟩, fun e he => ?_⟩
        obtain ⟨e', he', hsame⟩ := hlaunched.kept e he
        exact ⟨e', mem_cons_of_mem _ he', hsame⟩
      · rw [map_cons, map_cons, hlaunched.same]
      · rw [forall_mem_cons]
        refine ⟨?_, hlaunched.none_due⟩
        rw [isDue, Bool.and_eq_false_iff]
        exact .inl (decide_eq_false (not_le.mpr hpid))
    · obtain ⟨⟨started₁, rest₁, procs₂⟩, hloop, heq⟩ := map_eq_some_iff.mp h
      simp only [Prod.mk.injEq] at heq
      obtain ⟨rfl, rfl, rfl⟩ := heq
      rw [append_cons] at hcore
      obtain ⟨hcore', hlaunched⟩ := ih _ hloop hcore
      refine ⟨by rwa [append_cons], hlaunched.length, ?_, ?_, ?_, ?_⟩
      · intro e he
        obtain ⟨e', he', hsame⟩ := hlaunched.due e he
        exact ⟨e', mem_cons_of_mem _ he', hsame⟩
      · rw [forall_mem_cons]
        refine ⟨⟨_, mem_cons_self, rfl, fun _ => rfl⟩, fun e he => ?_⟩
        obtain ⟨e', he', hsame⟩ := hlaunched.kept e he
        exact ⟨e', mem_cons_of_mem _ he', hsame⟩
      · rw [map_cons, map_cons, hlaunched.same]
      · rw [forall_mem_cons]
        exact ⟨Bool.eq_false_iff.mpr hdue, hlaunched.none_due⟩

/-- What a look at the list for a complete request comes to. -/
inductive Found (rot : List Int32) (list : List TimeoutData) (timeout_args : List Bytes)
    (curr_time : ℤ) (hash : Option RepeatedHash) : DupCheck → Prop
  | renewed {front back : List TimeoutData} {entry entry' : TimeoutData}
      {hash' : Option RepeatedHash} :
      list = front ++ entry :: back → entry.key = key timeout_args → ¬0 < entry.delete_pid →
      renewEntry rot timeout_args curr_time hash entry = some (entry', hash') →
      Found rot list timeout_args curr_time hash (.renewed entry' (front ++ entry' :: back) hash')
  | waits {entry : TimeoutData} : entry ∈ list → entry.key = key timeout_args →
      0 < entry.delete_pid →
      Found rot list timeout_args curr_time hash (.waits entry.delete_pid)
  | absent : (∀ entry ∈ list, entry.key ≠ key timeout_args) →
      Found rot list timeout_args curr_time hash .absent

theorem renewEntry_spec {rot : List Int32} {timeout_args : List Bytes} {curr_time : ℤ}
    {hash hash' : Option RepeatedHash} {entry' : TimeoutData}
    (h : renewEntry rot timeout_args curr_time hash entry = some (entry', hash')) :
    entry'.command = entry.command ∧ entry'.delete_pid = entry.delete_pid ∧
      entry'.time_of_addition = curr_time := by
  rw [renewEntry.eq_def] at h
  dsimp only at h
  split at h
  case h_1 =>
    split_ifs at h
    · split at h
      case h_1 =>
        cases h
        exact ⟨rfl, rfl, rfl⟩
      case h_2 =>
        obtain ⟨⟨timeout, stored⟩, -, heq⟩ := map_eq_some_iff.mp h
        cases heq
        exact ⟨rfl, rfl, rfl⟩
    · cases h
      exact ⟨rfl, rfl, rfl⟩
  case h_2 =>
    cases h
    exact ⟨rfl, rfl, rfl⟩

/-- The request is incomplete, or it is looked for. -/
theorem Core.execdTimeoutDupCheck_spec {rot : List Int32} {curr_time : ℤ}
    {hash : Option RepeatedHash} {result : DupCheck} (hcore : Core past list js)
    (h : execdTimeoutDupCheck rot list (timeoutArgs command args) curr_time hash = some result) :
    result = .incomplete ∨ (∃ user ip rest, args = user :: ip :: rest) ∧
      Found rot list (timeoutArgs command args) curr_time hash result := by
  rw [execdTimeoutDupCheck] at h
  split_ifs at h with hincomplete
  · exact .inl (some.inj h).symm
  · have hargs : ∃ user ip rest, args = user :: ip :: rest := by
      match args, hincomplete with
      | [], hnot => exact absurd (.inl rfl) hnot
      | [_], hnot => exact absurd (.inr rfl) hnot
      | user :: ip :: rest, _ => exact ⟨user, ip, rest, rfl⟩
    refine .inr ⟨hargs, ?_⟩
    cases hsplit : splitFirst (isDuplicate (timeoutArgs command args)) list with
    | none =>
      rw [hsplit] at h
      cases h
      refine .absent fun entry hmem heq => ?_
      have hnot := splitFirst_eq_none hsplit entry hmem
      rw [(isDuplicate_iff (hcore.complete entry hmem)).mpr heq] at hnot
      exact Bool.false_ne_true hnot.symm
    | some r =>
      obtain ⟨front, entry, back⟩ := r
      rw [hsplit] at h
      obtain ⟨rfl, hduplicate⟩ := splitFirst_eq_some hsplit
      have hmem : entry ∈ front ++ entry :: back := by simp
      have hkey := (isDuplicate_iff (hcore.complete entry hmem)).mp hduplicate
      dsimp only at h
      split_ifs at h with hpid
      · cases h
        exact .waits hmem hkey hpid
      · obtain ⟨⟨entry', hash'⟩, hrenew, rfl⟩ := map_eq_some_iff.mp h
        exact .renewed rfl hkey hpid hrenew

/-- What becomes of the hash when a block is started, and for what time it is. -/
inductive Counted (rot : List Int32) (hash : Option RepeatedHash) (rkey : Bytes) :
    Int32 → Option RepeatedHash → Prop
  | off (timeout_value : Int32) : hash = none → Counted rot hash rkey timeout_value none
  | first {table : RepeatedHash} (timeout_value : Int32) :
      hash = some table → table rkey = none →
      Counted rot hash rkey timeout_value (some (table.store rkey (some (lit "0"))))
  | again {table : RepeatedHash} {ntimes : Bytes} {timeout : Int32} {stored : Option Bytes} :
      hash = some table → table rkey = some ntimes →
      offenderTimeout rot ntimes = some (timeout, stored) →
      Counted rot hash rkey timeout (some (table.store rkey stored))

/-- What `ExecdStart` does for a command that is to be executed. -/
structure Executed (rot : List Int32) (s : State) (command : Bytes) (args : List Bytes)
    (timeout_value : Int32) (curr_time : ℤ) (new : List Event) (s' : State) : Prop where
  children : ∃ pid, 0 < pid ∧ (∀ job ∈ jobs s.children, job.1 ≠ pid) ∧
    s'.children = s.children ++ [{ pid := pid, cmd := cmdArgs command args }]
  childcount : s'.childcount = s.childcount + 1
  waiting : s'.waiting = s.waiting
  listed : (timeout_value = 0 ∧ new = [.add (cmdArgs command args) timeout_value] ∧
      s'.timeout_list = s.timeout_list ∧ s'.repeated_hash = s.repeated_hash) ∨
    ∃ time_to_block,
      new = [.add (cmdArgs command args) timeout_value,
        .blocks (timeoutArgs command args) time_to_block] ∧
      s'.timeout_list = s.timeout_list ++
        [{ command := timeoutArgs command args, time_of_addition := curr_time, time_to_block }] ∧
      Counted rot s.repeated_hash (rkey command (args.getD 0 []) (args.getD 1 [])) time_to_block
        s'.repeated_hash

theorem execute_spec {s s' : State} {rot : List Int32} {timeout_value : Int32} {curr_time : ℤ}
    {forks : List ℤ} {new : List Event}
    (h : s.execute rot command args timeout_value curr_time forks = some (new, s')) :
    Executed rot s command args timeout_value curr_time new s' := by
  rw [State.execute] at h
  obtain ⟨⟨pid, procs⟩, hexec, h⟩ := bind_eq_some_iff.mp h
  obtain ⟨hpid, hfree, hchildren⟩ := execCmd_spec hexec
  dsimp only at h hfree hchildren
  split at h
  case isTrue hzero =>
    cases h
    exact ⟨⟨pid, hpid, hfree, hchildren⟩, rfl, rfl, .inl ⟨hzero, rfl, rfl, rfl⟩⟩
  case isFalse =>
    split at h
    case h_1 hnone =>
      cases h
      exact ⟨⟨pid, hpid, hfree, hchildren⟩, rfl, rfl, .inr ⟨_, rfl, rfl, .off _ hnone⟩⟩
    case h_2 hash hsome =>
      split at h
      case h_1 hnew =>
        cases h
        exact ⟨⟨pid, hpid, hfree, hchildren⟩, rfl, rfl, .inr ⟨_, rfl, rfl, .first _ hsome hnew⟩⟩
      case h_2 ntimes hold =>
        obtain ⟨⟨timeout, stored⟩, htimeout, heq⟩ := map_eq_some_iff.mp h
        cases heq
        exact ⟨⟨pid, hpid, hfree, hchildren⟩, rfl, rfl,
          .inr ⟨_, rfl, rfl, .again hsome hold htimeout⟩⟩

/-! ## Steps -/

section Steps

variable {rot : List Int32} {s s' : State} {new : List Event} {timeout_value : Int32}
  {curr_time : ℤ}

theorem Inv.law (h : Inv past s) : Law s where
  unique := h.core.unique
  one_delete k := by
    have hpids : UniqueKeys Child.pid s.children := by
      have h' := h.core.pids
      rwa [UniqueKeys, jobs, List.map_map] at h'
    refine hpids.length_filter_le_one fun child hchild child' hchild' hd hd' => ?_
    obtain ⟨hdelete, hkey⟩ := of_decide_eq_true hd
    obtain ⟨hdelete', hkey'⟩ := of_decide_eq_true hd'
    have hsame := h.core.delete_unique (mem_map_of_mem hchild) (mem_map_of_mem hchild')
      hdelete hdelete' (hkey.trans hkey'.symm)
    exact (Prod.mk.inj hsame).1
  childcount := h.childcount

theorem key_cmdArgs (command : Bytes) (args : List Bytes) :
    key (cmdArgs command args) = key (timeoutArgs command args) := rfl

theorem StepLaw.of_kept (hadd : ∀ cmd timeout_value, .add cmd timeout_value ∉ new)
    (hdelete : ∀ cmd now, .delete cmd now ∉ new)
    (hkept : ∀ entry ∈ s.timeout_list, ∃ entry' ∈ s'.timeout_list,
      entry'.command = entry.command ∧
        (0 < entry.delete_pid → entry'.delete_pid = entry.delete_pid)) :
    StepLaw past s new s' where
  listed _ _ hmem := absurd hmem (hadd _ _)
  alone _ _ hmem := absurd hmem (hadd _ _)
  due _ _ hmem := absurd hmem (hdelete _ _)
  kept entry hmem := .inl (hkept entry hmem)

namespace Executed

theorem eq_of_mem (h : Executed rot s command args timeout_value curr_time new s')
    {cmd : List Bytes} {t : Int32} (hmem : .add cmd t ∈ new) :
    cmd = cmdArgs command args ∧ t = timeout_value := by
  rcases h.listed with ⟨-, rfl, -⟩ | ⟨_, rfl, -⟩ <;> simpa using hmem

theorem no_delete (h : Executed rot s command args timeout_value curr_time new s')
    (cmd : List Bytes) (now : ℤ) : .delete cmd now ∉ new := by
  rcases h.listed with ⟨-, rfl, -⟩ | ⟨_, rfl, -⟩ <;> simp

theorem no_request (h : Executed rot s command args timeout_value curr_time new s')
    (k : Option Bytes × Option Bytes × Option Bytes) : ∀ e ∈ new, e.requestTime k = none := by
  rcases h.listed with ⟨-, rfl, -⟩ | ⟨_, rfl, -⟩ <;> simp [Event.requestTime]

theorem jobs_eq (h : Executed rot s command args timeout_value curr_time new s') :
    ∃ pid, 0 < pid ∧ (∀ job ∈ jobs s.children, job.1 ≠ pid) ∧
      jobs s'.children = jobs s.children ++ [(pid, cmdArgs command args)] := by
  obtain ⟨pid, hpid, hfree, hchildren⟩ := h.children
  refine ⟨pid, hpid, hfree, ?_⟩
  rw [hchildren, jobs_append]
  rfl

theorem kept (h : Executed rot s command args timeout_value curr_time new s') :
    s.timeout_list ⊆ s'.timeout_list := by
  rcases h.listed with ⟨-, -, hlist, -⟩ | ⟨_, -, hlist, -⟩
  · rw [hlist]
    exact List.Subset.refl _
  · rw [hlist]
    exact subset_append_left _ _

theorem core (h : Executed rot s command args timeout_value curr_time new s')
    (hcore : Core past s.timeout_list (jobs s.children))
    (hfresh : ∀ entry ∈ s.timeout_list, entry.key ≠ key (timeoutArgs command args))
    (hcomplete : ∃ user ip rest, args = user :: ip :: rest)
    (hlast : lastRequest (key (timeoutArgs command args)) past = some curr_time) :
    Core (past ++ new) s'.timeout_list (jobs s'.children) := by
  obtain ⟨pid, hpid, hfree, hjobs⟩ := h.jobs_eq
  have hpast : ∀ k, lastRequest k (past ++ new) = lastRequest k past := fun k =>
    lastRequest_append (h.no_request k)
  have hadd : Core (past ++ new) s.timeout_list (jobs s'.children) := by
    rw [hjobs]
    exact (hcore.congr_past _ fun entry _ _ => hpast entry.key).add hpid hfree
  rcases h.listed with ⟨-, -, hlist, -⟩ | ⟨time_to_block, -, hlist, -⟩
  · rw [hlist]
    exact hadd
  · rw [hlist]
    obtain ⟨user, ip, rest, hargs⟩ := hcomplete
    exact hadd.concat hfresh ⟨command, user, ip, rest, by rw [hargs]⟩ (lt_irrefl 0)
      ((hpast _).trans hlast)

/-- A command that is run for some time is listed, and no "delete" with its key is there. -/
theorem stepLaw (h : Executed rot s command args timeout_value curr_time new s')
    (hcore : Core past s.timeout_list (jobs s.children))
    (hfresh : ∀ entry ∈ s.timeout_list, entry.key ≠ key (timeoutArgs command args))
    (hcore' : Core (past ++ new) s'.timeout_list (jobs s'.children)) : StepLaw past s new s' where
  listed cmd t hmem ht := by
    obtain ⟨rfl, rfl⟩ := h.eq_of_mem hmem
    rcases h.listed with ⟨hzero, -, -, -⟩ | ⟨time_to_block, -, hlist, -⟩
    · exact absurd hzero ht
    · obtain ⟨entry, hlist, hcmd⟩ : ∃ entry : TimeoutData,
          s'.timeout_list = s.timeout_list ++ [entry] ∧
            entry.command = timeoutArgs command args := ⟨_, hlist, rfl⟩
      have hentry : entry ∈ s'.timeout_list := by
        rw [hlist]
        exact mem_append_right _ (mem_singleton_self entry)
      have hkey : key (cmdArgs command args) = entry.key := by
        rw [key_cmdArgs, TimeoutData.key, hcmd]
      rw [hkey]
      exact ⟨entry, hcore'.unique.filter_eq hentry, hcmd⟩
  alone cmd t hmem child hchild hdelete := by
    obtain ⟨rfl, rfl⟩ := h.eq_of_mem hmem
    obtain ⟨pid, -, -, hchildren⟩ := h.children
    rw [hchildren] at hchild
    rcases mem_append.mp hchild with hchild | hchild
    · exact hcore.key_ne_of_delete hfresh (child.pid, child.cmd) (mem_map_of_mem hchild) hdelete
    · rw [mem_singleton.mp hchild] at hdelete
      exact absurd (some.inj hdelete) (by decide)
  due cmd now hmem := absurd hmem (h.no_delete cmd now)
  kept entry hmem := .inl ⟨entry, h.kept hmem, rfl, fun _ => rfl⟩

end Executed

/-! ### What a step does -/

/-- What a step does, with the events it puts out. -/
inductive Does (rot : List Int32) (s : State) : List Event → State → Prop
  | exit (pid : ℤ) : Does rot s [] { s with
      children := s.children.map fun child =>
        if child.pid = pid then { child with exited := true } else child }
  | reap {child : Child} : s.waiting = none → child ∈ s.children → child.exited = true →
      Does rot s [.reaped child.pid] { s with
        children := s.children.filter fun c => c.pid ≠ child.pid
        childcount := s.childcount - 1
        timeout_list := s.timeout_list.filter fun entry => entry.delete_pid ≠ child.pid }
  | tick {now : ℤ} {forks : List ℤ} {started timeout_list : List TimeoutData}
      {procs : Processes} : s.waiting = none →
      execdTimeoutLaunchDeletes now s.timeout_list { children := s.children, forks } =
        some (started, timeout_list, procs) →
      Does rot s (started.map fun entry => .delete entry.command now) { s with
        timeout_list, children := procs.children, childcount := s.childcount + started.length }
  /-- A message is ignored, or its request is incomplete. -/
  | ignore (config : List ExecConfig) : Does rot s [] { s with config }
  | renew {command : Bytes} {args : List Bytes} {curr_time : ℤ} {front back : List TimeoutData}
      {entry entry' : TimeoutData} {hash : Option RepeatedHash} (config : List ExecConfig) :
      s.waiting = none → (∃ user ip rest, args = user :: ip :: rest) →
      s.timeout_list = front ++ entry :: back → entry.key = key (timeoutArgs command args) →
      ¬0 < entry.delete_pid →
      renewEntry rot (timeoutArgs command args) curr_time s.repeated_hash entry =
        some (entry', hash) →
      Does rot s [.request (timeoutArgs command args) curr_time,
          .blocks (timeoutArgs command args) entry'.time_to_block] { s with
        config, timeout_list := front ++ entry' :: back, repeated_hash := hash }
  | wait {command : Bytes} {args : List Bytes} {timeout_value : Int32} {curr_time : ℤ}
      {entry : TimeoutData} (config : List ExecConfig) :
      s.waiting = none → (∃ user ip rest, args = user :: ip :: rest) →
      entry ∈ s.timeout_list → entry.key = key (timeoutArgs command args) →
      0 < entry.delete_pid →
      Does rot s [.request (timeoutArgs command args) curr_time] { s with
        config
        waiting := some
          { command, args, timeout_value, curr_time, delete_pid := entry.delete_pid } }
  | add {command : Bytes} {args : List Bytes} {timeout_value : Int32} {curr_time : ℤ}
      {new : List Event} {s' : State} (config : List ExecConfig) :
      s.waiting = none → (∃ user ip rest, args = user :: ip :: rest) →
      (∀ entry ∈ s.timeout_list, entry.key ≠ key (timeoutArgs command args)) →
      Executed rot { s with config } command args timeout_value curr_time new s' →
      Does rot s (.request (timeoutArgs command args) curr_time :: new) s'
  | resume {w : Waiting} {child : Child} {new : List Event} {s' : State} :
      s.waiting = some w → child ∈ s.children → child.pid = w.delete_pid → child.exited = true →
      (∀ entry ∈ s.timeout_list.filter (fun entry => entry.delete_pid ≠ w.delete_pid),
        entry.key ≠ key (timeoutArgs w.command w.args)) →
      Executed rot { s with
        children := s.children.filter fun c => c.pid ≠ w.delete_pid
        childcount := s.childcount - 1
        timeout_list := s.timeout_list.filter fun entry => entry.delete_pid ≠ w.delete_pid
        waiting := none } w.command w.args w.timeout_value w.curr_time new s' →
      Does rot s (.reaped w.delete_pid :: new) s'

/-- A message whose command is known. -/
theorem Inv.does_request {forks : List ℤ} (h : Inv past s) (hwaiting : s.waiting = none)
    (config : List ExecConfig)
    (hreq : { s with config }.request rot command args timeout_value curr_time forks =
      some (new, s')) : Does rot s new s' := by
  rw [State.request] at hreq
  obtain ⟨result, hdup, hreq⟩ := bind_eq_some_iff.mp hreq
  rcases h.core.execdTimeoutDupCheck_spec hdup with rfl | ⟨hargs, hfound⟩
  · cases hreq
    exact .ignore config
  · cases hfound with
    | renewed hlist hkey hidle hrenew =>
      cases hreq
      exact .renew config hwaiting hargs hlist hkey hidle hrenew
    | waits hmem hkey hpid =>
      cases hreq
      exact .wait config hwaiting hargs hmem hkey hpid
    | absent hnone =>
      obtain ⟨⟨events, s₁⟩, hexec, heq⟩ := map_eq_some_iff.mp hreq
      cases heq
      exact .add config hwaiting hargs hnone (execute_spec hexec)

theorem Inv.does_message {inet : Inet} {buffer : Bytes} {reload : List ExecConfig}
    {forks : List ℤ} (h : Inv past s) (hwaiting : s.waiting = none)
    (hmsg : s.message inet rot buffer now reload forks = some (new, s')) : Does rot s new s' := by
  rw [State.message] at hmsg
  split at hmsg
  case h_1 =>
    cases hmsg
    exact .ignore s.config
  case h_2 name tmp_msg _ =>
    obtain ⟨config, hconfig⟩ : ∃ config, (if getCommandbyName s.config name = none then
        { s with config := reload } else s) = { s with config } := by
      split_ifs
      · exact ⟨reload, rfl⟩
      · exact ⟨s.config, rfl⟩
    rw [hconfig] at hmsg
    dsimp only at hmsg
    split at hmsg
    case h_1 =>
      cases hmsg
      exact .ignore config
    case h_2 =>
      split_ifs at hmsg
      · cases hmsg
        exact .ignore config
      · exact h.does_request hwaiting config hmsg

/-- The entry that a request waits for is the one that it is found to duplicate. -/
theorem Inv.remove_waited (h : Inv past s) {w : Waiting} (hw : s.waiting = some w) :
    ((splitFirst (isDuplicate (timeoutArgs w.command w.args)) s.timeout_list).elim
      s.timeout_list fun (front, _, back) => front ++ back) =
      s.timeout_list.filter (fun entry => entry.delete_pid ≠ w.delete_pid) ∧
    ∀ entry ∈ s.timeout_list.filter (fun entry => entry.delete_pid ≠ w.delete_pid),
      entry.key ≠ key (timeoutArgs w.command w.args) := by
  have hwaits := h.waits w hw
  obtain ⟨entry, hmem, hkey, hpid⟩ := hwaits.entry
  have hduplicate := (isDuplicate_iff (h.core.complete entry hmem)).mpr hkey
  obtain ⟨front, entry', back, hsplit⟩ := exists_splitFirst hmem hduplicate
  obtain ⟨hlist, hduplicate'⟩ := splitFirst_eq_some hsplit
  have hmem' : entry' ∈ s.timeout_list := by
    rw [hlist]
    exact mem_append_right _ mem_cons_self
  have hkey' := (isDuplicate_iff (h.core.complete entry' hmem')).mp hduplicate'
  obtain rfl := h.core.unique.eq_of_key_eq hmem' hmem (hkey'.trans hkey.symm)
  have hcore := h.core
  rw [hlist] at hcore
  have hfilter := hcore.filter_delete_pid (hpid ▸ hwaits.positive)
  rw [hpid, ← hlist] at hfilter
  rw [hsplit, hfilter]
  refine ⟨rfl, fun e he heq => ?_⟩
  exact hcore.unique.ne_of_mem he (heq.trans hkey.symm)

/-- A daemon that waits in `ExecdTimeoutDupCheck` is not in its main loop. -/
theorem eq_none_of_waiting {α : Type} {waiting : Option Waiting} {result : Option α} {r : α}
    (h : (match waiting with
      | some _ => none
      | none => result) = some r) : waiting = none ∧ result = some r := by
  cases waiting with
  | some w => exact absurd h (some_ne_none r).symm
  | none => exact ⟨rfl, h⟩

theorem Inv.does {inet : Inet} {input : Input} (h : Inv past s)
    (hstep : Step inet rot s (input, new) s') : Does rot s new s' := by
  rw [Step] at hstep
  cases input with
  | exit pid =>
    cases hstep
    exact .exit pid
  | reap pid =>
    obtain ⟨hwaiting, hstep⟩ := eq_none_of_waiting hstep
    split_ifs at hstep with hreap
    obtain ⟨-, child, hchild, rfl, hexited⟩ := hreap
    cases hstep
    rw [h.core.execdTimeoutReapDelete_eq (h.core.positive _ (mem_map_of_mem hchild))]
    exact .reap hwaiting hchild hexited
  | tick now forks =>
    obtain ⟨hwaiting, hstep⟩ := eq_none_of_waiting hstep
    obtain ⟨⟨started, timeout_list, procs⟩, hlaunch, heq⟩ := map_eq_some_iff.mp hstep
    cases heq
    exact .tick hwaiting hlaunch
  | message buffer now reload forks =>
    obtain ⟨hwaiting, hstep⟩ := eq_none_of_waiting hstep
    exact h.does_message hwaiting hstep
  | resume forks =>
    obtain ⟨w, hw, hstep⟩ := bind_eq_some_iff.mp hstep
    -- the "delete" is there, so that `waitpid` returns its pid
    obtain ⟨entry, hentry, -, hpid⟩ := (h.waits w hw).entry
    have hjob := h.core.started entry hentry (hpid ▸ (h.waits w hw).positive)
    obtain ⟨child, hchild, hsame⟩ := mem_map.mp hjob
    have hgot : (s.children.any fun child => child.pid = w.delete_pid) = true :=
      any_eq_true.mpr ⟨child, hchild, decide_eq_true ((Prod.mk.inj hsame).1.trans hpid)⟩
    obtain ⟨hlist, hfresh⟩ := h.remove_waited hw
    rw [hgot, hlist] at hstep
    dsimp only at hstep
    split at hstep
    case isTrue => exact absurd hstep (some_ne_none _).symm
    case isFalse hrunning =>
      obtain ⟨child, hchild, hpid, hexited⟩ := not_not.mp fun hnot => hrunning ⟨rfl, hnot⟩
      obtain ⟨⟨events, s₁⟩, hexec, heq⟩ := map_eq_some_iff.mp hstep
      cases heq
      exact .resume hw hchild hpid hexited hfresh (execute_spec hexec)

/-! ### What it keeps -/

theorem jobs_filter (children : List Child) (pid : ℤ) :
    jobs (children.filter fun child => child.pid ≠ pid) =
      (jobs children).filter fun job => job.1 ≠ pid := by
  rw [jobs, jobs, List.filter_map]
  rfl

theorem jobs_exit (children : List Child) (pid : ℤ) :
    jobs (children.map fun child =>
      if child.pid = pid then { child with exited := true } else child) = jobs children := by
  rw [jobs, jobs, List.map_map]
  refine map_congr_left fun child _ => ?_
  rw [Function.comp_apply]
  split_ifs <;> rfl

theorem not_waits (hwaiting : s.waiting = none) (w : Waiting) : s.waiting ≠ some w := by
  rw [hwaiting]
  exact (some_ne_none w).symm

theorem Inv.reaped (h : Inv past s) {child : Child} (hchild : child ∈ s.children) :
    Core past (s.timeout_list.filter fun entry => entry.delete_pid ≠ child.pid)
        (jobs (s.children.filter fun c => c.pid ≠ child.pid)) ∧
      (s.children.filter fun c => c.pid ≠ child.pid).length + 1 = s.children.length := by
  have hpids : UniqueKeys Child.pid s.children := by
    have hjobs := h.core.pids
    rwa [UniqueKeys, jobs, List.map_map] at hjobs
  refine ⟨?_, hpids.length_filter_ne hchild⟩
  rw [jobs_filter]
  exact h.core.reap child.pid

/-- An entry is there after the "delete" of another one is reaped, or that was its own. -/
theorem Inv.kept_reaped (h : Inv past s) {child : Child} (hchild : child ∈ s.children)
    (hexited : child.exited = true) (hreaped : .reaped child.pid ∈ new)
    (hlist : (s.timeout_list.filter fun entry => entry.delete_pid ≠ child.pid) ⊆ s'.timeout_list) :
    ∀ entry ∈ s.timeout_list,
      (∃ entry' ∈ s'.timeout_list, entry'.command = entry.command ∧
        (0 < entry.delete_pid → entry'.delete_pid = entry.delete_pid)) ∨
      (.reaped entry.delete_pid ∈ new ∧ ∃ child ∈ s.children, child.pid = entry.delete_pid ∧
        child.cmd = entry.command ∧ child.exited = true) := by
  intro entry hmem
  by_cases hpid : entry.delete_pid = child.pid
  · have hjob : (child.pid, child.cmd) ∈ jobs s.children := mem_map_of_mem hchild
    have hpos := h.core.positive _ hjob
    have hsame := h.core.pids.eq_of_key_eq (h.core.started entry hmem (hpid ▸ hpos)) hjob hpid
    exact .inr ⟨hpid ▸ hreaped, child, hchild, hpid.symm, (Prod.mk.inj hsame).2.symm, hexited⟩
  · exact .inl ⟨entry, hlist (mem_filter.mpr ⟨hmem, decide_eq_true hpid⟩), rfl, fun _ => rfl⟩

/-- A request is noted, and the requests for other keys are as they were. -/
theorem lastRequest_other {e : TimeoutData} {timeout_args : List Bytes} {rest : List Event}
    (hne : e.key ≠ key timeout_args) (hrest : ∀ e' ∈ rest, e'.requestTime e.key = none) :
    lastRequest e.key (past ++ .request timeout_args curr_time :: rest) =
      lastRequest e.key past := by
  refine lastRequest_append fun e' he' => ?_
  rcases mem_cons.mp he' with rfl | he'
  · exact if_neg hne.symm
  · exact hrest e' he'

theorem lastRequest_self {timeout_args : List Bytes} {rest : List Event}
    (hrest : ∀ e' ∈ rest, e'.requestTime (key timeout_args) = none) :
    lastRequest (key timeout_args) (past ++ .request timeout_args curr_time :: rest) =
      some curr_time := by
  rw [append_cons, lastRequest_append hrest, lastRequest_concat]

/-- Every step keeps the invariant, and the law holds of it. -/
theorem Inv.step {inet : Inet} {l : Input × List Event} (h : Inv past s)
    (hstep : Step inet rot s l s') : Inv (past ++ l.2) s' ∧ StepLaw past s l.2 s' := by
  obtain ⟨input, new⟩ := l
  cases h.does hstep with
  | exit pid =>
    rw [append_nil]
    refine ⟨⟨?_, ?_, h.waits⟩,
      .of_kept (by simp) (by simp) fun entry hmem => ⟨entry, hmem, rfl, fun _ => rfl⟩⟩
    · dsimp only
      rw [jobs_exit]
      exact h.core
    · dsimp only
      rw [length_map, h.childcount]
  | @reap child hwaiting hchild hexited =>
    obtain ⟨hcore, hlength⟩ := h.reaped hchild
    refine ⟨⟨?_, ?_, fun w hw => absurd hw (not_waits hwaiting w)⟩, ?_⟩
    · exact hcore.congr_past _ fun entry _ _ => lastRequest_append (by simp [Event.requestTime])
    · have hcount := h.childcount
      dsimp only
      omega
    · constructor
      case listed => exact fun _ _ hmem => absurd hmem (by simp)
      case alone => exact fun _ _ hmem => absurd hmem (by simp)
      case due => exact fun _ _ hmem => absurd hmem (by simp)
      case kept => exact h.kept_reaped hchild hexited (by simp) (List.Subset.refl _)
  | @tick now forks started timeout_list procs hwaiting hlaunch =>
    obtain ⟨hcore, hlaunched⟩ := execdTimeoutLaunchDeletes_spec [] hlaunch h.core
    refine ⟨⟨?_, ?_, fun w hw => absurd hw (not_waits hwaiting w)⟩, ?_⟩
    · exact hcore.congr_past _ fun entry _ _ => lastRequest_append (by simp [Event.requestTime])
    · dsimp only
      rw [hlaunched.length, h.childcount]
    · constructor
      case listed => exact fun _ _ hmem => absurd hmem (by simp)
      case alone => exact fun _ _ hmem => absurd hmem (by simp)
      case due =>
        intro cmd t hmem
        obtain ⟨entry, hentry, heq⟩ := mem_map.mp hmem
        obtain ⟨rfl, rfl⟩ := Event.delete.inj heq
        obtain ⟨entry', hentry', hcmd, hdue⟩ := hlaunched.due entry hentry
        obtain ⟨hidle, htime⟩ := Bool.and_eq_true_iff.mp hdue
        have hidle := not_lt.mpr (of_decide_eq_true hidle)
        refine ⟨entry', hentry', hcmd, hidle, entry'.time_of_addition, ?_, of_decide_eq_true htime⟩
        rw [← hcmd]
        exact h.core.last entry' hentry' hidle
      case kept => exact fun entry hmem => .inl (hlaunched.kept entry hmem)
  | ignore config =>
    rw [append_nil]
    exact ⟨⟨h.core, h.childcount, h.waits⟩,
      .of_kept (by simp) (by simp) fun entry hmem => ⟨entry, hmem, rfl, fun _ => rfl⟩⟩
  | @renew command args curr_time front back entry entry' hash config hwaiting _ hlist hkey hidle
      hrenew =>
    obtain ⟨hcmd, hpid, htime⟩ := renewEntry_spec hrenew
    have hkey' : entry'.key = key (timeoutArgs command args) := by
      rw [← hkey, TimeoutData.key, TimeoutData.key, hcmd]
    refine ⟨⟨?_, h.childcount, fun w hw => absurd hw (not_waits hwaiting w)⟩,
      .of_kept (by simp) (by simp) fun e he => ?_⟩
    · have hcore := h.core
      rw [hlist] at hcore
      refine hcore.replace _ hidle hcmd hcore.pids hcore.positive (List.Subset.refl _)
        (fun hpos => absurd (hpid ▸ hpos) hidle) (fun job hjob => .inl hjob)
        (fun e he => ?_) fun _ => ?_
      · refine lastRequest_other (fun heq => ?_) (by simp [Event.requestTime])
        exact hcore.unique.ne_of_mem he (heq.trans hkey.symm)
      · rw [hkey', htime, lastRequest_self (by simp [Event.requestTime])]
    · dsimp only
      rw [hlist] at he
      rcases mem_append.mp he with he | he
      · exact ⟨e, mem_append_left _ he, rfl, fun _ => rfl⟩
      · rcases mem_cons.mp he with rfl | he
        · exact ⟨entry', by simp, hcmd, fun _ => hpid⟩
        · exact ⟨e, mem_append_right _ (mem_cons_of_mem _ he), rfl, fun _ => rfl⟩
  | @wait command args timeout_value curr_time entry config _ hargs hmem hkey hpid =>
    refine ⟨⟨h.core.congr_past _ fun e he hidle => ?_, h.childcount, fun w hw => ?_⟩,
      .of_kept (by simp) (by simp) fun e he => ⟨e, he, rfl, fun _ => rfl⟩⟩
    · -- the entry that the request is for has its "delete" running
      refine lastRequest_other (fun heq => hidle ?_) (by simp)
      rw [h.core.unique.eq_of_key_eq he hmem (heq.trans hkey.symm)]
      exact hpid
    · cases hw
      exact ⟨hargs, ⟨entry, hmem, hkey, rfl⟩, hpid, lastRequest_concat _ _ _⟩
  | @add command args timeout_value curr_time new s' config hwaiting hargs hfresh hexecuted =>
    have hcore := h.core.congr_past (past ++ [.request (timeoutArgs command args)
      curr_time]) fun entry hmem _ => lastRequest_other (hfresh entry hmem) (by simp)
    have hcore' := hexecuted.core hcore hfresh hargs (lastRequest_concat _ _ _)
    have hlaw := hexecuted.stepLaw hcore hfresh hcore'
    rw [append_assoc, singleton_append] at hcore'
    refine ⟨⟨hcore', ?_, fun w hw => absurd hw (not_waits ?_ w)⟩, ?_⟩
    · obtain ⟨pid, -, -, hchildren⟩ := hexecuted.children
      rw [hexecuted.childcount, hchildren, length_append, length_singleton]
      rw [h.childcount]
    · rw [hexecuted.waiting, hwaiting]
    · constructor
      case listed => exact fun cmd t hmem => hlaw.listed cmd t (by simpa using hmem)
      case alone => exact fun cmd t hmem => hlaw.alone cmd t (by simpa using hmem)
      case due => exact fun cmd t hmem => absurd (by simpa using hmem) (hexecuted.no_delete cmd t)
      case kept => exact fun e he => .inl ⟨e, hexecuted.kept he, rfl, fun _ => rfl⟩
  | @resume w child new s' hw hchild hpid hexited hfresh hexecuted =>
    have hwaits := h.waits w hw
    obtain ⟨hcore, hlength⟩ := h.reaped hchild
    rw [hpid] at hcore hlength
    have hpast : ∀ k, lastRequest k (past ++ [.reaped w.delete_pid]) = lastRequest k past :=
      fun k => lastRequest_append (by simp [Event.requestTime])
    have hcore₁ := hcore.congr_past (past ++ [.reaped w.delete_pid])
      fun entry _ _ => hpast entry.key
    have hcore' := hexecuted.core hcore₁ hfresh hwaits.complete ((hpast _).trans hwaits.last)
    have hlaw := hexecuted.stepLaw hcore₁ hfresh hcore'
    rw [append_assoc, singleton_append] at hcore'
    refine ⟨⟨hcore', ?_, fun w' hw' => absurd hw' (not_waits ?_ w')⟩, ?_⟩
    · obtain ⟨pid, -, -, hchildren⟩ := hexecuted.children
      have hcount := h.childcount
      rw [hexecuted.childcount, hchildren, length_append, length_singleton]
      dsimp only
      omega
    · rw [hexecuted.waiting]
    · constructor
      case listed => exact fun cmd t hmem => hlaw.listed cmd t (by simpa using hmem)
      case alone => exact fun cmd t hmem => hlaw.alone cmd t (by simpa using hmem)
      case due => exact fun cmd t hmem => absurd (by simpa using hmem) (hexecuted.no_delete cmd t)
      case kept =>
        refine h.kept_reaped hchild hexited (by simp [hpid]) ?_
        rw [hpid]
        exact hexecuted.kept

theorem inv_init (rot : List Int32) (config : List ExecConfig) : Inv [] (init rot config) where
  core := {
    complete := by simp [init]
    unique := nodup_nil
    pids := nodup_nil
    positive := by simp [init, jobs]
    started := by simp [init]
    deletes := by simp [init, jobs]
    last := by simp [init] }
  childcount := rfl
  waits := by simp [init]

theorem Inv.run {inet : Inet} {rot : List Int32} {ls : List (Input × List Event)} (h : Inv past s)
    (hrun : Run (Step inet rot) s ls s') : Inv (past ++ events ls) s' := by
  induction hrun generalizing past with
  | nil => rwa [events, flatMap_nil, append_nil]
  | cons hstep _ ih =>
    rw [events, flatMap_cons, ← append_assoc]
    exact ih (h.step hstep).1

/-- After the main loop has looked at the clock, no entry waits for its "delete" to be run. -/
theorem none_due_of_tick {inet : Inet} {rot : List Int32} {forks : List ℤ} (h : Inv past s)
    (hstep : Step inet rot s (.tick now forks, new) s') :
    ∀ entry ∈ s'.timeout_list, isDue now entry = false := by
  rw [Step] at hstep
  obtain ⟨-, hstep⟩ := eq_none_of_waiting hstep
  obtain ⟨⟨started, timeout_list, procs⟩, hlaunch, heq⟩ := map_eq_some_iff.mp hstep
  cases heq
  exact (execdTimeoutLaunchDeletes_spec [] hlaunch h.core).2.none_due

theorem exists_run {inet : Inet} {rot : List Int32} {inputs : List Input}
    (h : s.runs inet rot inputs = some (new, s')) :
    ∃ ls, Run (Step inet rot) s ls s' ∧ events ls = new := by
  induction inputs generalizing s new with
  | nil =>
    cases h
    exact ⟨[], .nil _, rfl⟩
  | cons input inputs ih =>
    rw [State.runs] at h
    obtain ⟨⟨first, s₁⟩, hstep, h⟩ := bind_eq_some_iff.mp h
    obtain ⟨⟨rest, s₂⟩, hruns, heq⟩ := map_eq_some_iff.mp h
    cases heq
    obtain ⟨ls, hrun, rfl⟩ := ih hruns
    exact ⟨(input, first) :: ls, .cons hstep hrun, rfl⟩

/-- In every state that can be reached there is one entry at most for a command, a user and an
address, and one "delete"; and in every step from there a command that is added is listed, no
"delete" runs beside it, a "delete" is run when the time since the last request has passed, and
its entry stays until it is reaped. -/
theorem timeout_law {inet : Inet} {rot : List Int32} {config : List ExecConfig}
    {ls : List (Input × List Event)} (hrun : Run (Step inet rot) (init rot config) ls s) :
    Law s ∧
      (∀ l s', Step inet rot s l s' → StepLaw (events ls) s l.2 s') ∧
      ∀ now forks new s', Step inet rot s (.tick now forks, new) s' →
        ∀ entry ∈ s'.timeout_list, isDue now entry = false := by
  have hinv : Inv (events ls) s := (inv_init rot config).run hrun
  exact ⟨hinv.law, fun l s' hstep => (hinv.step hstep).2,
    fun now forks new s' hstep => none_due_of_tick hinv hstep⟩

end Steps

/-- The library as it is for two addresses. -/
def inetTwo : Inet where
  inet_pton ip :=
    if ip = lit "10.0.0.1" then some 0x0a000001
    else if ip = lit "10.0.0.2" then some 0x0a000002
    else none
  inet_pton6 _ := none
  inet_ntop sin_addr := if sin_addr = 0x0a000001 then lit "10.0.0.1" else lit "10.0.0.2"
  inet_ntop6 _ := []

/-- A request that comes while the "delete" for its address is running waits for it. -/
theorem timeout_law_wait :
    let drop : ExecConfig := ⟨lit "drop", lit "/bin/drop", 600⟩
    let args := [lit "-", lit "10.0.0.1"]
    let new := [
      .request (timeoutArgs drop.exec_cmd args) 100,
      .add (cmdArgs drop.exec_cmd args) 600,
      .blocks (timeoutArgs drop.exec_cmd args) 600,
      .delete (timeoutArgs drop.exec_cmd args) 701,
      .request (timeoutArgs drop.exec_cmd args) 702,
      .reaped 8,
      .add (cmdArgs drop.exec_cmd args) 600,
      .blocks (timeoutArgs drop.exec_cmd args) 600]
    ∃ ls s, Run (Step inetTwo [0]) (init [0] [drop]) ls s ∧ Law s ∧ events ls = new := by
  intro drop args new
  have hruns : ((init [0] [drop]).runs inetTwo [0] [
      .message (lit "drop - 10.0.0.1") 100 [] [7],
      .tick 701 [8],
      .message (lit "drop - 10.0.0.1") 702 [] [],
      .exit 8,
      .resume [9]]).map Prod.fst = some new := by decide
  obtain ⟨⟨_, s⟩, hruns, hnew⟩ := map_eq_some_iff.mp hruns
  obtain ⟨ls, hrun, hevents⟩ := exists_run hruns
  exact ⟨ls, s, hrun, (timeout_law hrun).1, hevents.trans hnew⟩

end Execd
