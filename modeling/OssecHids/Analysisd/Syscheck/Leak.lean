import OssecHids.Analysisd.Syscheck.Consistency

/-!
# What an integrity alert tells of other events

The decoder puts its texts together in buffers that it keeps from event to event.

- `text_eq_iff`: the text for an event depends on the stored row and the event alone, unless the
  permissions differ and one of the numbers is not positive.
-/

open CString FimSum Transition List Option Function

namespace Syscheck

/-- The text of an alert. -/
def alertText (alert : Option Alert) : Option Bytes := alert.map Alert.full_log

/-- A change is reported with what has changed. -/
structure ReportsChange (cfg : Config) (lf : Eventinfo) (buf c_sum : Bytes) : Prop where
  differs : savedSum buf ≠ fimSumKeepHashes 6145 (savedSum buf) c_sum
  real : fimSumHasRealChange (savedSum buf) (fimSumKeepHashes 6145 (savedSum buf) c_sum) = true
  noMaintenance : lf.maintenance = false
  decoder : (changeDecoder cfg (changeCount buf)).isSome = true
  notDeleted : isDeleted (fimSumKeepHashes 6145 (savedSum buf) c_sum) = false
  notReadded : isDeleted (savedSum buf) = false

/-- The text about the permissions is one of an earlier event: the file has a row, the change is
reported, the permissions differ, and one of the numbers is not positive. -/
def PrintsOld (cfg : Config) (lf : Eventinfo) (row : Option Bytes) (c_sum : Bytes) : Prop :=
  ∃ buf ∈ row, ReportsChange cfg lf (buf.take 6144) c_sum ∧
    PermStale (pairs (savedSum (buf.take 6144))
      (fimSumKeepHashes 6145 (savedSum (buf.take 6144)) c_sum))

section Text

variable {cfg : Config} {lf : Eventinfo} {f_name c_sum buf : Bytes} {data : Option Bytes}

/-- What a reported change leaves, and its text. -/
theorem ReportsChange.eq (h : ReportsChange cfg lf buf c_sum) (f_name : Bytes)
    (data : Option Bytes) (fp : Bytes) (sdb : Texts) (pos : ℕ) :
    let p := pairs (savedSum buf) (fimSumKeepHashes 6145 (savedSum buf) c_sum)
    let found := dbProcessFoundEntry cfg f_name c_sum lf data fp sdb buf pos
    found.sdb = changeTexts sdb p ∧
      alertText found.alert = some (changeComment (changeTexts sdb p) f_name data) := by
  obtain ⟨hdiffers, hreal, hmaintenance, hdecoder, hdeleted, hreadded⟩ := h
  obtain ⟨dec, hdec⟩ := isSome_iff_exists.mp hdecoder
  intro p found
  have hfound : found = dbProcessFoundEntry cfg f_name c_sum lf data fp sdb buf pos := rfl
  rw [dbProcessFoundEntry] at hfound
  dsimp only at hfound
  rw [if_neg hdiffers, hreal, hmaintenance, hdec] at hfound
  rw [hfound]
  dsimp only [changeAlert]
  rw [hdeleted, hreadded]
  exact ⟨rfl, rfl⟩

/-- Where no old text is printed, the text depends on the row and the event. -/
theorem alertText_found_eq (hnot : ¬ PrintsOld cfg lf (some buf) c_sum)
    (fp fp' : Bytes) (sdb sdb' : Texts) (pos pos' : ℕ) :
    alertText (dbProcessFoundEntry cfg f_name c_sum lf data fp sdb (buf.take 6144) pos).alert =
      alertText
        (dbProcessFoundEntry cfg f_name c_sum lf data fp' sdb' (buf.take 6144) pos').alert := by
  by_cases hreports : ReportsChange cfg lf (buf.take 6144) c_sum
  · have hstale : ¬ PermStale (pairs (savedSum (buf.take 6144))
        (fimSumKeepHashes 6145 (savedSum (buf.take 6144)) c_sum)) := fun hstale =>
      hnot ⟨buf, rfl, hreports, hstale⟩
    rw [(hreports.eq f_name data fp sdb pos).2, (hreports.eq f_name data fp' sdb' pos').2,
      changeTexts_eq hstale sdb sdb']
  · generalize buf.take 6144 = buf at hreports
    rw [dbProcessFoundEntry, dbProcessFoundEntry]
    dsimp only
    split
    · rfl
    case isFalse hdiffers =>
      split
      · rfl
      case isFalse hreal =>
        split
        · rfl
        case isFalse hmaintenance =>
          cases hdec : changeDecoder cfg (changeCount buf) with
          | none => rfl
          | some dec =>
            dsimp only [changeAlert]
            split
            · rfl
            case isFalse hdeleted =>
              split
              · rfl
              case isFalse hreadded =>
                refine absurd ⟨hdiffers, by simpa using hreal, by simpa using hmaintenance, ?_,
                  by simpa using hdeleted, by simpa using hreadded⟩ hreports
                rw [hdec]
                rfl

theorem alertText_add_eq (cfg : Config) (f_name c_sum : Bytes) (lf : Eventinfo)
    (agent agent' : Agent) (sdb sdb' : Texts) :
    alertText (dbAddEntry cfg f_name c_sum lf agent sdb).alert =
      alertText (dbAddEntry cfg f_name c_sum lf agent' sdb').alert := by
  rw [dbAddEntry, dbAddEntry]
  split
  · rfl
  · split
    · rfl
    · rfl

end Text

/-! ## Indexes -/

/-- Every entry of an index has a prefix. -/
def IndexOk (index : Index) : Prop := ∀ f_name, ∀ e ∈ index f_name, e.prefix_sum.isSome = true

/-- The index of an agent is complete, if there is one. -/
structure AgentOk (agent : Agent) : Prop where
  complete : agent.index_incomplete = false
  index : ∀ index ∈ agent.index, IndexOk index

section Index

variable {cfg : Config} {lf : Eventinfo} {f_name c_sum : Bytes} {data : Option Bytes}
  {sdb : Texts} {agent : Agent}

theorem IndexOk.update {index : Index} (h : IndexOk index) {e : Entry}
    (he : e.prefix_sum.isSome = true) (f_name : Bytes) :
    IndexOk (Function.update index f_name (some e)) := by
  intro k e' he'
  by_cases hk : k = f_name
  · rw [hk, update_self] at he'
    obtain rfl := some.inj he'
    exact he
  · rw [update_of_ne hk] at he'
    exact h k e' he'

theorem indexOk_dbBuildIndex (fp : Bytes) : IndexOk (dbBuildIndex fp) := by
  have hfold : ∀ (lines : List Bytes) (state : ℕ × Index), IndexOk state.2 →
      IndexOk (lines.foldl dbBuildStep state).2 := by
    intro lines
    induction lines with
    | nil => exact fun _ h => h
    | cons line lines ih =>
      intro state h
      apply ih
      rw [dbBuildStep]
      cases dbParseEntryFilename line with
      | none => exact h
      | some row => exact h.update rfl row.2
  exact hfold _ _ fun _ e he => absurd he (by simp)

theorem AgentOk.build_index (h : AgentOk agent) :
    IndexOk (agent.index.getD (dbBuildIndex agent.file)) := by
  cases hindex : agent.index with
  | none => exact indexOk_dbBuildIndex agent.file
  | some index => exact h.index index hindex

/-- With a complete index, what the decoder makes of an event depends on the stored prefix. -/
theorem AgentOk.dbSearch (h : AgentOk agent) (cfg : Config) (f_name c_sum : Bytes)
    (lf : Eventinfo) (data : Option Bytes) (sdb : Texts) :
    (storedPrefix agent f_name = none ∧
        dbSearch cfg f_name c_sum lf data agent.build sdb =
          dbAddEntry cfg f_name c_sum lf agent.build sdb) ∨
      ∃ pos buf, storedPrefix agent f_name = some buf ∧
        dbSearch cfg f_name c_sum lf data agent.build sdb =
          dbProcessFoundEntry cfg f_name c_sum lf data agent.file sdb (buf.take 6144) pos := by
  have hcomplete : agent.build.index_incomplete = false := h.complete
  have hentry : agent.build.index.bind (fun index => index f_name) =
      agent.index.getD (dbBuildIndex agent.file) f_name := rfl
  have hbuilt : agent.build.index.isNone = false := rfl
  have hok := h.build_index f_name
  rw [storedPrefix, Syscheck.dbSearch, hentry]
  cases he : agent.index.getD (dbBuildIndex agent.file) f_name with
  | none =>
    left
    rw [hbuilt, hcomplete]
    exact ⟨rfl, rfl⟩
  | some e =>
    obtain ⟨pos, prefix_sum⟩ := e
    cases prefix_sum with
    | none => exact absurd (hok _ he) Bool.false_ne_true
    | some buf => exact .inr ⟨pos, buf, rfl, rfl⟩

/-- The agent after an event. -/
theorem AgentOk.store (h : AgentOk agent) (cfg : Config) (f_name c_sum : Bytes)
    (lf : Eventinfo) (data : Option Bytes) (sdb : Texts) :
    AgentOk (agent.build.store f_name
      (Syscheck.dbSearch cfg f_name c_sum lf data agent.build sdb)) := by
  refine ⟨h.complete, fun index hindex => ?_⟩
  have hset : setEntry (some (agent.index.getD (dbBuildIndex agent.file))) f_name
      (Syscheck.dbSearch cfg f_name c_sum lf data agent.build sdb).entry = some index := hindex
  rw [setEntry, map_some, some.injEq] at hset
  rw [← hset]
  refine h.build_index.update ?_ f_name
  rcases h.dbSearch cfg f_name c_sum lf data sdb with ⟨-, hadd⟩ | ⟨pos, buf, hstored, hfound⟩
  · rw [hadd, (dbAddEntry_eq cfg f_name c_sum lf agent.build sdb).2]
    rfl
  · rw [hfound]
    rcases dbProcessFoundEntry_cases cfg f_name c_sum lf data agent.file sdb (buf.take 6144) pos with
      ⟨-, hentry⟩ | ⟨-, marks, -, -, heq⟩
    · -- the entry is there already
      obtain ⟨e, he, hpre⟩ := bind_eq_some_iff.mp hstored
      rw [hentry, he]
      dsimp only [getD_none, getD_some]
      rw [hpre]
      rfl
    · rw [(Prod.mk.inj heq).2]
      rfl

/-- What is stored for a file after its event: what was written, or what was there. -/
theorem storedPrefix_store (agent : Agent) (f_name : Bytes) (found : Found) :
    storedPrefix (agent.build.store f_name found) f_name =
      found.entry.elim (storedPrefix agent f_name) Entry.prefix_sum := by
  have hindex : (agent.build.store f_name found).index = some (Function.update
      (agent.index.getD (dbBuildIndex agent.file)) f_name (some (found.entry.getD
        ((agent.index.getD (dbBuildIndex agent.file) f_name).getD ⟨0, none⟩)))) := rfl
  rw [storedPrefix, hindex, getD_some, update_self, bind_some, storedPrefix]
  cases found.entry with
  | some e => rfl
  | none =>
    cases agent.index.getD (dbBuildIndex agent.file) f_name with
    | none => rfl
    | some e => rfl

theorem storedPrefix_store_of_ne (agent : Agent) {f_name g_name : Bytes} (h : f_name ≠ g_name)
    (found : Found) :
    storedPrefix (agent.build.store g_name found) f_name = storedPrefix agent f_name := by
  have hindex : (agent.build.store g_name found).index = some (Function.update
      (agent.index.getD (dbBuildIndex agent.file)) g_name (some (found.entry.getD
        ((agent.index.getD (dbBuildIndex agent.file) g_name).getD ⟨0, none⟩)))) := rfl
  rw [storedPrefix, hindex, getD_some, update_of_ne h, storedPrefix]

end Index

/-! ## Reachable states -/

variable {cfg : Config} {s t : State} {ls : List (Label × Option Alert)}

/-- Every index is complete, and agents with long names have no database yet. -/
structure Reached (s : State) : Prop where
  agentOk : ∀ location, AgentOk (s.agents location)
  bounded : ∃ n, ∀ location : Bytes, n ≤ location.length → s.agents location = {}

theorem agentOk_default : AgentOk {} := ⟨rfl, fun _ h => absurd h (by simp)⟩

theorem reached_init : Reached init := ⟨fun _ => agentOk_default, 0, fun _ _ => rfl⟩

/-- A step changes no agent but the one of the event. -/
theorem Reached.update (h : Reached s) {location : Bytes} {agent : Agent} {sdb : Texts}
    (hagent : AgentOk agent) :
    Reached { agents := Function.update s.agents location agent, sdb } := by
  obtain ⟨n, hn⟩ := h.bounded
  refine ⟨fun l => ?_, max n (location.length + 1), fun l hl => ?_⟩
  · dsimp only
    by_cases heq : l = location
    · rw [heq, update_self]
      exact hagent
    · rw [update_of_ne heq]
      exact h.agentOk l
  · have hne : l ≠ location := fun heq => by
      rw [heq] at hl
      omega
    dsimp only
    rw [update_of_ne hne, hn l (by omega)]

theorem reached_decodeSyscheck (cfg : Config) (h : Reached s) (lf : Eventinfo) :
    Reached (decodeSyscheck cfg s lf).1 := by
  rw [decodeSyscheck]
  split
  · split
    · dsimp only
      rw [dbSetCompleted]
      split
      · have hagent := h.agentOk lf.location
        exact h.update ⟨hagent.complete, hagent.index⟩
      · exact h
    · exact h
  · split
    · exact h.update ((h.agentOk lf.location).store _ _ _ _ _ _)
    · exact h

theorem reached_run (h : Run (Step cfg) init ls s) : Reached s := by
  have hstep : ∀ s l s', Reached s → Step cfg s l s' → Reached s' := by
    rintro s ⟨label, alert⟩ s' hs hstep
    obtain rfl : (step cfg s label).1 = s' := congrArg Prod.fst hstep
    cases label with
    | event lf => exact reached_decodeSyscheck _ hs lf
    | restart =>
      obtain ⟨n, hn⟩ := hs.bounded
      refine ⟨fun l => ⟨rfl, fun _ h => absurd h (by simp [step, restart])⟩, n, fun l hl => ?_⟩
      show ({ s.agents l with index := none, index_incomplete := false } : Agent) = {}
      rw [hn l hl]
  exact h.invariant hstep reached_init

/-! ## The text for an event -/

variable {lf : Eventinfo} {m : Message} {row : Option Bytes}

theorem decodeSyscheck_of_accepts (hm : m ∈ parseMessage lf.log)
    (hacc : accepts cfg lf.location m = true) (s : State) :
    let agent := (s.agents lf.location).build
    let found := dbSearch cfg m.f_name m.c_sum lf m.data agent s.sdb
    decodeSyscheck cfg s lf =
      ({ agents := Function.update s.agents lf.location (agent.store m.f_name found)
         sdb := found.sdb }, found.alert) := by
  rw [decodeSyscheck, mem_def.mp hm]
  exact if_pos hacc

theorem decodeSyscheck_agents_of_ne (lf : Eventinfo) {location : Bytes} (h : location ≠ lf.location)
    (s : State) : (decodeSyscheck cfg s lf).1.agents location = s.agents location := by
  rw [decodeSyscheck]
  split
  · split
    · dsimp only
      rw [dbSetCompleted]
      split
      · exact update_of_ne h _ _
      · rfl
    · rfl
  · split
    · exact update_of_ne h _ _
    · rfl

theorem alertText_eq (hs : Reached s) (ht : Reached t) (hm : m ∈ parseMessage lf.log)
    (hrow : storedPrefix (s.agents lf.location) m.f_name = row)
    (hrow' : storedPrefix (t.agents lf.location) m.f_name = row)
    (hnot : accepts cfg lf.location m = true → ¬ PrintsOld cfg lf row m.c_sum) :
    alertText (decodeSyscheck cfg s lf).2 = alertText (decodeSyscheck cfg t lf).2 := by
  by_cases hacc : accepts cfg lf.location m = true
  · rw [decodeSyscheck_of_accepts hm hacc, decodeSyscheck_of_accepts hm hacc]
    subst hrow
    rcases (hs.agentOk lf.location).dbSearch cfg m.f_name m.c_sum lf m.data s.sdb with
      ⟨hnone, hadd⟩ | ⟨pos, buf, hsome, hfound⟩
    · rcases (ht.agentOk lf.location).dbSearch cfg m.f_name m.c_sum lf m.data t.sdb with
        ⟨-, hadd'⟩ | ⟨pos', buf', hsome', -⟩
      · rw [hadd, hadd']
        exact alertText_add_eq _ _ _ _ _ _ _ _
      · rw [hrow', hnone] at hsome'
        exact absurd hsome' (by simp)
    · rcases (ht.agentOk lf.location).dbSearch cfg m.f_name m.c_sum lf m.data t.sdb with
        ⟨hnone', -⟩ | ⟨pos', buf', hsome', hfound'⟩
      · rw [hrow', hsome] at hnone'
        exact absurd hnone' (by simp)
      · rw [hrow', hsome] at hsome'
        obtain rfl := some.inj hsome'
        rw [hfound, hfound']
        rw [hsome] at hnot
        exact alertText_found_eq (hnot hacc) _ _ _ _ _ _
  · have hnone : ∀ s, alertText (decodeSyscheck cfg s lf).2 = none := fun s => by
      rw [decodeSyscheck, mem_def.mp hm]
      dsimp only
      rw [if_neg hacc]
      rfl
    rw [hnone, hnone]

/-! ## An earlier event -/

section Earlier

variable {f_name : Bytes}

theorem parseMessage_append {c_sum : Bytes} (hblank : chr ' ' ∉ c_sum) (hstr : 0 ∉ c_sum)
    (hname : chr '\n' ∉ f_name) (hname_str : 0 ∉ f_name) :
    parseMessage (c_sum ++ chr ' ' :: f_name) = some ⟨c_sum, f_name, none⟩ := by
  have htake : f_name.takeWhile (· != chr '\n') = f_name := by
    rw [takeWhile_eq_self_iff]
    intro b hb
    rw [bne_iff_ne]
    rintro rfl
    exact hname hb
  have hnone : strchr (chr '\n') f_name = none := by
    cases h : strchr (chr '\n') f_name with
    | none => rfl
    | some p =>
      obtain ⟨x, r, rfl, -, -⟩ := exists_of_strchr_eq_some h
      exact absurd (mem_append_right x mem_cons_self) hname
  rw [parseMessage, strchr_append hblank fun b hb hb0 => hstr (hb0 ▸ hb), map_some,
    take_ptrDiff, tail_cons, htake, hnone]
  rfl

/-- A message about a file with some sum, from some location. -/
def fileEvent (location : Bytes) (sum : String) (f_name : Bytes) (hsum : 0 ∉ lit sum)
    (hname : 0 ∉ f_name) : Eventinfo where
  location
  log := lit sum ++ chr ' ' :: f_name
  time := 0
  maintenance := false
  log_str := by
    rw [List.mem_append, not_or, List.mem_cons, not_or]
    exact ⟨hsum, by decide, hname⟩

/-- A location without a database that one is opened for. -/
theorem Reached.exists_location (h : Reached s) (location : Bytes) :
    ∃ l : Bytes, l ≠ location ∧ locationOk l = true ∧ s.agents l = {} := by
  obtain ⟨n, hn⟩ := h.bounded
  have hstrchr : ∀ k, strchr (chr ')') (List.replicate k (chr 'a')) = none := by
    intro k
    induction k with
    | zero => rfl
    | succ k ih =>
      rw [replicate_succ, strchr, if_neg (by decide), if_neg (by decide), ih]
  have hstrstr : ∀ k, strstr (lit "->") (List.replicate k (chr 'a')) = none := by
    intro k
    induction k with
    | zero => rfl
    | succ k ih =>
      have hpre : (lit "->").isPrefixOf (chr 'a' :: List.replicate k (chr 'a')) = false := rfl
      rw [replicate_succ, strstr, hpre, if_neg Bool.false_ne_true, ih]
  refine ⟨List.replicate (max n (location.length + 1)) (chr 'a'), ?_, ?_, hn _ ?_⟩
  · intro heq
    have hlen := congrArg List.length heq
    rw [length_replicate] at hlen
    omega
  · rw [locationOk, hstrchr]
    rw [hstrstr]
  · rw [length_replicate]
    omega

/-- The sums of two changes of a file, with its permissions before and after. -/
def permSums : List String := ["1:33206:0:0:m:s", "1:33279:0:0:m:s"]

/-- The text about the permissions for one of them. -/
def permSumText (sum : String) : Bytes :=
  permText {} (pairs (lit "1:33188:0:0:m:s") (lit sum))

theorem reportsChange_permSums {sum : String} (hsum : sum ∈ permSums) (cfg : Config)
    {lf : Eventinfo} (hmaintenance : lf.maintenance = false) :
    ReportsChange cfg lf ((lit "+++1:33188:0:0:m:s").take 6144) (lit sum) := by
  have hsaved : savedSum ((lit "+++1:33188:0:0:m:s").take 6144) = lit "1:33188:0:0:m:s" := by
    decide +kernel
  have hzero : changeCount ((lit "+++1:33188:0:0:m:s").take 6144) = 0 := by decide +kernel
  have hdiffers : ∀ sum ∈ permSums, lit "1:33188:0:0:m:s" ≠
      fimSumKeepHashes 6145 (lit "1:33188:0:0:m:s") (lit sum) := by decide +kernel
  have hreal : ∀ sum ∈ permSums, fimSumHasRealChange (lit "1:33188:0:0:m:s")
      (fimSumKeepHashes 6145 (lit "1:33188:0:0:m:s") (lit sum)) = true := by decide +kernel
  have hdeleted : ∀ sum ∈ permSums, isDeleted
      (fimSumKeepHashes 6145 (lit "1:33188:0:0:m:s") (lit sum)) = false := by decide +kernel
  refine ⟨?_, ?_, hmaintenance, ?_, ?_, ?_⟩
  · rw [hsaved]
    exact hdiffers sum hsum
  · rw [hsaved]
    exact hreal sum hsum
  · rw [hzero, changeDecoder]
    cases cfg.syscheck_auto_ignore <;> rfl
  · rw [hsaved]
    exact hdeleted sum hsum
  · rw [hsaved]
    rfl

theorem permText_permSums {sum : String} (hsum : sum ∈ permSums) (sdb : Texts) :
    permText sdb (pairs (savedSum ((lit "+++1:33188:0:0:m:s").take 6144))
      (fimSumKeepHashes 6145 (savedSum ((lit "+++1:33188:0:0:m:s").take 6144)) (lit sum))) =
        permSumText sum := by
  have hsaved : savedSum ((lit "+++1:33188:0:0:m:s").take 6144) = lit "1:33188:0:0:m:s" := by
    decide +kernel
  have hkept : ∀ sum ∈ permSums,
      fimSumKeepHashes 6145 (lit "1:33188:0:0:m:s") (lit sum) = lit sum := by decide +kernel
  have hstale : ∀ sum ∈ permSums, ¬ PermStale (pairs (lit "1:33188:0:0:m:s") (lit sum)) := by
    decide +kernel
  rw [hsaved, hkept sum hsum]
  exact permText_of_not_stale (hstale sum hsum) sdb {}

/-- The row of a file that is added by an agent without a database. -/
theorem storedPrefix_of_added {location : Bytes}
    (hagent : s.agents location = {}) {lf : Eventinfo} (hlocation : lf.location = location)
    (hm : m ∈ parseMessage lf.log) (hacc : accepts cfg lf.location m = true) :
    storedPrefix ((decodeSyscheck cfg s lf).1.agents location) m.f_name =
      some (snprintf 6145 (lit "+++" ++ m.c_sum)) := by
  subst hlocation
  have hnone : storedPrefix {} m.f_name = none := rfl
  have hmarks : newMarks cfg lf (Agent.build {}) = lit "+++" := by
    have hcompleted : (Agent.build {}).completed = false := rfl
    rw [newMarks, hcompleted, Bool.and_false]
    rfl
  rw [decodeSyscheck_of_accepts hm hacc, hagent]
  dsimp only
  rw [update_self]
  rcases agentOk_default.dbSearch cfg m.f_name m.c_sum lf m.data s.sdb with
    ⟨-, hadd⟩ | ⟨pos, buf, hsome, -⟩
  · rw [hadd, storedPrefix_store, (dbAddEntry_eq _ _ _ _ _ _).2, hmarks]
    rfl
  · rw [hnone] at hsome
    cases hsome

/-- From every state, two messages about the file from somewhere else leave a text about its
permissions. -/
theorem exists_run_perm (hs : Reached s) (location : Bytes) (hignored : ignored cfg f_name = false)
    (hname : chr '\n' ∉ f_name) (hname_str : 0 ∉ f_name) {sum : String} (hsum : sum ∈ permSums) :
    ∃ t ls, Run (Step cfg) s ls t ∧ t.sdb.perm = permSumText sum ∧
      t.agents location = s.agents location := by
  obtain ⟨l, hl, hok, hagent⟩ := hs.exists_location location
  have hstr : 0 ∉ lit sum := by
    revert sum
    decide
  have hblank : chr ' ' ∉ lit sum := by
    revert sum
    decide
  have hcolon : (strchr (chr ':') (lit sum)).isSome = true := by
    revert sum
    decide
  let ev₁ := fileEvent l "1:33188:0:0:m:s" f_name (by decide) hname_str
  let ev₂ := fileEvent l sum f_name hstr hname_str
  let s₁ := (decodeSyscheck cfg s ev₁).1
  let s₂ := (decodeSyscheck cfg s₁ ev₂).1
  have hm₁ : ⟨lit "1:33188:0:0:m:s", f_name, none⟩ ∈ parseMessage ev₁.log :=
    parseMessage_append (by decide) (by decide) hname hname_str
  have hm₂ : ⟨lit sum, f_name, none⟩ ∈ parseMessage ev₂.log :=
    parseMessage_append hblank hstr hname hname_str
  have hacc : ∀ c_sum : Bytes, (strchr (chr ':') c_sum).isSome = true →
      accepts cfg l ⟨c_sum, f_name, none⟩ = true := fun c_sum h => by
    rw [accepts]
    rw [hignored, h, hok, Bool.or_true]
    rfl
  have hs₁ : Reached s₁ := reached_decodeSyscheck _ hs ev₁
  have hrow : storedPrefix (s₁.agents l) f_name = some (lit "+++1:33188:0:0:m:s") :=
    storedPrefix_of_added hagent rfl hm₁ (hacc _ (by decide))
  refine ⟨s₂, _, run_runLabels cfg s [.event ev₁, .event ev₂], ?_, ?_⟩
  · have hs₂ : s₂ = _ := congrArg Prod.fst (decodeSyscheck_of_accepts hm₂ (hacc _ hcolon) s₁)
    rw [hs₂]
    rcases (hs₁.agentOk l).dbSearch cfg f_name (lit sum) ev₂ none s₁.sdb with
      ⟨hnone, -⟩ | ⟨pos, buf, hsome, hfound⟩
    · rw [hrow] at hnone
      cases hnone
    · rw [hrow] at hsome
      cases hsome
      have hreports : ReportsChange cfg ev₂ ((lit "+++1:33188:0:0:m:s").take 6144) (lit sum) :=
        reportsChange_permSums hsum cfg rfl
      have hsdb := (hreports.eq f_name none (s₁.agents l).file s₁.sdb pos).1
      rw [← hfound] at hsdb
      exact (congrArg Texts.perm hsdb).trans (permText_permSums hsum s₁.sdb)
  · exact (decodeSyscheck_agents_of_ne ev₂ (Ne.symm hl) s₁).trans
      (decodeSyscheck_agents_of_ne ev₁ (Ne.symm hl) s)

end Earlier

/-! ## The law -/

/-- The text of the alert for an event of a file whose row is known is the same in all runs, if and
only if no old text about permissions is printed for it. -/
theorem text_eq_iff (cfg : Config) (lf : Eventinfo) (m : Message) (row : Option Bytes)
    (hm : m ∈ parseMessage lf.log)
    (hrow : ∃ s ls, Run (Step cfg) init ls s ∧
      storedPrefix (s.agents lf.location) m.f_name = row) :
    (∀ s ls t ls', Run (Step cfg) init ls s → Run (Step cfg) init ls' t →
      storedPrefix (s.agents lf.location) m.f_name = row →
      storedPrefix (t.agents lf.location) m.f_name = row →
        alertText (decodeSyscheck cfg s lf).2 = alertText (decodeSyscheck cfg t lf).2) ↔
      (accepts cfg lf.location m = true → ¬ PrintsOld cfg lf row m.c_sum) := by
  constructor
  · rintro h hacc ⟨buf, hbuf, hreports, hstale⟩
    obtain ⟨s, ls, hs, hrow⟩ := hrow
    have hparts := messageParts hm hacc
    have hignored : ignored cfg m.f_name = false := by
      rw [accepts, Bool.and_eq_true, Bool.and_eq_true, Bool.not_eq_true'] at hacc
      exact hacc.1.1
    -- two messages from elsewhere leave one text or another
    have hrun : ∀ sum ∈ permSums, ∃ t ls, Run (Step cfg) init ls t ∧
        storedPrefix (t.agents lf.location) m.f_name = row ∧
          alertText (decodeSyscheck cfg t lf).2 = some (changeComment (changeTexts t.sdb
            (pairs (savedSum (buf.take 6144))
              (fimSumKeepHashes 6145 (savedSum (buf.take 6144)) m.c_sum))) m.f_name m.data) ∧
          t.sdb.perm = permSumText sum := by
      intro sum hsum
      obtain ⟨t, ls', ht, hperm, hagent⟩ : ∃ t ls', Run (Step cfg) s ls' t ∧
          t.sdb.perm = permSumText sum ∧ t.agents lf.location = s.agents lf.location :=
        exists_run_perm (reached_run hs) lf.location hignored hparts.name_no_newline
          hparts.name_str hsum
      have hrow' : storedPrefix (t.agents lf.location) m.f_name = row := by
        rw [hagent, hrow]
      refine ⟨t, _, hs.append ht, hrow', ?_, hperm⟩
      rw [decodeSyscheck_of_accepts hm hacc]
      dsimp only
      rcases ((reached_run (hs.append ht)).agentOk lf.location).dbSearch cfg m.f_name m.c_sum lf
        m.data t.sdb with ⟨hnone, -⟩ | ⟨pos, buf', hsome, hfound⟩
      · rw [hrow', mem_def.mp hbuf] at hnone
        exact absurd hnone (by simp)
      · rw [hrow', mem_def.mp hbuf] at hsome
        obtain rfl := some.inj hsome
        rw [hfound]
        exact (hreports.eq m.f_name m.data _ t.sdb pos).2
    obtain ⟨t, ls₁, ht, ht_row, ht_text, ht_perm⟩ := hrun _ mem_cons_self
    obtain ⟨u, ls₂, hu, hu_row, hu_text, hu_perm⟩ :=
      hrun _ (mem_cons_of_mem _ mem_cons_self)
    have heq := h t ls₁ u ls₂ ht hu ht_row hu_row
    rw [ht_text, hu_text, some.injEq, changeComment_eq_iff hstale] at heq
    · rw [ht_perm, hu_perm] at heq
      exact absurd heq (by decide +kernel)
    · rw [ht_perm, hu_perm]
      decide +kernel
    · rw [ht_perm]
      decide +kernel
  · intro hnot s ls t ls' hs ht hrow_s hrow_t
    exact alertText_eq (reached_run hs) (reached_run ht) hm hrow_s hrow_t hnot

/-- The text for a new file. -/
theorem text_eq_iff_new :
    let cfg : Config := ⟨true, true, false, []⟩
    let lf : Eventinfo := ⟨lit "syscheck", lit "1:2:3:4:ab:cd /etc/a", 5, false, by decide⟩
    ∀ s ls t ls', Run (Step cfg) init ls s → Run (Step cfg) init ls' t →
      storedPrefix (s.agents (lit "syscheck")) (lit "/etc/a") = none →
      storedPrefix (t.agents (lit "syscheck")) (lit "/etc/a") = none →
        alertText (decodeSyscheck cfg s lf).2 = alertText (decodeSyscheck cfg t lf).2 := by
  intro cfg lf
  refine (text_eq_iff cfg lf ⟨lit "1:2:3:4:ab:cd", lit "/etc/a", none⟩ none rfl
    ⟨init, [], .nil init, rfl⟩).mpr fun _ hold => ?_
  obtain ⟨buf, hbuf, -⟩ := hold
  exact absurd hbuf (by simp)

/-- Permissions that were not monitored: the alert for `/etc/a` tells those of `/etc/b`. -/
theorem text_eq_iff_old :
    let cfg : Config := ⟨true, true, false, []⟩
    let ev (log : String) (h : 0 ∉ lit log) : Eventinfo := ⟨lit "syscheck", lit log, 5, false, h⟩
    let new := ev "1:0:3:4:ab:cd /etc/a" (by decide)
    let lf := ev "1:33188:3:4:ab:cd /etc/a" (by decide)
    let run := runLabels cfg init [.event new]
    let run' := runLabels cfg init [.event new,
      .event (ev "1:33188:3:4:ab:cd /etc/b" (by decide)),
      .event (ev "1:33206:3:4:ab:cd /etc/b" (by decide))]
    Run (Step cfg) init run.2 run.1 ∧ Run (Step cfg) init run'.2 run'.1 ∧
      storedPrefix (run.1.agents lf.location) (lit "/etc/a") =
        storedPrefix (run'.1.agents lf.location) (lit "/etc/a") ∧
      alertText (decodeSyscheck cfg run.1 lf).2 =
        some (lit "Integrity checksum changed for: '/etc/a'\n") ∧
      alertText (decodeSyscheck cfg run'.1 lf).2 =
        some (lit "Integrity checksum changed for: '/etc/a'\n" ++
          lit "Permissions changed from 'rw-r--r--' to 'rw-rw-rw-'\n") := by
  refine ⟨run_runLabels _ _ _, run_runLabels _ _ _, ?_⟩
  decide +kernel

end Syscheck
