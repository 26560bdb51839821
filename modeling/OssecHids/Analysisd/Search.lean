import OssecHids.Lib.Scan
import OssecHids.Analysisd.RuleInfo

/-!
# Searching the earlier events

`Search_LastSids`, `Search_LastGroups` and `Search_LastEvents`: whether there are enough earlier
events that a frequency rule counts. The events come with the newest one first.

- `searchLoop_fst`: the loop is a scan that counts;
- `finishSearch_events`: the marks that a search leaves.
-/

open CString Scan

/-! ## The searches -/

/-- Two strings that are there and equal. -/
def sameStr (a b : Option Bytes) : Bool :=
  match a, b with
  | some a, some b => a == b
  | _, _ => false

/-- Two strings that are there and not equal. -/
def differentStr (a b : Option Bytes) : Bool :=
  match a, b with
  | some a, some b => a != b
  | _, _ => false

/-- The country if there is one, else the place. -/
def Eventinfo.geo (lf : Eventinfo) : Option Bytes := lf.src_country.or lf.srcgeoip

/-- The tests of `Search_LastSids` up to the count, which `Search_LastGroups` repeats. -/
def lastSidsTest (rule : RuleInfo) (my_lf lf : Eventinfo) : Verdict :=
  if my_lf.time - lf.time > rule.timeframe then .stop
  else if lf.matched ≥ rule.level then .stop
  else if hasFlag rule.context_opts SAME_ID && !sameStr lf.id my_lf.id then .skip
  else if hasFlag rule.context_opts SAME_SRCIP && !sameStr lf.srcip my_lf.srcip then .skip
  else if hasFlag rule.alert_opts SAME_EXTRAINFO then
    if hasFlag rule.context_opts SAME_SRCPORT && !sameStr lf.srcport my_lf.srcport then .skip
    else if hasFlag rule.context_opts SAME_DSTPORT && !sameStr lf.dstport my_lf.dstport then .skip
    else if hasFlag rule.context_opts SAME_USER && !sameStr lf.dstuser my_lf.dstuser then .skip
    else if hasFlag rule.context_opts SAME_LOCATION && !sameStr lf.location my_lf.location then .skip
    else if hasFlag rule.context_opts DIFFERENT_URL && !differentStr lf.url my_lf.url then .skip
    else if hasFlag rule.context_opts DIFFERENT_SRCGEOIP && !differentStr lf.geo my_lf.geo then .skip
    else .count
  else if lf.matched ≥ rule.level then .stop
  else .count

/-- The tests of `Search_LastEvents` up to the count. -/
def lastEventsTest (osRegexExecute : Bytes → Bytes → Bool) (rule : RuleInfo) (my_lf lf : Eventinfo) :
    Verdict :=
  if my_lf.time - lf.time > rule.timeframe then .stop
  else if lf.matched ≥ rule.level then .stop
  else if lf.decoder_info.type ≠ my_lf.decoder_info.type then .skip
  else if rule.if_matched_regex.any fun regex => !osRegexExecute lf.log regex then .skip
  else if hasFlag rule.context_opts SAME_USER && !sameStr lf.dstuser my_lf.dstuser then .skip
  else if hasFlag rule.context_opts SAME_ID && !sameStr lf.id my_lf.id then .skip
  else if hasFlag rule.context_opts SAME_SRCIP && !sameStr lf.srcip my_lf.srcip then .skip
  else if hasFlag rule.context_opts DIFFERENT_URL && !differentStr lf.url my_lf.url then .skip
  else if hasFlag rule.context_opts DIFFERENT_SRCGEOIP then
    if !differentStr lf.geo my_lf.geo then .skip else .count
  else if lf.matched ≥ rule.level then .stop
  else .count

/-- `OS_SetRuleLastEvent`, for one of the first eleven events that a search counts. -/
def saveLastEvent (rule : RuleInfo) (frequency : ℕ) (logs : List Bytes) (lf : Eventinfo) :
    List Bytes :=
  if frequency ≤ 10 ∧ rule.last_events.isSome then logs ++ [lf.full_log] else logs

/-- The loop over the events from position `pos` on: the position of the event that is returned, and
the log lines that are saved. `Search_LastSids` saves the line of that event too. -/
def searchLoop (test : Eventinfo → Verdict) (saveReturned : Bool) (rule : RuleInfo) :
    ℕ → ℕ → List Bytes → List Eventinfo → Option ℕ × List Bytes
  | _, _, logs, [] => (none, logs)
  | frequency, pos, logs, lf :: events =>
    match test lf with
    | .stop => (none, logs)
    | .skip => searchLoop test saveReturned rule frequency (pos + 1) logs events
    | .count =>
      if frequency < rule.frequency then
        searchLoop test saveReturned rule (frequency + 1) (pos + 1)
          (saveLastEvent rule frequency logs lf) events
      else (some pos, if saveReturned then saveLastEvent rule frequency logs lf else logs)

/-- What a search returns, by its position, and the events after it. -/
structure Search where
  ret : Option ℕ
  my_lf : Eventinfo
  events : List Eventinfo

def Eventinfo.setMatched (level : ℕ) (lf : Eventinfo) : Eventinfo := { lf with «matched» := level }

/-- `OS_MoveRuleLastEvents` -/
def moveLastEvents (logs : List Bytes) (lf : Eventinfo) : Eventinfo :=
  if logs = [] then lf else { lf with alert_last_events := some logs }

/-- The marks on the current event, on the returned one and on the newest one. -/
def finishSearch (rule : RuleInfo) (my_lf : Eventinfo) (events : List Eventinfo) :
    Option ℕ × List Bytes → Search
  | (none, _) => { ret := none, my_lf := my_lf, events := events }
  | (some pos, logs) => {
      ret := some pos
      my_lf := moveLastEvents logs (my_lf.setMatched rule.level)
      events := (events.modify pos (Eventinfo.setMatched rule.level)).modify 0
        (Eventinfo.setMatched rule.level) }

/-- `Search_LastSids`, over the list of `sid_search` if there is one -/
def searchLastSids (my_lf : Eventinfo) (rule : RuleInfo) (sid_search : Option (List Eventinfo)) :
    Search :=
  match sid_search with
  | none => { ret := none, my_lf := my_lf, events := [] }
  | some events =>
    finishSearch rule my_lf events (searchLoop (lastSidsTest rule my_lf) true rule 0 0 [] events)

/-- `Search_LastGroups`, over the list of `group_search` if there is one -/
def searchLastGroups (my_lf : Eventinfo) (rule : RuleInfo) (group_search : Option (List Eventinfo)) :
    Search :=
  match group_search with
  | none => { ret := none, my_lf := my_lf, events := [] }
  | some events =>
    finishSearch rule my_lf events (searchLoop (lastSidsTest rule my_lf) false rule 0 0 [] events)

/-- `Search_LastEvents`, over the event list -/
def searchLastEvents (osRegexExecute : Bytes → Bytes → Bool) (my_lf : Eventinfo) (rule : RuleInfo)
    (elist : List Eventinfo) : Search :=
  finishSearch rule my_lf elist
    (searchLoop (lastEventsTest osRegexExecute rule my_lf) false rule 0 0 [] elist)

/-! ## What the searches find -/

variable {rule : RuleInfo} {my_lf : Eventinfo} {test : Eventinfo → Verdict} {saveReturned : Bool} {logs : List Bytes}
  {events : List Eventinfo} {k pos : ℕ}

theorem searchLoop_fst :
    (searchLoop test saveReturned rule k pos logs events).1 = find test rule.frequency k pos events := by
  induction events generalizing k pos logs with
  | nil => rfl
  | cons lf events ih =>
    rw [searchLoop, find]
    cases test lf with
    | stop => rfl
    | skip => exact ih
    | count =>
      show (if k < rule.frequency then _ else _ : Option ℕ × List Bytes).1 = _
      split
      · exact ih
      · rfl

theorem finishSearch_ret (found : Option ℕ × List Bytes) :
    (finishSearch rule my_lf events found).ret = found.1 := by
  obtain ⟨_ | pos, logs⟩ := found
  · rfl
  · rfl

theorem finishSearch_matched (found : Option ℕ × List Bytes) :
    (finishSearch rule my_lf events found).my_lf.matched =
      if found.1.isSome then rule.level else my_lf.matched := by
  obtain ⟨_ | pos, logs⟩ := found
  · rfl
  · show (moveLastEvents logs (my_lf.setMatched rule.level)).matched = rule.level
    unfold moveLastEvents
    split
    · rfl
    · rfl

/-- The events with the returned one and the newest one marked. -/
def markEvents (level : ℕ) (pos : ℕ) (events : List Eventinfo) : List Eventinfo :=
  events.mapIdx fun i lf => if i = pos ∨ i = 0 then lf.setMatched level else lf

theorem modify_modify_eq_markEvents (level pos : ℕ) (events : List Eventinfo) :
    (events.modify pos (Eventinfo.setMatched level)).modify 0 (Eventinfo.setMatched level) =
      markEvents level pos events := by
  apply List.ext_getElem?
  intro i
  rw [markEvents, List.getElem?_mapIdx, List.getElem?_modify, List.getElem?_modify]
  cases events[i]? with
  | none => split <;> split <;> rfl
  | some lf =>
    by_cases hi : pos = i <;> by_cases h0 : 0 = i <;>
      simp [hi, h0, eq_comm (a := i), Eventinfo.setMatched]

theorem finishSearch_events (found : Option ℕ × List Bytes) :
    (finishSearch rule my_lf events found).events =
      found.1.elim events fun pos => markEvents rule.level pos events := by
  obtain ⟨_ | pos, logs⟩ := found
  · rfl
  · exact modify_modify_eq_markEvents rule.level pos events
