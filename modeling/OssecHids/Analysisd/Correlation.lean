import OssecHids.Analysisd.ContextOptions

/-!
# Correlation by signature id or by group

- `lastSidsTest_of_gateSet`: what `Search_LastSids` and `Search_LastGroups` count;
- `searchLastSids_correlates_iff`: they honour all the options of a rule unless one of them is
  `different_srcip`, which neither of them tests.
-/

open CString ContextOption Scan List

variable {rule : RuleInfo} {my_lf lf : Eventinfo} {events : List Eventinfo}

/-! ## What the searches count -/

theorem ite_skip_count (c h : Bool) :
    (if (c && !h) = true then Verdict.skip else .count) =
      if (!c || h) = true then .count else .skip := by
  cases c <;> cases h <;> rfl

theorem ite_skip_ite (c h b : Bool) :
    (if (c && !h) = true then Verdict.skip else if b = true then .count else .skip) =
      if ((!c || h) && b) = true then .count else .skip := by
  cases c <;> cases h <;> rfl

theorem stop_of_not_inWindow {v : Verdict} (hw : ¬ inWindow rule my_lf lf) :
    (if my_lf.time - lf.time > rule.timeframe then .stop
      else if lf.matched ≥ rule.level then .stop else v) = Verdict.stop := by
  split
  · rfl
  · split
    · rfl
    · exact absurd (by simp [inWindow]; omega) hw

theorem of_inWindow {v : Verdict} (hw : inWindow rule my_lf lf) :
    (if my_lf.time - lf.time > rule.timeframe then .stop
      else if lf.matched ≥ rule.level then .stop else v) = v := by
  simp only [inWindow, Bool.and_eq_true, decide_eq_true_eq] at hw
  rw [if_neg (by omega), if_neg (by omega)]

/-- The first two searches count the events of the window that satisfy the options they test. -/
theorem lastSidsTest_eq : lastSidsTest rule my_lf lf =
    if inWindow rule my_lf lf then
      if satisfies rule my_lf lf ungated &&
        (!hasFlag rule.alert_opts SAME_EXTRAINFO || satisfies rule my_lf lf gated)
      then .count else .skip
    else .stop := by
  by_cases hw : inWindow rule my_lf lf
  · rw [lastSidsTest, of_inWindow hw, if_pos hw]
    have hlevel : ¬ lf.matched ≥ rule.level := by
      simp only [inWindow, Bool.and_eq_true, decide_eq_true_eq] at hw
      omega
    cases hgate : hasFlag rule.alert_opts SAME_EXTRAINFO with
    | false =>
      simp only [Bool.false_eq_true, if_false, if_neg hlevel, ite_skip_count, ite_skip_ite]
      simp [satisfies, ungated, RuleInfo.carries, flag, holds]
    | true =>
      simp only [if_true, ite_skip_count, ite_skip_ite]
      simp [satisfies, ungated, gated, RuleInfo.carries, flag, holds, and_assoc]
  · rw [lastSidsTest, stop_of_not_inWindow hw, if_neg hw]

/-- Of a rule that the reader has made, the first two searches count what satisfies every option
except `different_srcip`. -/
theorem lastSidsTest_of_gateSet (hg : GateSet rule) : lastSidsTest rule my_lf lf =
    if inWindow rule my_lf lf then
      if satisfies rule my_lf lf (ungated ++ gated) then .count else .skip
    else .stop := by
  have hgate : (!hasFlag rule.alert_opts SAME_EXTRAINFO || satisfies rule my_lf lf gated) =
      satisfies rule my_lf lf gated := by
    rcases hg with hg | hg
    · rw [hg, Bool.not_true, Bool.false_or]
    · have hall : satisfies rule my_lf lf gated = true :=
        all_eq_true.mpr fun o ho => by rw [hg o ho]; rfl
      rw [hall, Bool.or_true]
  rw [lastSidsTest_eq, hgate, satisfies, satisfies, satisfies, all_append]

/-! ## The searches against the options -/

def allOptions : List ContextOption := different_srcip :: (ungated ++ gated)

/-- The positions of the earlier events that count for the rule: those newer than the first one
outside of the window that satisfy every option of the rule. -/
def correlated (rule : RuleInfo) (my_lf : Eventinfo) (events : List Eventinfo) : List ℕ :=
  ((events.takeWhile (inWindow rule my_lf)).zipIdx.filter
    fun x => satisfies rule my_lf x.1 allOptions).map Prod.snd

/-- `Search_LastSids` returns the event number `frequency + 1` of those that count, marks it, the
newest event and the current one, and marks nothing when there is none. `Search_LastGroups` does the
same. -/
structure Correlates (rule : RuleInfo) (my_lf : Eventinfo) (events : List Eventinfo) : Prop where
  ret : (searchLastSids my_lf rule (some events)).ret =
    (correlated rule my_lf events)[rule.frequency]?
  my_lf_matched : (searchLastSids my_lf rule (some events)).my_lf.matched =
    if rule.frequency < (correlated rule my_lf events).length then rule.level else my_lf.matched
  events_matched : (searchLastSids my_lf rule (some events)).events =
    (correlated rule my_lf events)[rule.frequency]?.elim events
      fun pos => markEvents rule.level pos events
  groups_ret : (searchLastGroups my_lf rule (some events)).ret =
    (searchLastSids my_lf rule (some events)).ret
  groups_my_lf_matched : (searchLastGroups my_lf rule (some events)).my_lf.matched =
    (searchLastSids my_lf rule (some events)).my_lf.matched
  groups_events_matched : (searchLastGroups my_lf rule (some events)).events =
    (searchLastSids my_lf rule (some events)).events

/-- What remains is that the loop finds the right event. -/
theorem correlates_iff : Correlates rule my_lf events ↔
    find (lastSidsTest rule my_lf) rule.frequency 0 0 events =
      (correlated rule my_lf events)[rule.frequency]? := by
  have hret : (searchLastSids my_lf rule (some events)).ret =
      find (lastSidsTest rule my_lf) rule.frequency 0 0 events := by
    rw [searchLastSids, finishSearch_ret, searchLoop_fst]
  constructor
  · exact fun h => hret.symm.trans h.ret
  · intro h
    refine ⟨hret.trans h, ?_, ?_, ?_, ?_, ?_⟩
    · rw [searchLastSids, finishSearch_matched, searchLoop_fst, h]
      simp
    · rw [searchLastSids, finishSearch_events, searchLoop_fst, h]
    · rw [searchLastSids, searchLastGroups, finishSearch_ret, finishSearch_ret, searchLoop_fst,
        searchLoop_fst]
    · rw [searchLastSids, searchLastGroups, finishSearch_matched, finishSearch_matched,
        searchLoop_fst, searchLoop_fst]
    · rw [searchLastSids, searchLastGroups, finishSearch_events, finishSearch_events,
        searchLoop_fst, searchLoop_fst]

/-- Nothing in the window of a rule of level 0, since every event has been matched at level 0. -/
theorem inWindow_of_level_eq_zero (h : rule.level = 0) : inWindow rule my_lf lf = false := by
  simp [inWindow, h]

/-- An event with one string in all the fields that the options compare. -/
def uniformEvent (s : Bytes) (url : Bytes) : Eventinfo where
  log := s
  full_log := s
  location := some s
  src_country := some url
  srcip := some s
  srcport := some s
  dstport := some s
  dstuser := some s
  id := some s
  url := some url
  decoder_info := { id := 1, type := 1 }
  size := s.length
  time := 0
  hour := s

theorem satisfies_uniformEvent (rule : RuleInfo) (s : Bytes) :
    satisfies rule (uniformEvent s [1]) (uniformEvent s [2]) (ungated ++ gated) := by
  refine all_eq_true.mpr fun o ho => ?_
  have hholds : o.holds (uniformEvent s [1]) (uniformEvent s [2]) = true := by
    cases o with
    | different_srcip => exact absurd ho (by decide)
    | _ => simp [holds, uniformEvent, sameStr, differentStr, Eventinfo.geo]
  rw [hholds, Bool.or_true]

/-- The first two searches count the events that count for the rule, if no option is forgotten. -/
theorem counted_lastSidsTest (hg : GateSet rule)
    (h : rule.carries different_srcip = false ∨ rule.level = 0) :
    counted (lastSidsTest rule my_lf) 0 events = correlated rule my_lf events := by
  refine counted_eq (inWindow rule my_lf) (fun lf => satisfies rule my_lf lf allOptions)
    fun lf _ => ?_
  rw [lastSidsTest_of_gateSet hg]
  rcases h with h | h
  · have hall : satisfies rule my_lf lf allOptions = satisfies rule my_lf lf (ungated ++ gated) := by
      rw [satisfies, allOptions, all_cons, h]
      rfl
    rw [hall]
  · rw [inWindow_of_level_eq_zero h]
    rfl

/-- Of a rule that carries `different_srcip`, they count an event from the same address. -/
theorem counted_ne_correlated (hg : GateSet rule) (h : rule.carries different_srcip = true)
    (hlevel : 0 < rule.level) :
    (counted (lastSidsTest rule (uniformEvent [1] [1])) 0
      (List.replicate (rule.frequency + 1) (uniformEvent [1] [2])))[rule.frequency]? ≠
    (correlated rule (uniformEvent [1] [1])
      (List.replicate (rule.frequency + 1) (uniformEvent [1] [2])))[rule.frequency]? := by
  have hcount : lastSidsTest rule (uniformEvent [1] [1]) (uniformEvent [1] [2]) = .count := by
    have hw : inWindow rule (uniformEvent [1] [1]) (uniformEvent [1] [2]) = true := by
      simp [inWindow, uniformEvent, hlevel]
    rw [lastSidsTest_of_gateSet hg, if_pos hw, if_pos (satisfies_uniformEvent rule [1])]
  have hnone : correlated rule (uniformEvent [1] [1])
      (List.replicate (rule.frequency + 1) (uniformEvent [1] [2])) = [] := by
    have hsat : satisfies rule (uniformEvent [1] [1]) (uniformEvent [1] [2]) allOptions = false := by
      rw [satisfies, allOptions, all_cons, h]
      rfl
    rw [correlated, map_eq_nil_iff, filter_eq_nil_iff]
    intro x hx
    have hmem := takeWhile_subset _ (fst_mem_of_mem_zipIdx hx)
    rw [eq_of_mem_replicate hmem, hsat]
    exact Bool.false_ne_true
  rw [hnone, ← find_eq]
  intro heq
  exact absurd (heq ▸ find_replicate hcount) (by simp)

/-- For a rule of the reader the searches honour all the options of the rule exactly if the rule
does not carry `different_srcip`, or has level 0 and never fires. -/
theorem searchLastSids_correlates_iff (N : RuleInfo) (elements : List ContextElement) :
    (∀ my_lf events, events.Pairwise (fun newer older => older.time ≤ newer.time) →
      Correlates (N.readContext elements) my_lf events) ↔
    (N.readContext elements).carries different_srcip = false ∨ N.level = 0 := by
  have hg := gateSet_readContext N elements
  have hlevel := (sameButOptions_readContext N elements).level
  simp only [correlates_iff, find_eq]
  constructor
  · intro hall
    by_contra hnot
    rw [not_or, Bool.not_eq_false, ← hlevel] at hnot
    refine counted_ne_correlated hg hnot.1 (Nat.pos_of_ne_zero hnot.2) (hall _ _ ?_)
    exact pairwise_replicate.mpr (.inr le_rfl)
  · intro h my_lf events _
    rw [← hlevel] at h
    rw [counted_lastSidsTest hg h]

/-- Two earlier events from the address of the current one, for a rule that asks for others. -/
theorem not_correlates_different_srcip :
    ¬ ∀ (N : RuleInfo) elements my_lf events,
      events.Pairwise (fun newer older => older.time ≤ newer.time) →
        Correlates (N.readContext elements) my_lf events := by
  intro h
  have hret := (h { sigid := 100, level := 5, frequency := 1, timeframe := 60, category := 1 }
    [.different_srcip] (uniformEvent [1] [1]) [uniformEvent [1] [2], uniformEvent [1] [2]]
    (by decide)).ret
  exact absurd hret (by decide +kernel)
