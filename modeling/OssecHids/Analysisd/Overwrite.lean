import OssecHids.Analysisd.Conditions
import OssecHids.Analysisd.ReadRules

/-!
# Overwriting a rule

What the conditions of a rule are after `OS_AddRuleInfo` has written a new rule over it. The function
copies a list of fields; the conditions on the others are those of the old rule.

- `ruleMatches_eq`: the conditions, split by whether their fields are copied;
- `readRule_overwrites_iff`: when the overwritten rule is the new one.
-/

open CString RuleHeap SiblingTree Transition List

/-- The rule with the search of another one. -/
def RuleInfo.withSearch (N X : RuleInfo) : RuleInfo :=
  { N with event_search := X.event_search, sid_search := X.sid_search, group_search := X.group_search }

namespace MatchEnv

variable (env : MatchEnv) (lf : Eventinfo)

/-- The tests of the fields that `OS_AddRuleInfo` copies. -/
def checkCopied (N : RuleInfo) : Bool :=
  (N.decoded_as == 0 || N.decoded_as == lf.decoder_info.id) &&
  checkPattern (env.osMatchExecute · lf.p_name_size ·) lf.program_name N.program_name &&
  checkPattern env.osMatch lf.id N.id &&
  checkPattern (env.osMatchExecute · lf.size ·) (some lf.log) N.match &&
  checkPattern env.osRegexExecute (some lf.log) N.regex &&
  checkPattern (· == ·) lf.action N.action &&
  checkPattern env.osMatch lf.url N.url &&
  (!hasFlag N.alert_opts DO_PACKETINFO ||
    (env.checkIP lf.srcip N.srcip && env.checkIP lf.dstip N.dstip &&
      checkPattern env.osMatch lf.srcport N.srcport &&
      checkPattern env.osMatch lf.dstport N.dstport)) &&
  (!hasFlag N.alert_opts DO_EXTRAINFO ||
    ((N.compiled_rule.all fun f => env.compiledRule f lf) &&
      checkPattern env.osMatch (lf.dstuser.or lf.srcuser) N.user &&
      (N.maxsize == 0 || N.maxsize ≤ lf.size) &&
      (N.day_time.all fun time => env.osIsonTime lf.hour time) &&
      (N.week_day.all fun days => env.osIsonDay days) &&
      checkPattern env.osMatch lf.data N.extra_data &&
      checkPattern env.osMatch lf.hostname N.hostname &&
      checkPattern env.osMatch lf.status N.status &&
      (!hasFlag N.context_opts SAME_DODIFF || env.doDiff N.sigid lf))) &&
  env.checkFTS lf N.alert_opts

/-- The tests of the fields of `X` that `OS_AddRuleInfo` does not copy, as they stand behind the
copied fields of `N`: the PCRE2 form of a condition is tested where `N` has not got the other one. -/
def checkLeft (N X : RuleInfo) : Bool :=
  (N.program_name.isSome || checkPattern env.osPcre2Execute lf.program_name X.program_name_pcre2) &&
  (N.id.isSome || checkPattern env.osPcre2Execute lf.id X.id_pcre2) &&
  (N.match.isSome || checkPattern env.osPcre2Execute (some lf.log) X.match_pcre2) &&
  (N.regex.isSome || checkPattern env.osPcre2Execute (some lf.log) X.pcre2) &&
  checkPattern env.osPcre2Execute lf.url X.url_pcre2 &&
  env.checkFields lf X.fields &&
  (!hasFlag N.alert_opts DO_PACKETINFO ||
    ((N.srcport.isSome || checkPattern env.osPcre2Execute lf.srcport X.srcport_pcre2) &&
      (N.dstport.isSome || checkPattern env.osPcre2Execute lf.dstport X.dstport_pcre2))) &&
  (!hasFlag N.alert_opts DO_EXTRAINFO ||
    ((N.user.isSome ||
        checkPattern env.osPcre2Execute (lf.dstuser.or lf.srcuser) X.user_pcre2) &&
      env.checkString lf.srcgeoip X.srcgeoip X.srcgeoip_pcre2 &&
      env.checkString lf.src_country X.src_country X.src_country_pcre2 &&
      env.checkString lf.srcasn X.srcasn X.srcasn_pcre2 &&
      env.checkString lf.dstgeoip X.dstgeoip X.dstgeoip_pcre2 &&
      (N.extra_data.isSome || checkPattern env.osPcre2Execute lf.data X.extra_data_pcre2) &&
      (N.hostname.isSome || checkPattern env.osPcre2Execute lf.hostname X.hostname_pcre2) &&
      env.checkString lf.agent_name X.agent_name X.agent_name_pcre2 &&
      env.checkString lf.location X.location X.location_pcre2 &&
      (N.status.isSome || checkPattern env.osPcre2Execute lf.status X.status_pcre2))) &&
  env.checkLists lf X.lists &&
  (N.context != 1 || hasFlag N.context_opts SAME_DODIFF || env.eventSearch lf (N.withSearch X))

variable {env} {lf}

/-- The conditions of a rule, split by whether `OS_AddRuleInfo` copies their fields. -/
theorem ruleMatches_eq (X : RuleInfo) :
    env.ruleMatches lf X = (env.checkCopied lf X && env.checkLeft lf X X) := by
  have hsearch : X.withSearch X = X := rfl
  simp only [ruleMatches, checkLog, checkPacketInfo, checkExtraInfo, checkContext, checkString,
    checkCopied, checkLeft, hsearch, Bool.or_and_distrib_left]
  ac_rfl

/-! ## What the tests do not read -/

/-- The answer of a search depends on the parameters of the search only. -/
theorem eventSearch_congr {X Y : RuleInfo} (hsearch : X.event_search = Y.event_search)
    (hsids : X.sid_search = Y.sid_search) (hgroups : X.group_search = Y.group_search)
    (hlevel : X.level = Y.level) (hfrequency : X.frequency = Y.frequency)
    (htimeframe : X.timeframe = Y.timeframe) (hcontext : X.context_opts = Y.context_opts)
    (halert : X.alert_opts = Y.alert_opts) (hregex : X.if_matched_regex = Y.if_matched_regex) :
    env.eventSearch lf X = env.eventSearch lf Y := by
  have htest : lastSidsTest X lf = lastSidsTest Y lf := by
    ext lf'
    simp only [lastSidsTest, hlevel, htimeframe, hcontext, halert]
  have htest' : lastEventsTest env.osRegexExecute X lf = lastEventsTest env.osRegexExecute Y lf := by
    ext lf'
    simp only [lastEventsTest, hlevel, htimeframe, hcontext, hregex]
  have hloop : ∀ test saved events, (searchLoop test saved X 0 0 [] events).1 =
      (searchLoop test saved Y 0 0 [] events).1 := fun test saved events => by
    rw [searchLoop_fst, searchLoop_fst, hfrequency]
  rw [eventSearch, eventSearch, hsearch, hsids, hgroups]
  rcases Y.event_search with _ | _ | _ | _
  · rfl
  · cases Y.sid_search with
    | none => rfl
    | some q => simp only [Option.map_some, searchLastSids, finishSearch_ret, hloop, htest]
  · cases Y.group_search with
    | none => rfl
    | some q => simp only [Option.map_some, searchLastGroups, finishSearch_ret, hloop, htest]
  · simp only [searchLastEvents, finishSearch_ret, hloop, htest']

theorem checkCopied_copyRuleInfo {R N : RuleInfo} (hsid : R.sigid = N.sigid) :
    env.checkCopied lf (RulesList.copyRuleInfo R N) = env.checkCopied lf N := by
  simp only [checkCopied, RulesList.copyRuleInfo, hsid]

theorem checkLeft_copyRuleInfo (R N : RuleInfo) :
    env.checkLeft lf (RulesList.copyRuleInfo R N) (RulesList.copyRuleInfo R N) =
      env.checkLeft lf N R := by
  have hsearch : env.eventSearch lf (RulesList.copyRuleInfo R N) =
      env.eventSearch lf (N.withSearch R) :=
    eventSearch_congr rfl rfl rfl rfl rfl rfl rfl rfl rfl
  have hself : (RulesList.copyRuleInfo R N).withSearch (RulesList.copyRuleInfo R N) =
      RulesList.copyRuleInfo R N := rfl
  rw [checkLeft, hself, hsearch]
  rfl

end MatchEnv

namespace RulesList

variable {wordMatch : Bytes → Bytes → Bool} {s s' : RulesList} {N : RuleInfo} {env : MatchEnv}
  {lf : Eventinfo}

theorem checkCopied_setEventSearch (r : Ref) :
    env.checkCopied lf (s.setEventSearch r N) = env.checkCopied lf N := by
  unfold setEventSearch
  split_ifs <;> rfl

theorem checkLeft_setEventSearch (r : Ref) (X : RuleInfo) :
    env.checkLeft lf (s.setEventSearch r N) X = env.checkLeft lf N X := by
  unfold setEventSearch
  split_ifs with hsid hgroup hcontext hdiff
  · rfl
  · rfl
  · -- with `SAME_DODIFF` the search is not made, whether the context is 1 or has been cleared
    simp only [MatchEnv.checkLeft, hdiff.2, Bool.or_true, Bool.true_or]
  · rfl
  · rfl

/-- The signature ids, and so the rule that `OS_MarkID` finds, are the same in the two states. -/
theorem setEventSearch_congr (hlist : s'.rulenode = s.rulenode)
    (hsid : ∀ a ∈ s.rulenode.labels, s'.sigidAt a = s.sigidAt a) (r : Ref) :
    s'.setEventSearch r N = s.setEventSearch r N := by
  have hlast : s'.lastOfSid N.if_matched_sid = s.lastOfSid N.if_matched_sid := by
    rw [lastOfSid, lastOfSid, hlist]
    congr 2
    refine filter_congr fun a ha => ?_
    rw [hsid a ha]
  rw [setEventSearch, setEventSearch, hlast]

theorem findSid_eq_some {h : RuleHeap} {sid : ℤ} {t : SiblingTree RuleNode} {q : Ref}
    (hq : findSid h sid t = some q) : ∃ b ∈ t.labels, b.ruleinfo = q ∧ h.sigidAt b = sid := by
  induction t with
  | nil => cases hq
  | node b child next ihc ihn =>
    rw [findSid] at hq
    split at hq
    case isTrue hb => exact ⟨b, mem_cons_self, Option.some.inj hq, hb⟩
    case isFalse =>
      rcases Option.or_eq_some_iff.mp hq with hq | ⟨-, hq⟩
      · obtain ⟨c, hc, h⟩ := ihc hq
        exact ⟨c, mem_cons_of_mem _ (mem_append_left _ hc), h⟩
      · obtain ⟨c, hc, h⟩ := ihn hq
        exact ⟨c, mem_cons_of_mem _ (mem_append_right _ hc), h⟩

/-- What a rule that is accepted leaves at a node with its signature id, over which it must have been
written, and what it is itself. -/
theorem Read.overwrite (hw : s.WellFormed) (hs : s.SameRule)
    (hsid : 10 ≤ N.sigid) (h : Read wordMatch s N s') {a : RuleNode}
    (ha : a ∈ s.rulenode.labels) (haN : s.sigidAt a = N.sigid) :
    s'.rule a.ruleinfo = copyRuleInfo (s.rule a.ruleinfo) N ∧
      s'.rule s.rules = s.setEventSearch s.rules N := by
  rcases h.cases with ⟨hlt, -⟩ | ⟨-, -, q, hq, rfl⟩ | ⟨-, hnew, -⟩
  · exact absurd hlt (not_lt.mpr hsid)
  · obtain ⟨b, hb, rfl, hbN⟩ := findSid_eq_some hq
    have hbs : s.sigidAt b = N.sigid :=
      (congrArg RuleInfo.sigid (sigidAt_alloc hw N hb)).symm.trans hbN
    have hba : b.ruleinfo = a.ruleinfo := hs b hb a ha (hbs.trans haN.symm) (hbs ▸ hsid)
    have hne : a.ruleinfo ≠ s.rules := (hw a ha).2.ne
    constructor
    · show (if a.ruleinfo = s.rules then _ else
        if a.ruleinfo = b.ruleinfo then copyRuleInfo ((s.alloc N).rule a.ruleinfo) N else _) = _
      rw [if_neg hne, if_pos hba.symm, sigidAt_alloc hw N ha]
    · show (if s.rules = s.rules then setEventSearch _ s.rules
        (if s.rules = b.ruleinfo then _ else if s.rules = s.rules then N else _) else _) = _
      rw [if_pos rfl, if_neg (hba ▸ Ne.symm hne), if_pos rfl]
      apply setEventSearch_congr
      · rfl
      · intro c hc
        rw [sigidAt_copyRuleInfo]
        exact congrArg RuleInfo.sigid (sigidAt_alloc hw N hc)
  · exact absurd haN (doesRuleExist_eq_false.mp hnew a ha)

/-- The overwritten rule accepts the events that the new rule accepts, exactly if on every event that
passes the tests of the copied fields of the new rule, the other fields of the old rule give the
answer that those of the new one give. -/
theorem readRule_overwrites_iff {Ns : List RuleInfo} (hs : Run (Read wordMatch) osCreateRuleList Ns s)
    (hsid : 10 ≤ N.sigid) (h : Read wordMatch s N s') {a : RuleNode}
    (ha : a ∈ s.rulenode.labels) (haN : s.sigidAt a = N.sigid) (env : MatchEnv) :
    (∀ lf, env.ruleMatches lf (s'.rule a.ruleinfo) = env.ruleMatches lf (s'.rule s.rules)) ↔
      ∀ lf, env.checkCopied lf N →
        env.checkLeft lf N (s.rule a.ruleinfo) =
          env.checkLeft lf N (s.setEventSearch s.rules N) := by
  obtain ⟨hw, hsame⟩ := sameRule_of_run hs
  obtain ⟨hR, hN⟩ := h.overwrite hw hsame hsid ha haN
  refine forall_congr' fun lf => ?_
  rw [hR, hN, MatchEnv.ruleMatches_eq, MatchEnv.ruleMatches_eq, MatchEnv.checkLeft_copyRuleInfo,
    MatchEnv.checkCopied_copyRuleInfo haN, checkCopied_setEventSearch, checkLeft_setEventSearch]
  cases env.checkCopied lf N <;> simp

/-- Engines that look for their pattern as it is written, and nothing else known. -/
def literalEnv : MatchEnv where
  osMatchExecute s _ p := s.tails.any p.isPrefixOf
  osRegexExecute s p := s.tails.any p.isPrefixOf
  osPcre2Execute s p := s.tails.any p.isPrefixOf
  osIPFoundList s ips := ips.contains s
  osIsonTime _ _ := false
  osIsonDay _ := false
  compiledRule _ _ := false
  doDiff _ _ := false
  fts _ := false
  osDBSearch _ _ := false
  decoder_order_size := 8
  sidPrevMatched _ := []
  groupPrevMatched _ := []
  eventList := []

/-- A rule below rule 1, with the text that it matches and the one that it matches by PCRE2. -/
def ruleMatching (alert_opts : ℕ) («match» match_pcre2 : Option Bytes) : RuleInfo :=
  { sigid := 100, level := 500, category := 1, if_sid := some [chr '1'], alert_opts := alert_opts,
    «match» := «match», match_pcre2 := match_pcre2 }

/-- Rule 1 and a rule below it. -/
def rulesMatching («match» match_pcre2 : Option Bytes) : List RuleInfo := [
  { sigid := 1, level := 9900, category := 1 },
  ruleMatching 0 «match» match_pcre2]

theorem readRule_overwrites_match :
    ∃ s s' a, Run (Read fun _ _ => false) osCreateRuleList (rulesMatching (some [chr 'a']) none) s ∧
      Read (fun _ _ => false) s (ruleMatching DO_OVERWRITE (some [chr 'b']) none) s' ∧
      a ∈ s.rulenode.labels ∧
      ∀ lf, literalEnv.ruleMatches lf (s'.rule a.ruleinfo) =
        literalEnv.ruleMatches lf (s'.rule s.rules) := by
  have hex : ∃ s ∈ readRules (fun _ _ => false) 10 osCreateRuleList
      (rulesMatching (some [chr 'a']) none),
      ∃ s' ∈ s.readRule (fun _ _ => false) 10 (ruleMatching DO_OVERWRITE (some [chr 'b']) none),
      ∃ a ∈ s.rulenode.labels, s.sigidAt a = 100 ∧
        s.rule a.ruleinfo = ruleMatching 0 (some [chr 'a']) none ∧
        s.setEventSearch s.rules (ruleMatching DO_OVERWRITE (some [chr 'b']) none) =
          ruleMatching DO_OVERWRITE (some [chr 'b']) none := by decide +kernel
  obtain ⟨s, hs, s', hs', a, ha, haN, hR, hN⟩ := hex
  refine ⟨s, s', a, run_of_readRules hs, ⟨10, hs'⟩, ha, ?_⟩
  refine (readRule_overwrites_iff (run_of_readRules hs) (by decide) ⟨10, hs'⟩ ha haN
    literalEnv).mpr fun lf _ => ?_
  rw [hR, hN]
  rfl

/-- A rule with a PCRE2 pattern, overwritten with another one: the old pattern survives. -/
theorem not_overwrites_match_pcre2 :
    ¬ ∀ wordMatch Ns s N s' a (env : MatchEnv), Run (Read wordMatch) osCreateRuleList Ns s →
      hasFlag N.alert_opts DO_OVERWRITE → 10 ≤ N.sigid → Read wordMatch s N s' →
      a ∈ s.rulenode.labels → s.sigidAt a = N.sigid →
      ∀ lf, env.ruleMatches lf (s'.rule a.ruleinfo) = env.ruleMatches lf (s'.rule s.rules) := by
  intro hall
  let lf : Eventinfo :=
    { log := [chr 'a'], full_log := [chr 'a'], decoder_info := { id := 0, type := 1 }, size := 1,
      time := 0, hour := [] }
  have hex : ∃ s ∈ readRules (fun _ _ => false) 10 osCreateRuleList
      (rulesMatching none (some [chr 'a'])),
      ∃ s' ∈ s.readRule (fun _ _ => false) 10 (ruleMatching DO_OVERWRITE none (some [chr 'b'])),
      ∃ a ∈ s.rulenode.labels, s.sigidAt a = 100 ∧
        literalEnv.ruleMatches lf (s'.rule a.ruleinfo) ≠
          literalEnv.ruleMatches lf (s'.rule s.rules) := by decide +kernel
  obtain ⟨s, hs, s', hs', a, ha, haN, hne⟩ := hex
  exact hne (hall _ _ s _ s' a literalEnv (run_of_readRules hs) (by decide) (by decide) ⟨10, hs'⟩ ha
    haN lf)

end RulesList
