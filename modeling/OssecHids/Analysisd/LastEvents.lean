import OssecHids.Analysisd.Correlation

/-!
# Correlation over the event list

`Search_LastEvents` repeats the tests of `Search_LastSids`, but not those for `same_src_port`,
`same_dst_port` and `same_location`.

- `searchLastEvents_agrees_iff`: the two searches agree for the rules that carry none of these.
-/

open CString ContextOption Scan List

variable {rule : RuleInfo} {my_lf lf : Eventinfo} {events : List Eventinfo}

/-- `Search_LastEvents` counts the events of the window that satisfy the options it tests. -/
theorem lastEventsTest_eq {osRegexExecute : Bytes → Bytes → Bool}
    (htype : lf.decoder_info.type = my_lf.decoder_info.type)
    (hregex : ∀ regex ∈ rule.if_matched_regex, osRegexExecute lf.log regex) :
    lastEventsTest osRegexExecute rule my_lf lf =
      if inWindow rule my_lf lf then
        if satisfies rule my_lf lf lastEvents then .count else .skip
      else .stop := by
  by_cases hw : inWindow rule my_lf lf
  · have hlevel : ¬ lf.matched ≥ rule.level := by
      simp only [inWindow, Bool.and_eq_true, decide_eq_true_eq] at hw
      omega
    have hany : (rule.if_matched_regex.any fun regex => !osRegexExecute lf.log regex) = false := by
      cases hr : rule.if_matched_regex with
      | none => rfl
      | some regex => simp [hregex regex hr]
    rw [lastEventsTest, of_inWindow hw, if_pos hw, if_neg (not_not_intro htype), hany,
      if_neg Bool.false_ne_true, if_neg hlevel]
    cases hgeo : hasFlag rule.context_opts DIFFERENT_SRCGEOIP with
    | false =>
      simp only [Bool.false_eq_true, if_false, ite_skip_count, ite_skip_ite]
      simp [satisfies, lastEvents, RuleInfo.carries, flag, holds, hgeo]
    | true =>
      have hlast : (if (!differentStr lf.geo my_lf.geo) = true then Verdict.skip else .count) =
          if differentStr lf.geo my_lf.geo = true then .count else .skip := by
        cases differentStr lf.geo my_lf.geo <;> rfl
      simp only [if_true, hlast, ite_skip_ite]
      simp [satisfies, lastEvents, RuleInfo.carries, flag, holds, hgeo]
  · rw [lastEventsTest, stop_of_not_inWindow hw, if_neg hw]


/-- The options that `Search_LastSids` tests and `Search_LastEvents` does not. -/
def untested : List ContextOption := [same_src_port, same_dst_port, same_location]

/-- For a rule that carries none of these, what the one search tests is what the other tests. -/
theorem satisfies_lastEvents (h : ∀ o ∈ untested, rule.carries o = false) :
    satisfies rule my_lf lf lastEvents = satisfies rule my_lf lf (ungated ++ gated) := by
  have hport := h same_src_port (by decide)
  have hdst := h same_dst_port (by decide)
  have hloc := h same_location (by decide)
  rw [Bool.eq_iff_iff]
  simp only [satisfies, lastEvents, ungated, gated, cons_append, nil_append, all_cons, all_nil,
    hport, hdst, hloc, Bool.not_false, Bool.true_or, Bool.true_and, Bool.and_true, Bool.and_eq_true]
  tauto

/-- An earlier event without ports and without a location, and otherwise as the options ask. -/
def placelessEvent (s : Bytes) : Eventinfo :=
  { uniformEvent s [2] with srcport := none, dstport := none, location := none }

theorem satisfies_placelessEvent (rule : RuleInfo) (s : Bytes) :
    satisfies rule (uniformEvent s [1]) (placelessEvent s) lastEvents := by
  refine all_eq_true.mpr fun o ho => ?_
  have hholds : o.holds (uniformEvent s [1]) (placelessEvent s) = true := by
    cases o with
    | different_srcip => exact absurd ho (by decide)
    | same_src_port => exact absurd ho (by decide)
    | same_dst_port => exact absurd ho (by decide)
    | same_location => exact absurd ho (by decide)
    | _ => simp [holds, placelessEvent, uniformEvent, sameStr, differentStr, Eventinfo.geo]
  rw [hholds, Bool.or_true]

theorem not_satisfies_placelessEvent {o : ContextOption} (ho : o ∈ untested) (s : Bytes)
    (hcarries : rule.carries o = true) :
    satisfies rule (uniformEvent s [1]) (placelessEvent s) (ungated ++ gated) = false := by
  have hfalse : o.holds (uniformEvent s [1]) (placelessEvent s) = false := by
    rcases mem_cons.mp ho with rfl | ho
    · rfl
    · rcases mem_cons.mp ho with rfl | ho
      · rfl
      · rw [mem_singleton.mp ho]
        rfl
  have hsub : ∀ o ∈ untested, o ∈ ungated ++ gated := by decide
  refine Bool.eq_false_iff.mpr fun hall => ?_
  have ho' := all_eq_true.mp hall o (hsub o ho)
  rw [hcarries, hfalse] at ho'
  exact Bool.false_ne_true ho'

/-- What the claim about a history asks: the two searches fire together, and `Search_LastEvents`
counts no event that violates an option. -/
structure Agrees (osRegexExecute : Bytes → Bytes → Bool) (rule : RuleInfo) (my_lf : Eventinfo)
    (events : List Eventinfo) : Prop where
  fires : (searchLastEvents osRegexExecute my_lf rule events).ret.isSome ↔
    (searchLastSids my_lf rule (some events)).ret.isSome
  counts : ∀ lf ∈ events, lastEventsTest osRegexExecute rule my_lf lf = .count →
    satisfies rule my_lf lf (ungated ++ gated)

variable {osRegexExecute : Bytes → Bytes → Bool}

theorem searchLastEvents_ret : (searchLastEvents osRegexExecute my_lf rule events).ret =
    find (lastEventsTest osRegexExecute rule my_lf) rule.frequency 0 0 events := by
  rw [searchLastEvents, finishSearch_ret, searchLoop_fst]

theorem searchLastSids_ret : (searchLastSids my_lf rule (some events)).ret =
    find (lastSidsTest rule my_lf) rule.frequency 0 0 events := by
  rw [searchLastSids, finishSearch_ret, searchLoop_fst]

theorem agrees_of_test_eq (hg : GateSet rule) (h : ∀ lf ∈ events,
    lastEventsTest osRegexExecute rule my_lf lf = lastSidsTest rule my_lf lf) :
    Agrees osRegexExecute rule my_lf events := by
  constructor
  · rw [searchLastEvents_ret, searchLastSids_ret, find_congr h]
  · intro lf hlf hcount
    rw [h lf hlf, lastSidsTest_of_gateSet hg] at hcount
    split_ifs at hcount with hw hs
    exact hs

/-- A history on which only `Search_LastEvents` fires: events without ports and location. -/
theorem not_agrees_placeless (hg : GateSet rule) {o : ContextOption} (ho : o ∈ untested)
    (hcarries : rule.carries o = true) (hlevel : 0 < rule.level) {s : Bytes}
    (hregex : ∀ regex ∈ rule.if_matched_regex, osRegexExecute s regex) :
    ¬ Agrees osRegexExecute rule (uniformEvent s [1])
      (List.replicate (rule.frequency + 1) (placelessEvent s)) := by
  intro h
  have hw : inWindow rule (uniformEvent s [1]) (placelessEvent s) = true := by
    simp [inWindow, uniformEvent, placelessEvent, hlevel]
  have hcount : lastEventsTest osRegexExecute rule (uniformEvent s [1]) (placelessEvent s) =
      .count := by
    have htype : (placelessEvent s).decoder_info.type = (uniformEvent s [1]).decoder_info.type := rfl
    rw [lastEventsTest_eq htype hregex, if_pos hw, if_pos (satisfies_placelessEvent rule s)]
  have hskip : lastSidsTest rule (uniformEvent s [1]) (placelessEvent s) ≠ .count := by
    rw [lastSidsTest_of_gateSet hg, if_pos hw, not_satisfies_placelessEvent ho s hcarries]
    rintro ⟨⟩
  have hfires := h.fires
  rw [searchLastEvents_ret, searchLastSids_ret] at hfires
  have hnone : find (lastSidsTest rule (uniformEvent s [1])) rule.frequency 0 0
      (List.replicate (rule.frequency + 1) (placelessEvent s)) = none :=
    find_eq_none fun lf hlf => eq_of_mem_replicate hlf ▸ hskip
  rw [hnone] at hfires
  exact absurd (hfires.mp (find_replicate hcount)) Bool.false_ne_true

/-- For a rule of the reader the search of the event list agrees with the search by signature id on
every history of one decoder type, exactly if the rule carries none of the options that it does not
test, or never fires in this way: at level 0, or with a regex that no log matches. -/
theorem searchLastEvents_agrees_iff (osRegexExecute : Bytes → Bytes → Bool) (N : RuleInfo)
    (elements : List ContextElement) :
    (∀ my_lf events, (∀ lf ∈ events, lf.decoder_info.type = my_lf.decoder_info.type) →
      (∀ lf ∈ events, ∀ regex ∈ N.if_matched_regex, osRegexExecute lf.log regex) →
      Agrees osRegexExecute (N.readContext elements) my_lf events) ↔
    (∀ o ∈ untested, (N.readContext elements).carries o = false) ∨ N.level = 0 ∨
      ∃ regex ∈ N.if_matched_regex, ∀ log, osRegexExecute log regex = false := by
  have hg := gateSet_readContext N elements
  have hlevel := (sameButOptions_readContext N elements).level
  have hregex := (sameButOptions_readContext N elements).if_matched_regex
  rw [← hlevel, ← hregex]
  constructor
  · intro hall
    by_contra hnot
    simp only [not_or, not_forall, not_exists, not_and, Bool.not_eq_false] at hnot
    obtain ⟨⟨o, ho, hcarries⟩, hpos, hlog⟩ := hnot
    -- a log that the regex matches, if the rule has one
    have hs : ∃ s, ∀ regex ∈ (N.readContext elements).if_matched_regex, osRegexExecute s regex := by
      cases hr : (N.readContext elements).if_matched_regex with
      | none => exact ⟨[], nofun⟩
      | some regex =>
        obtain ⟨s, hs⟩ := hlog regex hr
        exact ⟨s, fun regex' h' => Option.some.inj h' ▸ hs⟩
    obtain ⟨s, hs⟩ := hs
    refine not_agrees_placeless hg ho hcarries (Nat.pos_of_ne_zero hpos) hs (hall _ _ ?_ ?_)
    · exact fun lf hlf => eq_of_mem_replicate hlf ▸ rfl
    · exact fun lf hlf => eq_of_mem_replicate hlf ▸ hs
  · intro h my_lf events htype hmatch
    refine agrees_of_test_eq hg fun lf hlf => ?_
    rw [lastEventsTest_eq (htype lf hlf) (hmatch lf hlf), lastSidsTest_of_gateSet hg]
    rcases h with h | h | ⟨regex, hr, hno⟩
    · rw [satisfies_lastEvents h]
    · rw [inWindow_of_level_eq_zero h]
      rfl
    · exact absurd ((hno lf.log).symm.trans (hmatch lf hlf regex hr)) Bool.false_ne_true

/-- Two earlier events without a source port, for a rule that asks for the same one. -/
theorem not_agrees_same_src_port :
    ¬ ∀ osRegexExecute (N : RuleInfo) elements my_lf events,
      (∀ lf ∈ events, lf.decoder_info.type = my_lf.decoder_info.type) →
      (∀ lf ∈ events, ∀ regex ∈ N.if_matched_regex, osRegexExecute lf.log regex) →
      Agrees osRegexExecute (N.readContext elements) my_lf events := by
  intro h
  have hfires := (h (fun _ _ => false)
    { sigid := 100, level := 5, frequency := 1, timeframe := 60, category := 1, context := 1 }
    [.same_src_port] (uniformEvent [1] [1]) [placelessEvent [1], placelessEvent [1]]
    (by decide) (by decide)).fires
  exact absurd hfires (by decide +kernel)
