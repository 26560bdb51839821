import OssecHids.Analysisd.Placement

/-!
# Reading a rule

What `Rules_OP_ReadRules` does with a rule once its elements have been read: the rule goes into the
tree, or over a rule of the tree, and gets the search for its context.

- `Read.wellFormed`, `Read.sameRule`: what every rule that is read keeps.
-/

open CString RuleHeap SiblingTree Transition Option

namespace RulesList

/-- The rule of the last node with the id, if there is one. -/
def lastOfSid (s : RulesList) (id : ℤ) : Option Ref :=
  ((s.rulenode.labels.filter fun a => s.sigidAt a == id).getLast?).map RuleNode.ruleinfo

/-- The end of the loop over the rules: the `event_search` pointer of the rule in memory at `r`. The
list that `OS_MarkID` sets goes by the rule that keeps it, a new group list by the rule itself. -/
def setEventSearch (s : RulesList) (r : Ref) (N : RuleInfo) : RuleInfo :=
  if N.if_matched_sid ≠ 0 then
    { N with
      event_search := some .lastSids
      sid_search := (s.lastOfSid N.if_matched_sid).or N.sid_search }
  else if N.if_matched_group.isSome then
    { N with group_search := some r, event_search := some .lastGroups }
  else if N.context ≠ 0 then
    if N.context = 1 ∧ hasFlag N.context_opts SAME_DODIFF then { N with context := 0 }
    else { N with event_search := some .lastEvents }
  else N

/-- The new rule, at `s.rules`, after the tree has been changed to `s'`. -/
def finishRead (s s' : RulesList) : RulesList :=
  { s' with toRuleHeap := s'.toRuleHeap.update s.rules (s'.setEventSearch s.rules) }

section Code

variable (wordMatch : Bytes → Bytes → Bool) (fuel : ℕ)

/-- A rule of `Rules_OP_ReadRules`, if the reader accepts it. -/
def readRule (s : RulesList) (N : RuleInfo) : Option RulesList :=
  if !hasFlag N.alert_opts DO_OVERWRITE && s.doesRuleExist N.sigid then none
  else if N.sigid < 10 then some (s.finishRead (s.osAddRule N))
  else if hasFlag N.alert_opts DO_OVERWRITE then
    match (s.alloc N).osAddRuleInfo N N.sigid with
    | (0, _) => none
    | (_ + 1, s') => some (s.finishRead s')
  else
    match osAddChild wordMatch fuel s N with
    | .returns _ s' => some (s.finishRead s')
    | _ => none

/-- Rule after rule, as long as they are accepted. -/
def readRules (s : RulesList) (Ns : List RuleInfo) : Option RulesList :=
  Ns.foldlM (readRule wordMatch fuel) s

/-- A rule that is accepted, whatever fuel it takes. -/
def Read (s : RulesList) (N : RuleInfo) (s' : RulesList) : Prop :=
  ∃ fuel, s.readRule wordMatch fuel N = some s'

end Code

variable {wordMatch : Bytes → Bytes → Bool} {fuel : ℕ} {s s' : RulesList} {N : RuleInfo}

theorem run_of_readRules {Ns : List RuleInfo} (h : s.readRules wordMatch fuel Ns = some s') :
    Run (Read wordMatch) s Ns s' := by
  induction Ns generalizing s with
  | nil =>
    obtain rfl := some.inj h
    exact .nil s
  | cons N Ns ih =>
    rw [readRules, List.foldlM_cons] at h
    obtain ⟨s₁, h₁, h⟩ := bind_eq_some_iff.mp h
    exact .cons ⟨fuel, h₁⟩ (ih h)

/-- Nodes with the signature id of a rule that is no template hold the same rule. -/
def SameRule (s : RulesList) : Prop :=
  ∀ a ∈ s.rulenode.labels, ∀ b ∈ s.rulenode.labels, s.sigidAt a = s.sigidAt b → 10 ≤ s.sigidAt a →
    a.ruleinfo = b.ruleinfo

/-! ## What the end of the loop changes -/

theorem setEventSearch_sigid (r : Ref) : (s.setEventSearch r N).sigid = N.sigid := by
  unfold setEventSearch
  split_ifs <;> rfl

theorem sigidAt_finishRead (s s' : RulesList) : (s.finishRead s').sigidAt = s'.sigidAt := by
  ext a
  show (if a.ruleinfo = s.rules then _ else s'.rule a.ruleinfo).sigid = _
  split
  · exact setEventSearch_sigid s.rules
  · rfl

theorem wellFormed_finishRead : (s.finishRead s').WellFormed ↔ s'.WellFormed := Iff.rfl

/-! ## What reading a rule does -/

/-- An accepted rule has been put into the top list, has been written over the rule with its
signature id, or is new and has been put below its parents. -/
theorem Read.cases (h : Read wordMatch s N s') :
    (N.sigid < 10 ∧ s' = s.finishRead (s.osAddRule N)) ∨
    (10 ≤ N.sigid ∧ hasFlag N.alert_opts DO_OVERWRITE ∧
      ∃ q, findSid (s.alloc N).toRuleHeap N.sigid s.rulenode = some q ∧
        s' = s.finishRead { s.alloc N with
          toRuleHeap := (s.alloc N).toRuleHeap.update q fun old => copyRuleInfo old N }) ∨
    (10 ≤ N.sigid ∧ s.doesRuleExist N.sigid = false ∧
      ∃ fuel code s₁, osAddChild wordMatch fuel s N = .returns code s₁ ∧
        s' = s.finishRead s₁) := by
  obtain ⟨fuel, h⟩ := h
  simp only [readRule] at h
  split_ifs at h with hdup hlt hover
  · exact .inl ⟨hlt, (some.inj h).symm⟩
  · refine .inr (.inl ⟨not_lt.mp hlt, hover, ?_⟩)
    have h0 : N.sigid ≠ 0 := by omega
    rw [osAddRuleInfo, if_neg h0] at h
    cases hq : findSid (s.alloc N).toRuleHeap N.sigid (s.alloc N).rulenode with
    | none => rw [hq] at h; cases h
    | some q =>
      rw [hq] at h
      exact ⟨q, hq, (some.inj h).symm⟩
  · refine .inr (.inr ⟨not_lt.mp hlt, ?_, fuel, ?_⟩)
    · simpa [hover] using hdup
    · split at h
      case h_1 code s₁ he => exact ⟨code, s₁, he, (some.inj h).symm⟩
      case h_2 => cases h

theorem Read.wellFormed (hs : s.WellFormed) (h : Read wordMatch s N s') : s'.WellFormed := by
  rcases h.cases with ⟨-, rfl⟩ | ⟨-, -, q, -, rfl⟩ | ⟨-, -, fuel, code, s₁, he, rfl⟩
  · have hstep : Step wordMatch s (.osAddRule N) (s.osAddRule N) := ⟨0, rfl⟩
    exact wellFormed_finishRead.mpr (hstep.wellFormed hs)
  · exact wellFormed_finishRead.mpr (hs.alloc N)
  · have hstep : Step wordMatch s (.osAddChild N) s₁ := ⟨fuel, by rw [perform, he]⟩
    exact wellFormed_finishRead.mpr (hstep.wellFormed hs)

theorem sigidAt_alloc_self (s : RulesList) (N : RuleInfo) (seq : ℕ) :
    (s.alloc N).sigidAt { ruleinfo := s.rules, seq := seq } = N.sigid :=
  congrArg RuleInfo.sigid (if_pos rfl)

/-- If a state has, besides the old nodes, only new nodes of a new rule, and no old node has the
signature id of that rule, then nodes of one id still hold the same rule. -/
theorem SameRule.of_new (hw : s.WellFormed) (hs : s.SameRule)
    (hsid : s'.sigidAt = (s.alloc N).sigidAt)
    (hlabels : ∀ a ∈ s'.rulenode.labels, a ∈ s.rulenode.labels ∨ a.ruleinfo = s.rules)
    (hnew : N.sigid < 10 ∨ s.doesRuleExist N.sigid = false) : s'.SameRule := by
  have hold : ∀ a ∈ s.rulenode.labels, s'.sigidAt a = s.sigidAt a := fun a ha => by
    rw [hsid]
    exact congrArg RuleInfo.sigid (sigidAt_alloc hw N ha)
  have hfresh : ∀ a : RuleNode, a.ruleinfo = s.rules → s'.sigidAt a = N.sigid := by
    rintro ⟨r, seq⟩ rfl
    rw [hsid, sigidAt_alloc_self]
  have hne : ∀ a ∈ s.rulenode.labels, 10 ≤ N.sigid → s'.sigidAt a ≠ N.sigid := by
    intro a ha hten
    rw [hold a ha]
    exact doesRuleExist_eq_false.mp (hnew.resolve_left (not_lt.mpr hten)) a ha
  intro a ha b hb hab hten
  rcases hlabels a ha with ha' | ha' <;> rcases hlabels b hb with hb' | hb'
  · rw [hold a ha', hold b hb'] at hab
    exact hs a ha' b hb' hab (hold a ha' ▸ hten)
  · rw [hfresh b hb'] at hab
    exact absurd hab (hne a ha' (hab ▸ hten))
  · rw [hfresh a ha'] at hab hten
    exact absurd hab.symm (hne b hb' hten)
  · rw [ha', hb']

/-- The nodes after `OS_AddChild` are the old ones and new ones of the new rule. -/
theorem osAddChild_labels {code : ℕ} (hw : s.WellFormed)
    (h : osAddChild wordMatch fuel s N = .returns code s') :
    ∀ a ∈ s'.rulenode.labels, a ∈ s.rulenode.labels ∨ a.ruleinfo = s.rules := by
  have hhang := (osAddChild_hang h).2
  intro a ha
  rcases hhang.mem_labels a ha with ha' | ha'
  · exact .inl ha'
  · exact .inr (hhang.newHold (newHold_self hw) a ha ha')

theorem sigidAt_copyRuleInfo (s : RulesList) (q : Ref) (N : RuleInfo) :
    (s.toRuleHeap.update q fun old => copyRuleInfo old N).sigidAt = s.sigidAt := by
  ext a
  show (if a.ruleinfo = q then copyRuleInfo (s.rule a.ruleinfo) N else s.rule a.ruleinfo).sigid = _
  split <;> rfl

theorem Read.sameRule (hw : s.WellFormed) (hs : s.SameRule) (h : Read wordMatch s N s') :
    s'.SameRule := by
  rcases h.cases with ⟨hlt, rfl⟩ | ⟨-, -, q, -, rfl⟩ | ⟨-, hnew, fuel, code, s₁, he, rfl⟩
  · refine hs.of_new hw (sigidAt_finishRead _ _) (fun a ha => ?_) (.inl hlt)
    rcases mem_labels_insertBefore.mp ha with rfl | ha
    · exact .inr rfl
    · exact .inl ha
  · -- no node is new, and no signature id has changed
    intro a ha b hb hab hten
    have hsid : ∀ c ∈ s.rulenode.labels, (s.finishRead { s.alloc N with
        toRuleHeap := (s.alloc N).toRuleHeap.update q fun old => copyRuleInfo old N }).sigidAt c =
        s.sigidAt c := fun c hc => by
      rw [sigidAt_finishRead, sigidAt_copyRuleInfo]
      exact congrArg RuleInfo.sigid (sigidAt_alloc hw N hc)
    rw [hsid a ha, hsid b hb] at hab
    rw [hsid a ha] at hten
    exact hs a ha b hb hab hten
  · have hlabels := osAddChild_labels hw he
    refine hs.of_new hw ?_ hlabels (.inr hnew)
    rw [sigidAt_finishRead]
    exact (osAddChild_hang he).2.frame.sigidAt

/-- In every state of the reader the references are allocated, and nodes of one signature id hold
the same rule. -/
theorem sameRule_of_run {Ns : List RuleInfo} (h : Run (Read wordMatch) osCreateRuleList Ns s) :
    s.WellFormed ∧ s.SameRule := by
  have hstep : ∀ s N s', s.WellFormed ∧ s.SameRule → Read wordMatch s N s' →
      s'.WellFormed ∧ s'.SameRule := fun s N s' hs hread =>
    ⟨hread.wellFormed hs.1, hread.sameRule hs.1 hs.2⟩
  exact h.invariant hstep ⟨wellFormed_osCreateRuleList, fun a ha => absurd ha List.not_mem_nil⟩

end RulesList
