import OssecHids.Analysisd.Search

/-!
# Context options

What the options of a frequency rule ask of an earlier event, and the flags that the reader sets for
them.

- `gateSet_readContext`: an option that is tested under `SAME_EXTRAINFO` comes with that flag.
-/

open CString

/-! ## The options of a rule -/

/-- The elements of a rule that set or clear context options. -/
inductive ContextElement
  | same_source_ip
  | same_src_port
  | check_diff
  | same_dst_port
  | not_same_source_ip
  | same_id
  | different_url
  | different_srcip
  | different_srcgeoip
  | not_same_id
  | same_user
  | not_same_user
  | same_location
  | not_same_agent
  deriving DecidableEq, Repr

namespace RuleInfo

def setContext (N : RuleInfo) (flag : ℕ) : RuleInfo :=
  { N with context_opts := N.context_opts ||| flag }

def clearContext (N : RuleInfo) (mask : ℕ) : RuleInfo :=
  { N with context_opts := N.context_opts &&& mask }

def setAlert (N : RuleInfo) (flag : ℕ) : RuleInfo :=
  if hasFlag N.alert_opts flag then N else { N with alert_opts := N.alert_opts ||| flag }

/-- What the reader does at such an element. -/
def readContextElement (N : RuleInfo) : ContextElement → RuleInfo
  | .same_source_ip => N.setContext SAME_SRCIP
  | .same_src_port => (N.setContext SAME_SRCPORT).setAlert SAME_EXTRAINFO
  | .check_diff => ({ N with context := 1 }.setContext SAME_DODIFF).setAlert DO_EXTRAINFO
  | .same_dst_port => (N.setContext SAME_DSTPORT).setAlert SAME_EXTRAINFO
  | .not_same_source_ip => N.clearContext 0xffd
  | .same_id => N.setContext SAME_ID
  | .different_url => (N.setContext DIFFERENT_URL).setAlert SAME_EXTRAINFO
  | .different_srcip => (N.setContext DIFFERENT_SRCIP).setAlert SAME_EXTRAINFO
  | .different_srcgeoip => (N.setContext DIFFERENT_SRCGEOIP).setAlert SAME_EXTRAINFO
  | .not_same_id => N.clearContext 0xffb
  | .same_user => (N.setContext SAME_USER).setAlert SAME_EXTRAINFO
  | .not_same_user => N.clearContext 0xffe
  | .same_location => (N.setContext SAME_LOCATION).setAlert SAME_EXTRAINFO
  | .not_same_agent => N.clearContext 0xff7

/-- A rule without context options, with the elements that follow. -/
def readContext (N : RuleInfo) (elements : List ContextElement) : RuleInfo :=
  elements.foldl readContextElement { N with context_opts := 0 }

end RuleInfo

/-- The context options of a rule that restrict which earlier events count. -/
inductive ContextOption
  | same_source_ip
  | same_src_port
  | same_dst_port
  | same_id
  | same_user
  | same_location
  | different_url
  | different_srcip
  | different_srcgeoip
  deriving DecidableEq, Repr

namespace ContextOption

def flag : ContextOption → ℕ
  | same_source_ip => SAME_SRCIP
  | same_src_port => SAME_SRCPORT
  | same_dst_port => SAME_DSTPORT
  | same_id => SAME_ID
  | same_user => SAME_USER
  | same_location => SAME_LOCATION
  | different_url => DIFFERENT_URL
  | different_srcip => DIFFERENT_SRCIP
  | different_srcgeoip => DIFFERENT_SRCGEOIP

/-- What an option asks of an earlier event. -/
def holds (my_lf lf : Eventinfo) : ContextOption → Bool
  | same_source_ip => sameStr lf.srcip my_lf.srcip
  | same_src_port => sameStr lf.srcport my_lf.srcport
  | same_dst_port => sameStr lf.dstport my_lf.dstport
  | same_id => sameStr lf.id my_lf.id
  | same_user => sameStr lf.dstuser my_lf.dstuser
  | same_location => sameStr lf.location my_lf.location
  | different_url => differentStr lf.url my_lf.url
  | different_srcip => differentStr lf.srcip my_lf.srcip
  | different_srcgeoip => differentStr lf.geo my_lf.geo

/-- The options that the first two searches test for every rule. -/
def ungated : List ContextOption := [same_id, same_source_ip]

/-- The options that they test for a rule with `SAME_EXTRAINFO`. -/
def gated : List ContextOption :=
  [same_src_port, same_dst_port, same_user, same_location, different_url, different_srcgeoip]

/-- The options that `Search_LastEvents` tests. -/
def lastEvents : List ContextOption :=
  [same_user, same_id, same_source_ip, different_url, different_srcgeoip]

end ContextOption

open ContextOption

def RuleInfo.carries (rule : RuleInfo) (o : ContextOption) : Bool := hasFlag rule.context_opts o.flag

/-- An earlier event satisfies those of the options that the rule carries. -/
def satisfies (rule : RuleInfo) (my_lf lf : Eventinfo) (os : List ContextOption) : Bool :=
  os.all fun o => !rule.carries o || o.holds my_lf lf

/-- An earlier event is inside the timeframe and has not been matched at the rule's level. -/
def inWindow (rule : RuleInfo) (my_lf lf : Eventinfo) : Bool :=
  decide (my_lf.time - lf.time ≤ rule.timeframe) && decide (lf.matched < rule.level)

/-! ## What the reader makes of the options -/

/-- A rule that carries an option tested under `SAME_EXTRAINFO` has that flag. -/
def GateSet (N : RuleInfo) : Prop :=
  hasFlag N.alert_opts SAME_EXTRAINFO ∨ ∀ o ∈ gated, N.carries o = false

theorem carries_setContext {N : RuleInfo} {flag : ℕ} {o : ContextOption} :
    (N.setContext flag).carries o = (N.carries o || hasFlag flag o.flag) :=
  hasFlag_or _ _ _

theorem hasFlag_setAlert (N : RuleInfo) (flag : ℕ) (hflag : hasFlag flag flag) :
    hasFlag (N.setAlert flag).alert_opts flag := by
  unfold RuleInfo.setAlert
  split
  case isTrue h => exact h
  case isFalse h =>
    rw [hasFlag_or, hflag, Bool.or_true]

theorem GateSet.setContext {N : RuleInfo} (hN : GateSet N) {flag : ℕ}
    (hflag : ∀ o ∈ gated, hasFlag flag o.flag = false) : GateSet (N.setContext flag) := by
  refine hN.imp_right fun h o ho => ?_
  rw [carries_setContext, h o ho, hflag o ho]
  rfl

theorem GateSet.clearContext {N : RuleInfo} (hN : GateSet N) (mask : ℕ) :
    GateSet (N.clearContext mask) := by
  refine hN.imp_right fun h o ho => Bool.eq_false_iff.mpr fun hc => ?_
  exact Bool.false_ne_true ((h o ho).symm.trans (hasFlag_of_and hc))

theorem gateSet_setAlert (N : RuleInfo) : GateSet (N.setAlert SAME_EXTRAINFO) :=
  .inl (hasFlag_setAlert N SAME_EXTRAINFO (by decide))

theorem GateSet.setAlert {N : RuleInfo} (hN : GateSet N) (flag : ℕ) :
    GateSet (N.setAlert flag) := by
  unfold RuleInfo.setAlert
  split
  · exact hN
  · refine hN.imp_left fun h => ?_
    rw [hasFlag_or, h, Bool.true_or]

theorem GateSet.readContextElement {N : RuleInfo} (hN : GateSet N) (e : ContextElement) :
    GateSet (N.readContextElement e) := by
  cases e with
  | same_source_ip => exact hN.setContext (by decide)
  | same_id => exact hN.setContext (by decide)
  | check_diff =>
    have hdiff : GateSet { N with context := 1 } := hN
    exact (hdiff.setContext (by decide)).setAlert _
  | not_same_source_ip => exact hN.clearContext _
  | not_same_id => exact hN.clearContext _
  | not_same_user => exact hN.clearContext _
  | not_same_agent => exact hN.clearContext _
  | same_src_port => exact gateSet_setAlert _
  | same_dst_port => exact gateSet_setAlert _
  | different_url => exact gateSet_setAlert _
  | different_srcip => exact gateSet_setAlert _
  | different_srcgeoip => exact gateSet_setAlert _
  | same_user => exact gateSet_setAlert _
  | same_location => exact gateSet_setAlert _

theorem gateSet_readContext (N : RuleInfo) (elements : List ContextElement) :
    GateSet (N.readContext elements) := by
  have hfold : ∀ M : RuleInfo, GateSet M →
      GateSet (elements.foldl RuleInfo.readContextElement M) := by
    induction elements with
    | nil => exact fun _ hM => hM
    | cons e elements ih => exact fun M hM => ih _ (hM.readContextElement e)
  exact hfold _ (.inr fun o _ => by simp [RuleInfo.carries, hasFlag])

/-- Two rules that differ in the context, the context options and the alert options only. -/
def SameButOptions (N M : RuleInfo) : Prop :=
  ∃ context context_opts alert_opts,
    M = { N with context := context, context_opts := context_opts, alert_opts := alert_opts }

theorem sameButOptions_setAlert (N : RuleInfo) (flag : ℕ) : SameButOptions N (N.setAlert flag) := by
  unfold RuleInfo.setAlert
  split
  · exact ⟨_, _, _, rfl⟩
  · exact ⟨_, _, _, rfl⟩

theorem SameButOptions.trans {N M K : RuleInfo} (h₁ : SameButOptions N M)
    (h₂ : SameButOptions M K) : SameButOptions N K := by
  obtain ⟨_, _, _, rfl⟩ := h₁
  obtain ⟨_, _, _, rfl⟩ := h₂
  exact ⟨_, _, _, rfl⟩

theorem SameButOptions.level {N M : RuleInfo} (h : SameButOptions N M) : M.level = N.level := by
  obtain ⟨_, _, _, rfl⟩ := h
  rfl

theorem SameButOptions.if_matched_regex {N M : RuleInfo} (h : SameButOptions N M) :
    M.if_matched_regex = N.if_matched_regex := by
  obtain ⟨_, _, _, rfl⟩ := h
  rfl

theorem sameButOptions_readContextElement (N : RuleInfo) (e : ContextElement) :
    SameButOptions N (N.readContextElement e) := by
  have hset : ∀ flag, SameButOptions N (N.setContext flag) := fun _ => ⟨_, _, _, rfl⟩
  have hclear : ∀ mask, SameButOptions N (N.clearContext mask) := fun _ => ⟨_, _, _, rfl⟩
  have hboth : ∀ flag, SameButOptions N ((N.setContext flag).setAlert SAME_EXTRAINFO) :=
    fun flag => (hset flag).trans (sameButOptions_setAlert _ _)
  cases e with
  | check_diff =>
    have hdiff : SameButOptions N ({ N with context := 1 }.setContext SAME_DODIFF) :=
      ⟨_, _, _, rfl⟩
    exact hdiff.trans (sameButOptions_setAlert _ _)
  | same_source_ip => exact hset _
  | same_id => exact hset _
  | not_same_source_ip => exact hclear _
  | not_same_id => exact hclear _
  | not_same_user => exact hclear _
  | not_same_agent => exact hclear _
  | same_src_port => exact hboth _
  | same_dst_port => exact hboth _
  | different_url => exact hboth _
  | different_srcip => exact hboth _
  | different_srcgeoip => exact hboth _
  | same_user => exact hboth _
  | same_location => exact hboth _

theorem sameButOptions_readContext (N : RuleInfo) (elements : List ContextElement) :
    SameButOptions N (N.readContext elements) := by
  have hfold : ∀ M : RuleInfo, SameButOptions N M →
      SameButOptions N (elements.foldl RuleInfo.readContextElement M) := by
    induction elements with
    | nil => exact fun _ hM => hM
    | cons e elements ih =>
      exact fun M hM => ih _ (hM.trans (sameButOptions_readContextElement M e))
  exact hfold _ ⟨_, _, _, rfl⟩
