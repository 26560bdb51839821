import OssecHids.Lib.SiblingTree
import OssecHids.Lib.Transition
import OssecHids.Analysisd.RuleInfo

/-!
# The rule tree

`rules_list.c` while the rule files are read. A node holds a reference to its rule, so that a rule
with several parents, or one that is overwritten, is the same rule at all its nodes.

- `addtoRule_hang`: all that the walk of `_AddtoRule` does is to hang new leaves for its rule;
- `osAddChild_hang`, `Step.wellFormed`: what follows for `OS_AddChild` and for a step of the reader.
-/

open CString List Option

/-- `RuleNode`, with its number in the order in which the nodes are allocated. -/
structure RuleNode where
  ruleinfo : Ref
  seq : ℕ
  deriving DecidableEq, Repr

/-- The rule with what it takes over from a parent. -/
def RuleInfo.inherit (N : RuleInfo) (category : ℕ) (last_events : Option Ref) : RuleInfo :=
  { N with category := category, last_events := last_events }

/-- The rules behind the references, and how many nodes have been allocated. -/
structure RuleHeap where
  rule : Ref → RuleInfo
  nodes : ℕ

structure RulesList extends RuleHeap where
  /-- How many rules have been read. -/
  rules : ℕ
  rulenode : SiblingTree RuleNode

namespace RuleHeap

/-- The signature id of the rule that a node holds. -/
def sigidAt (h : RuleHeap) (a : RuleNode) : ℤ := (h.rule a.ruleinfo).sigid

def update (h : RuleHeap) (r : Ref) (f : RuleInfo → RuleInfo) : RuleHeap :=
  { h with rule := fun q => if q = r then f (h.rule q) else h.rule q }

/-- `_OS_AddRule`: the new node, and the list with the node before the first lower level. -/
def osAddRuleInternal (h : RuleHeap) (list : SiblingTree RuleNode) (read_rule : Ref) :
    SiblingTree RuleNode × RuleHeap :=
  (list.insertBefore
    (fun tmp => decide ((h.rule read_rule).level > (h.rule tmp.ruleinfo).level))
    { ruleinfo := read_rule, seq := h.nodes }, { h with nodes := h.nodes + 1 })

/-- If the rule has no context, use that of the parent. -/
def inheritLastEvents (h : RuleHeap) (parent read_rule : Ref) : RuleHeap :=
  h.update read_rule fun N => N.inherit N.category
    (if N.last_events.isNone then (h.rule parent).last_events else N.last_events)

def inheritCategory (h : RuleHeap) (parent read_rule : Ref) : RuleHeap :=
  h.update read_rule fun N => N.inherit (h.rule parent).category N.last_events

/-- What `_AddtoRule` does at a node before it goes to the node's children. -/
inductive Visit
  /-- `return (1)` -/
  | done (child : SiblingTree RuleNode) (h : RuleHeap)
  /-- `continue` with the next sibling -/
  | skip
  | descend (r_code : Bool) (child : SiblingTree RuleNode) (h : RuleHeap)

variable (wordMatch : Bytes → Bytes → Bool) (sid level : ℤ) (group : Option Bytes)
  (read_rule : Ref)

def visit (h : RuleHeap) (r_node : RuleNode) (child : SiblingTree RuleNode) : Visit :=
  let parent := h.rule r_node.ruleinfo
  let N := h.rule read_rule
  if sid ≠ 0 then
    if parent.sigid = sid then
      let h := (h.inheritCategory r_node.ruleinfo read_rule).inheritLastEvents
        r_node.ruleinfo read_rule
      let added := h.osAddRuleInternal child read_rule
      .done added.1 added.2
    else .descend false child h
  else
    match group with
    | some g =>
      if wordMatch g parent.group ∧ parent.sigid ≠ N.sigid then
        let h := h.inheritLastEvents r_node.ruleinfo read_rule
        let added := h.osAddRuleInternal child read_rule
        .descend true added.1 added.2
      else .descend false child h
    | none =>
      if level ≠ 0 then
        if (parent.level : ℤ) ≥ level ∧ parent.sigid ≠ N.sigid then
          let added := h.osAddRuleInternal child read_rule
          .descend true added.1 added.2
        else .descend false child h
      else if N.category ≠ parent.category then .skip
      else
        let h := h.inheritCategory r_node.ruleinfo read_rule
        let added := h.osAddRuleInternal child read_rule
        .done added.1 added.2

/-- `_AddtoRule`: the return code, the list from `r_node` on and the rules; `none` when the fuel
does not last. The walk goes into the list of children that it has just changed. -/
def addtoRule : ℕ → SiblingTree RuleNode → RuleHeap →
    Option (Bool × SiblingTree RuleNode × RuleHeap)
  | 0, _, _ => none
  | _ + 1, .nil, h => some (false, .nil, h)
  | fuel + 1, .node r_node child next, h =>
    match h.visit wordMatch sid level group read_rule r_node child with
    | .done child h => some (true, .node r_node child next, h)
    | .skip => do
      let (r_code, next, h) ← addtoRule fuel next h
      return (r_code, .node r_node child next, h)
    | .descend r_code child h => do
      let (below, child, h) ← addtoRule fuel child h
      let (after, next, h) ← addtoRule fuel next h
      return (r_code || below || after, .node r_node child next, h)

end RuleHeap

/-- How a call of the reader ends. -/
inductive Outcome (α : Type)
  | returns (code : ℕ) (a : α)
  | errorExit
  | outOfFuel

namespace RulesList

/-- A new rule in memory, behind the reference `s.rules`. -/
def alloc (s : RulesList) (N : RuleInfo) : RulesList :=
  { s with toRuleHeap := s.toRuleHeap.update s.rules fun _ => N, rules := s.rules + 1 }

/-- `OS_AddRule` -/
def osAddRule (s : RulesList) (N : RuleInfo) : RulesList :=
  let added := (s.alloc N).osAddRuleInternal s.rulenode s.rules
  { s.alloc N with toRuleHeap := added.2, rulenode := added.1 }

section AddChild

variable (wordMatch : Bytes → Bytes → Bool) (fuel : ℕ) (read_rule : Ref)

/-- `_AddtoRule` from the first rule on, with an `ErrorExit` when it finds no parent. -/
def addFromFirst (sid level : ℤ) (group : Option Bytes) (s : RulesList) : Outcome RulesList :=
  match RuleHeap.addtoRule wordMatch sid level group read_rule fuel s.rulenode s.toRuleHeap with
  | none => .outOfFuel
  | some (false, _) => .errorExit
  | some (true, list, h) => .returns 0 { s with toRuleHeap := h, rulenode := list }

/-- The loop over the text of `if_sid`; `val` is set inside a number. The end of the text, which is
read like a digit, stands for one more id 0 unless a number ends there. -/
def ifSidLoop : Bytes → Bool → RulesList → Outcome RulesList
  | [], true, s => .returns 0 s
  | [], false, s => addFromFirst wordMatch fuel read_rule (atoi []) 0 none s
  | c :: text, val, s =>
    if c = chr ',' ∨ c = chr ' ' then ifSidLoop text false s
    else if isDigit c then
      if val then ifSidLoop text true s
      else
        match addFromFirst wordMatch fuel read_rule (atoi (c :: text)) 0 none s with
        | .returns _ s => ifSidLoop text true s
        | out => out
    else .errorExit

/-- `OS_AddChild` -/
def osAddChild (s : RulesList) (N : RuleInfo) : Outcome RulesList :=
  match N.if_sid, N.if_level, N.if_group with
  | some text, _, _ => ifSidLoop wordMatch fuel s.rules text false (s.alloc N)
  | none, some text, _ =>
    if atoi text = 0 then .returns 1 (s.alloc N)
    else addFromFirst wordMatch fuel s.rules 0 (atoi text * 100) none (s.alloc N)
  | none, none, some g => addFromFirst wordMatch fuel s.rules 0 0 (some g) (s.alloc N)
  | none, none, none => addFromFirst wordMatch fuel s.rules 0 0 none (s.alloc N)

end AddChild

/-- The fields that `OS_AddRuleInfo` copies. -/
def copyRuleInfo (old newrule : RuleInfo) : RuleInfo :=
  { old with
    level := newrule.level
    maxsize := newrule.maxsize
    frequency := newrule.frequency
    timeframe := newrule.timeframe
    ignore_time := newrule.ignore_time
    group := newrule.group
    «match» := newrule.match
    regex := newrule.regex
    day_time := newrule.day_time
    week_day := newrule.week_day
    srcip := newrule.srcip
    dstip := newrule.dstip
    srcport := newrule.srcport
    dstport := newrule.dstport
    user := newrule.user
    url := newrule.url
    id := newrule.id
    status := newrule.status
    hostname := newrule.hostname
    program_name := newrule.program_name
    extra_data := newrule.extra_data
    action := newrule.action
    comment := newrule.comment
    info := newrule.info
    cve := newrule.cve
    if_matched_regex := newrule.if_matched_regex
    if_matched_group := newrule.if_matched_group
    if_matched_sid := newrule.if_matched_sid
    alert_opts := newrule.alert_opts
    context_opts := newrule.context_opts
    context := newrule.context
    decoded_as := newrule.decoded_as
    ar := newrule.ar
    compiled_rule := newrule.compiled_rule
    last_events :=
      if hasFlag newrule.context_opts SAME_DODIFF ∧ old.last_events.isNone then newrule.last_events
      else old.last_events }

/-- The rule of the first node with the signature id, a node before its children. -/
def findSid (h : RuleHeap) (sid : ℤ) : SiblingTree RuleNode → Option Ref
  | .nil => none
  | .node r_node child next =>
    if (h.rule r_node.ruleinfo).sigid = sid then some r_node.ruleinfo
    else (findSid h sid child).or (findSid h sid next)

/-- `OS_AddRuleInfo` from the first rule on -/
def osAddRuleInfo (s : RulesList) (newrule : RuleInfo) (sid : ℤ) : ℕ × RulesList :=
  if sid = 0 then (0, s)
  else
    match findSid s.toRuleHeap sid s.rulenode with
    | none => (0, s)
    | some q =>
      (1, { s with toRuleHeap := s.toRuleHeap.update q fun old => copyRuleInfo old newrule })

/-- `doesRuleExist` from the first rule on -/
def doesRuleExist (s : RulesList) (sid : ℤ) : Bool :=
  (findSid s.toRuleHeap sid s.rulenode).isSome

/-- `OS_CreateRuleList` -/
def osCreateRuleList : RulesList where
  rule _ := { sigid := 0, level := 0, category := 0 }
  nodes := 0
  rules := 0
  rulenode := .nil

/-- The calls by which the reader adds a rule that it has read. -/
inductive Call
  | osAddRule (N : RuleInfo)
  | osAddChild (N : RuleInfo)
  | osAddRuleInfo (N : RuleInfo) (sid : ℤ)
  deriving DecidableEq

/-- The state after a call, if it returns. -/
def perform (wordMatch : Bytes → Bytes → Bool) (fuel : ℕ) (s : RulesList) : Call → Option RulesList
  | .osAddRule N => some (s.osAddRule N)
  | .osAddChild N =>
    match osAddChild wordMatch fuel s N with
    | .returns _ s' => some s'
    | _ => none
  | .osAddRuleInfo N sid => some (s.osAddRuleInfo N sid).2

/-- A call that returns, whatever fuel it takes. -/
def Step (wordMatch : Bytes → Bytes → Bool) (s : RulesList) (l : Call) (s' : RulesList) : Prop :=
  ∃ fuel, s.perform wordMatch fuel l = some s'

end RulesList

/-! ## What the walk does -/

namespace RuleHeap

variable {h h' h₁ h₂ : RuleHeap} {r : Ref} {t t' : SiblingTree RuleNode}

/-- Only the category and the last events of rules differ, and nodes may have been allocated. -/
structure Frame (h h' : RuleHeap) : Prop where
  nodes : h.nodes ≤ h'.nodes
  rule : ∀ q, ∃ category last_events, h'.rule q = (h.rule q).inherit category last_events

theorem Frame.refl (h : RuleHeap) : Frame h h := ⟨le_rfl, fun _ => ⟨_, _, rfl⟩⟩

theorem Frame.trans (h₁ : Frame h h') (h₂ : Frame h' h'') : Frame h h'' := by
  refine ⟨h₁.nodes.trans h₂.nodes, fun q => ?_⟩
  obtain ⟨c₁, l₁, e₁⟩ := h₁.rule q
  obtain ⟨c₂, l₂, e₂⟩ := h₂.rule q
  exact ⟨c₂, l₂, by rw [e₂, e₁]; rfl⟩

section Frame

variable (hf : Frame h h') (q : Ref)

include hf

theorem Frame.sigid : (h'.rule q).sigid = (h.rule q).sigid := by
  obtain ⟨_, _, e⟩ := hf.rule q
  rw [e]; rfl

theorem Frame.level : (h'.rule q).level = (h.rule q).level := by
  obtain ⟨_, _, e⟩ := hf.rule q
  rw [e]; rfl

theorem Frame.group : (h'.rule q).group = (h.rule q).group := by
  obtain ⟨_, _, e⟩ := hf.rule q
  rw [e]; rfl

end Frame

theorem frame_update {f : RuleInfo → RuleInfo} (h : RuleHeap) (r : Ref)
    (hf : ∀ N, ∃ category last_events, f N = N.inherit category last_events) :
    Frame h (h.update r f) := by
  refine ⟨le_rfl, fun q => ?_⟩
  show ∃ c l, (if q = r then f (h.rule q) else h.rule q) = _
  split
  · exact hf (h.rule q)
  · exact ⟨_, _, rfl⟩

theorem frame_inheritLastEvents (h : RuleHeap) (parent r : Ref) :
    Frame h (h.inheritLastEvents parent r) :=
  frame_update h r fun _ => ⟨_, _, rfl⟩

theorem frame_inheritCategory (h : RuleHeap) (parent r : Ref) :
    Frame h (h.inheritCategory parent r) :=
  frame_update h r fun _ => ⟨_, _, rfl⟩

/-- The rules after a new leaf for `r` and the list that the leaf has been added to. -/
structure Hung (r : Ref) (h : RuleHeap) (t : SiblingTree RuleNode) (h' : RuleHeap)
    (t' : SiblingTree RuleNode) : Prop where
  frame : Frame h h'
  nodes : h'.nodes = h.nodes + 1
  list : t' = (h.osAddRuleInternal t r).1

theorem hung_osAddRuleInternal (hf : Frame h h₁) (hn : h₁.nodes = h.nodes) :
    Hung r h t (h₁.osAddRuleInternal t r).2 (h₁.osAddRuleInternal t r).1 := by
  refine ⟨hf.trans ⟨Nat.le_succ _, fun q => ⟨_, _, rfl⟩⟩, congrArg (· + 1) hn, ?_⟩
  simp only [osAddRuleInternal, hf.level, hn]

variable {wordMatch : Bytes → Bytes → Bool} {sid level : ℤ} {group : Option Bytes}
  {a : RuleNode} {c c' : SiblingTree RuleNode} {r_code : Bool}

/-- Where the search stops, the node has got a new child. -/
theorem visit_done (hv : h.visit wordMatch sid level group r a c = .done c' h') :
    Hung r h c h' c' := by
  have hf := frame_inheritCategory h a.ruleinfo r
  have hf' := hf.trans (frame_inheritLastEvents _ a.ruleinfo r)
  simp only [visit] at hv
  split at hv
  case isTrue =>
    split_ifs at hv
    obtain ⟨rfl, rfl⟩ := Visit.done.inj hv
    exact hung_osAddRuleInternal hf' rfl
  case isFalse =>
    split at hv
    · split_ifs at hv
    · split_ifs at hv
      obtain ⟨rfl, rfl⟩ := Visit.done.inj hv
      exact hung_osAddRuleInternal hf rfl

/-- Where it goes on into the children, the node has got a new one exactly if `r_code` is set, and
only if it does not hold the rule itself. -/
theorem visit_descend
    (hv : h.visit wordMatch sid level group r a c = .descend r_code c' h') :
    r_code = false ∧ c' = c ∧ h' = h ∨
      r_code = true ∧ (h.rule a.ruleinfo).sigid ≠ (h.rule r).sigid ∧ Hung r h c h' c' := by
  have hf := frame_inheritLastEvents h a.ruleinfo r
  simp only [visit] at hv
  split at hv
  case isTrue =>
    split_ifs at hv
    obtain ⟨rfl, rfl, rfl⟩ := Visit.descend.inj hv
    exact .inl ⟨rfl, rfl, rfl⟩
  case isFalse =>
    split at hv
    · split_ifs at hv with hg
      · obtain ⟨rfl, rfl, rfl⟩ := Visit.descend.inj hv
        exact .inr ⟨rfl, hg.2, hung_osAddRuleInternal hf rfl⟩
      · obtain ⟨rfl, rfl, rfl⟩ := Visit.descend.inj hv
        exact .inl ⟨rfl, rfl, rfl⟩
    · split_ifs at hv with hl hg
      · obtain ⟨rfl, rfl, rfl⟩ := Visit.descend.inj hv
        exact .inr ⟨rfl, hg.2, hung_osAddRuleInternal (Frame.refl h) rfl⟩
      · obtain ⟨rfl, rfl, rfl⟩ := Visit.descend.inj hv
        exact .inl ⟨rfl, rfl, rfl⟩

/-- A new leaf for `r` in the list of children of one of the nodes. -/
inductive Hang (r : Ref) :
    RuleHeap × SiblingTree RuleNode → RuleHeap × SiblingTree RuleNode → Prop
  | here {h h' : RuleHeap} {child child' next : SiblingTree RuleNode} {a : RuleNode} :
      Hung r h child h' child' → Hang r (h, .node a child next) (h', .node a child' next)
  | child {h h' : RuleHeap} {child child' next : SiblingTree RuleNode} {a : RuleNode} :
      Hang r (h, child) (h', child') → Hang r (h, .node a child next) (h', .node a child' next)
  | next {h h' : RuleHeap} {child next next' : SiblingTree RuleNode} {a : RuleNode} :
      Hang r (h, next) (h', next') → Hang r (h, .node a child next) (h', .node a child next')

/-- Any number of new leaves for `r` below nodes of the tree. -/
abbrev Hangs (r : Ref) : RuleHeap × SiblingTree RuleNode → RuleHeap × SiblingTree RuleNode → Prop :=
  Relation.ReflTransGen (Hang r)

theorem Hangs.child (hs : Hangs r (h, t) (h', t')) :
    Hangs r (h, .node a t c) (h', .node a t' c) :=
  let f (p : RuleHeap × SiblingTree RuleNode) := (p.1, SiblingTree.node a p.2 c)
  Relation.ReflTransGen.lift f (fun _ _ => Hang.child) _ _ hs

theorem Hangs.next (hs : Hangs r (h, t) (h', t')) :
    Hangs r (h, .node a c t) (h', .node a c t') :=
  let f (p : RuleHeap × SiblingTree RuleNode) := (p.1, SiblingTree.node a c p.2)
  Relation.ReflTransGen.lift f (fun _ _ => Hang.next) _ _ hs

/-- All that the walk does is to hang new leaves for its rule below nodes of the tree. -/
theorem addtoRule_hang {fuel : ℕ}
    (hw : addtoRule wordMatch sid level group r fuel t h = some (r_code, t', h')) :
    Hangs r (h, t) (h', t') := by
  induction fuel generalizing t h r_code t' h' with
  | zero => cases hw
  | succ fuel ih =>
    cases t with
    | nil =>
      obtain ⟨-, rfl, rfl⟩ : _ ∧ _ ∧ _ := by simpa [addtoRule] using hw
      exact .refl
    | node b child next =>
      rw [addtoRule] at hw
      cases hv : h.visit wordMatch sid level group r b child with
      | done child₁ h₁ =>
        rw [hv] at hw
        obtain ⟨-, rfl, rfl⟩ : _ ∧ _ ∧ _ := by simpa using hw
        exact .single (.here (visit_done hv))
      | skip =>
        simp only [hv, bind_eq_bind, bind_eq_some_iff] at hw
        obtain ⟨⟨c₁, next₁, h₁⟩, hnext, hw⟩ := hw
        obtain ⟨-, rfl, rfl⟩ : _ ∧ _ ∧ _ := by simpa using hw
        exact Hangs.next (ih hnext)
      | descend r_code child₁ h₁ =>
        simp only [hv, bind_eq_bind, bind_eq_some_iff] at hw
        obtain ⟨⟨c₂, child₂, h₂⟩, hchild, ⟨c₃, next₃, h₃⟩, hnext, hw⟩ := hw
        obtain ⟨-, rfl, rfl⟩ : _ ∧ _ ∧ _ := by simpa using hw
        have hbelow : Hangs r (h₁, .node b child₁ next) (h₂, .node b child₂ next) :=
          Hangs.child (ih hchild)
        have hrest := hbelow.trans (Hangs.next (ih hnext))
        rcases visit_descend hv with ⟨-, rfl, rfl⟩ | ⟨-, -, hung⟩
        · exact hrest
        · exact .head (.here hung) hrest

/-- A step of the walk adds one label, with the next number, and keeps the others. -/
theorem Hang.labels (hs : Hang r (h, t) (h', t')) :
    Frame h h' ∧ h'.nodes = h.nodes + 1 ∧
      ∀ b, b ∈ t'.labels ↔ b = { ruleinfo := r, seq := h.nodes } ∨ b ∈ t.labels := by
  generalize hp : (h, t) = p at hs
  generalize hp' : (h', t') = p' at hs
  induction hs generalizing h t h' t' with
  | here hung =>
    cases hp; cases hp'
    refine ⟨hung.frame, hung.nodes, fun b => ?_⟩
    simp only [SiblingTree.labels_node, hung.list, osAddRuleInternal, mem_cons,
      mem_append, SiblingTree.mem_labels_insertBefore]
    tauto
  | child _ ih =>
    cases hp; cases hp'
    obtain ⟨hf, hn, hl⟩ := ih rfl rfl
    refine ⟨hf, hn, fun b => ?_⟩
    simp only [SiblingTree.labels_node, mem_cons, mem_append, hl b]
    tauto
  | next _ ih =>
    cases hp; cases hp'
    obtain ⟨hf, hn, hl⟩ := ih rfl rfl
    refine ⟨hf, hn, fun b => ?_⟩
    simp only [SiblingTree.labels_node, mem_cons, mem_append, hl b]
    tauto

/-- The new leaf is a child, so that the list the walk starts from has the nodes it had. -/
theorem Hang.siblings (hs : Hang r (h, t) (h', t')) : t'.siblings = t.siblings := by
  generalize hp : (h, t) = p at hs
  generalize hp' : (h', t') = p' at hs
  induction hs generalizing h t h' t' with
  | here => cases hp; cases hp'; rfl
  | child => cases hp; cases hp'; rfl
  | next _ ih =>
    cases hp; cases hp'
    rw [SiblingTree.siblings_node, SiblingTree.siblings_node, ih rfl rfl]

theorem Hangs.invariant {P : RuleHeap → SiblingTree RuleNode → Prop}
    (hstep : ∀ {h t h' t'}, P h t → Hang r (h, t) (h', t') → P h' t')
    (hs : Hangs r (h, t) (h', t')) (hP : P h t) : P h' t' := by
  generalize hp' : (h', t') = p' at hs
  induction hs generalizing h' t' with
  | refl => cases hp'; exact hP
  | tail _ hlast ih => cases hp'; exact hstep (ih rfl) hlast

theorem Hangs.frame (hs : Hangs r (h, t) (h', t')) : Frame h h' :=
  Hangs.invariant (P := fun h₁ _ => Frame h h₁) (fun hf hlast => hf.trans hlast.labels.1) hs
    (Frame.refl h)

end RuleHeap

/-! ## What a call of the reader does -/

namespace RulesList

open RuleHeap

variable {wordMatch : Bytes → Bytes → Bool} {fuel code : ℕ} {r : Ref} {s s' : RulesList}

theorem addFromFirst_hang {sid level : ℤ} {group : Option Bytes}
    (h : addFromFirst wordMatch fuel r sid level group s = .returns code s') :
    s'.rules = s.rules ∧ Hangs r (s.toRuleHeap, s.rulenode) (s'.toRuleHeap, s'.rulenode) := by
  unfold addFromFirst at h
  split at h
  · cases h
  · cases h
  case h_3 hw =>
    obtain ⟨-, rfl⟩ := Outcome.returns.inj h
    exact ⟨rfl, addtoRule_hang hw⟩

theorem ifSidLoop_hang {text : Bytes} {val : Bool}
    (h : ifSidLoop wordMatch fuel r text val s = .returns code s') :
    s'.rules = s.rules ∧ Hangs r (s.toRuleHeap, s.rulenode) (s'.toRuleHeap, s'.rulenode) := by
  induction text generalizing val s with
  | nil =>
    cases val with
    | true =>
      obtain ⟨-, rfl⟩ := Outcome.returns.inj h
      exact ⟨rfl, .refl⟩
    | false => exact addFromFirst_hang h
  | cons c text ih =>
    rw [ifSidLoop] at h
    split_ifs at h with hsep hdig hval
    · exact ih h
    · exact ih h
    · cases ha : addFromFirst wordMatch fuel r (atoi (c :: text)) 0 none s with
      | returns code₁ s₁ =>
        rw [ha] at h
        obtain ⟨hr₁, hs₁⟩ := addFromFirst_hang ha
        obtain ⟨hr, hs⟩ := ih h
        exact ⟨hr.trans hr₁, hs₁.trans hs⟩
      | errorExit => rw [ha] at h; cases h
      | outOfFuel => rw [ha] at h; cases h

/-- All that `OS_AddChild` does is to hang new leaves for the new rule below nodes of the tree. -/
theorem osAddChild_hang {N : RuleInfo} (h : osAddChild wordMatch fuel s N = .returns code s') :
    s'.rules = s.rules + 1 ∧
      Hangs s.rules ((s.alloc N).toRuleHeap, s.rulenode) (s'.toRuleHeap, s'.rulenode) := by
  unfold osAddChild at h
  split at h
  · exact ifSidLoop_hang h
  · split_ifs at h
    · obtain ⟨-, rfl⟩ := Outcome.returns.inj h
      exact ⟨rfl, .refl⟩
    · exact addFromFirst_hang h
  · exact addFromFirst_hang h
  · exact addFromFirst_hang h

/-- The nodes of the tree have been allocated, and so have their rules. -/
def WellFormed (s : RulesList) : Prop :=
  ∀ a ∈ s.rulenode.labels, a.seq < s.nodes ∧ a.ruleinfo < s.rules

theorem wellFormed_osCreateRuleList : osCreateRuleList.WellFormed :=
  fun _ h => absurd h not_mem_nil

theorem perform_osAddChild {N : RuleInfo}
    (h : s.perform wordMatch fuel (.osAddChild N) = some s') :
    ∃ code, osAddChild wordMatch fuel s N = .returns code s' := by
  simp only [perform] at h
  split at h
  case h_1 code s₁ he => exact ⟨code, he.trans (by rw [some.inj h])⟩
  case h_2 => cases h

theorem Step.wellFormed {l : Call} (hs : s.WellFormed) (h : Step wordMatch s l s') :
    s'.WellFormed := by
  obtain ⟨fuel, h⟩ := h
  cases l with
  | osAddRule N =>
    cases h
    intro a ha
    rcases SiblingTree.mem_labels_insertBefore.mp ha with rfl | ha
    · exact ⟨Nat.lt_succ_self _, Nat.lt_succ_self _⟩
    · exact (hs a ha).imp (·.trans (Nat.lt_succ_self _)) (·.trans (Nat.lt_succ_self _))
  | osAddChild N =>
    obtain ⟨code, h⟩ := perform_osAddChild h
    obtain ⟨hr, hangs⟩ := osAddChild_hang h
    have key := Hangs.invariant
      (P := fun h t => ∀ a ∈ t.labels, a.seq < h.nodes ∧ a.ruleinfo < s.rules + 1)
      (fun {h t h' t'} hP hlast a ha => ?_) hangs
      fun a ha => (hs a ha).imp_right (·.trans (Nat.lt_succ_self _))
    · intro a ha
      rw [hr]
      exact key a ha
    · obtain ⟨-, hn, hl⟩ := hlast.labels
      rw [hn]
      rcases (hl a).mp ha with rfl | ha
      · exact ⟨Nat.lt_succ_self _, Nat.lt_succ_self _⟩
      · exact (hP a ha).imp_left (·.trans (Nat.lt_succ_self _))
  | osAddRuleInfo N sid =>
    cases h
    unfold RulesList.osAddRuleInfo
    split
    · exact hs
    · split
      · exact hs
      · exact hs

/-- The state after the calls, each of which has to pass a check and to return. -/
def performAll (wordMatch : Bytes → Bytes → Bool) (fuel : ℕ) (check : RulesList → Call → Bool) :
    RulesList → List Call → Option RulesList
  | s, [] => some s
  | s, l :: ls =>
    if check s l then
      (s.perform wordMatch fuel l).bind fun s' => performAll wordMatch fuel check s' ls
    else none

theorem run_of_performAll {check : RulesList → Call → Bool} {ls : List Call}
    (h : performAll wordMatch fuel check s ls = some s') :
    Transition.Run (fun s l s' => Step wordMatch s l s' ∧ check s l) s ls s' := by
  induction ls generalizing s with
  | nil =>
    obtain rfl := some.inj h
    exact .nil s
  | cons l ls ih =>
    rw [performAll] at h
    split_ifs at h with hc
    obtain ⟨s₁, h₁, h⟩ := bind_eq_some_iff.mp h
    exact .cons ⟨⟨fuel, h₁⟩, hc⟩ (ih h)

end RulesList
