import OssecHids.Lib.TreeSearch
import OssecHids.Analysisd.RulesList

/-!
# Which rule an event gets

The recursion of `OS_CheckIfRuleMatch` through the rule tree. The conditions of one rule are a
predicate `own` on the event and the rule, such as `MatchEnv.ruleMatches`.

- `childLoop_eq`: the loop over a sibling list is a search for a path;
- `osCheckIfRuleMatch_selects`: which rule is returned, fires, and is tried.
-/

open SiblingTree Option

/-- The rules while an event goes through them. -/
structure Matching extends RuleHeap where
  /-- What `analysisd_inc_hourly_alerts` counts. -/
  hourly_alerts : ℕ := 0
  /-- The nodes of which it has been reported that they are tried. -/
  tried : List RuleNode := []

namespace Matching

/-- `print_out("    Trying rule: %d - %s")` -/
def trying (s : Matching) (nodes : List RuleNode) : Matching := { s with tried := s.tried ++ nodes }

/-- A rule has matched and is to be returned. -/
def fire (s : Matching) (rule : Ref) : Matching :=
  { s with
    toRuleHeap := s.toRuleHeap.update rule fun N => { N with firedtimes := N.firedtimes + 1 }
    hourly_alerts := s.hourly_alerts + 1 }

section Code

variable (own : Eventinfo → RuleInfo → Bool) (lf : Eventinfo)

/-- `OS_CheckIfRuleMatch` at a node, with what its loop over the children does. -/
def checkNode (curr_node : RuleNode) (children : Matching → Option Ref × Matching) (s : Matching) :
    Option Ref × Matching :=
  let s := s.trying [curr_node]
  if own lf (s.rule curr_node.ruleinfo) then
    match children s with
    | (some child_rule, s) => (some child_rule, s)
    | (none, s) =>
      if hasFlag (s.rule curr_node.ruleinfo).alert_opts NO_ALERT then (none, s)
      else (some curr_node.ruleinfo, s.fire curr_node.ruleinfo)
  else (none, s)

/-- The loop over a sibling list, which returns at the first rule. -/
def childLoop : SiblingTree RuleNode → Matching → Option Ref × Matching
  | .nil, s => (none, s)
  | .node child_node child next, s =>
    match checkNode own lf child_node (childLoop child) s with
    | (some child_rule, s) => (some child_rule, s)
    | (none, s) => childLoop next s

def osCheckIfRuleMatch (curr_node : RuleNode) (child : SiblingTree RuleNode) (s : Matching) :
    Option Ref × Matching :=
  checkNode own lf curr_node (childLoop own lf child) s

end Code

variable {own : Eventinfo → RuleInfo → Bool} {lf : Eventinfo} {s : Matching}
  {a : RuleNode} {child t : SiblingTree RuleNode}

/-- The conditions of the rule at a node are true. -/
def passes (s : Matching) (own : Eventinfo → RuleInfo → Bool) (lf : Eventinfo) (a : RuleNode) :
    Bool :=
  own lf (s.rule a.ruleinfo)

/-- The rule at a node is not marked no-alert. -/
def alerts (s : Matching) (a : RuleNode) : Bool :=
  !hasFlag (s.rule a.ruleinfo).alert_opts NO_ALERT

/-- The state after a search that has tried some nodes and found one, if any. -/
def after (s : Matching) (tried : List RuleNode) (found : Option RuleNode) : Matching :=
  found.elim (s.trying tried) fun b => (s.trying tried).fire b.ruleinfo

theorem trying_trying (l₁ l₂ : List RuleNode) :
    (s.trying l₁).trying l₂ = s.trying (l₁ ++ l₂) := by
  simp only [trying, List.append_assoc]

theorem passes_trying (l : List RuleNode) :
    (s.trying l).passes own lf = s.passes own lf := rfl

theorem alerts_trying (l : List RuleNode) : (s.trying l).alerts = s.alerts := rfl

/-- The loop over a sibling list finds what the search for a path finds, and the rule that it finds
is the only one that fires. -/
theorem childLoop_eq : childLoop own lf t s =
    ((t.select (s.passes own lf) s.alerts).map RuleNode.ruleinfo,
      s.after (t.tried (s.passes own lf) s.alerts) (t.select (s.passes own lf) s.alerts)) := by
  induction t generalizing s with
  | nil =>
    show (none, s) = (none, s.trying [])
    rw [trying, List.append_nil]
  | node b child next ihc ihn =>
    rw [childLoop, select_node, SiblingTree.tried, select_node_nil, checkNode]
    by_cases hb : own lf ((s.trying [b]).rule b.ruleinfo)
    case neg =>
      -- the node fails, and the loop goes on behind it
      have hpass : s.passes own lf b = false := Bool.eq_false_of_not_eq_true hb
      simp only [if_neg hb, hpass, Bool.false_eq_true, if_false, none_or, if_true]
      rw [ihn, passes_trying, alerts_trying]
      cases next.select (s.passes own lf) s.alerts <;> simp [after, trying_trying]
    case pos =>
      have hpass : s.passes own lf b = true := hb
      simp only [if_pos hb, hpass, if_true]
      rw [ihc, passes_trying, alerts_trying]
      cases hc : child.select (s.passes own lf) s.alerts with
      | some c => simp [after, trying_trying]
      | none =>
        simp only [after, map_none, elim_none, trying_trying, none_or]
        cases halert : s.alerts b with
        | true =>
          have hflag : hasFlag (s.rule b.ruleinfo).alert_opts NO_ALERT = false := by
            simpa [alerts] using halert
          simp [trying, hflag]
        | false =>
          have hflag : hasFlag ((s.trying ([b] ++ child.tried (s.passes own lf) s.alerts)).rule
              b.ruleinfo).alert_opts NO_ALERT = true := by
            simpa [alerts, trying] using halert
          simp only [hflag, if_true]
          rw [ihn, passes_trying, alerts_trying]
          cases next.select (s.passes own lf) s.alerts <;> simp [after, trying_trying]

theorem osCheckIfRuleMatch_eq_childLoop :
    osCheckIfRuleMatch own lf a child s = childLoop own lf (.node a child .nil) s := by
  rw [childLoop, osCheckIfRuleMatch]
  cases checkNode own lf a (childLoop own lf child) s with
  | mk found s' => cases found <;> rfl

/-- What a search through some paths leaves: it returns the rule at the end of the first one on which
all conditions are true and whose last rule alerts, fires that rule once and no other, and tries a
node only where the conditions of all nodes above it are true. -/
structure Selects (own : Eventinfo → RuleInfo → Bool) (lf : Eventinfo) (s : Matching)
    (paths : List (List RuleNode)) (out : Option Ref × Matching) : Prop where
  ret : out.1 = ((paths.find? (accepts (s.passes own lf) s.alerts)).bind List.getLast?).map
    RuleNode.ruleinfo
  rule : ∀ q, out.2.rule q =
    if out.1 = some q then { s.rule q with firedtimes := (s.rule q).firedtimes + 1 } else s.rule q
  hourly_alerts : out.2.hourly_alerts = s.hourly_alerts + if out.1.isSome then 1 else 0
  tried : ∀ b ∈ out.2.tried, b ∈ s.tried ∨ ∃ p, p ++ [b] ∈ paths ∧ ∀ c ∈ p, s.passes own lf c

theorem childLoop_selects : Selects own lf s t.paths (childLoop own lf t s) := by
  have htried : ∀ found, (s.after (t.tried (s.passes own lf) s.alerts) found).tried =
      s.tried ++ t.tried (s.passes own lf) s.alerts := fun found => by cases found <;> rfl
  rw [childLoop_eq]
  refine ⟨?_, ?_, ?_, ?_⟩
  · rw [← select_eq_find_paths]
  · intro q
    cases t.select (s.passes own lf) s.alerts with
    | none => rfl
    | some b =>
      -- of the rules, `fire` touches the one at the node that was found
      show (if q = b.ruleinfo then _ else s.rule q) = _
      simp only [map_some, some.injEq, eq_comm (a := q)]
      rfl
  · cases t.select (s.passes own lf) s.alerts <;> rfl
  · intro b hb
    rw [htried, List.mem_append] at hb
    exact hb.imp_right exists_path_of_mem_tried

/-- The first result over a sibling list, in terms of the results at its nodes. -/
theorem childLoop_fst : (childLoop own lf t s).1 =
    t.subtrees.findSome? fun b => (osCheckIfRuleMatch own lf b.1 b.2 s).1 := by
  simp only [osCheckIfRuleMatch_eq_childLoop, childLoop_eq]
  rw [select_eq_findSome, List.map_findSome?]
  rfl

/-- Rule selection: what `OS_CheckIfRuleMatch` returns in terms of the results at the children, and
what it and the loop over any sibling list select and fire. -/
theorem osCheckIfRuleMatch_selects (own : Eventinfo → RuleInfo → Bool) (lf : Eventinfo)
    (s : Matching) :
    (∀ a child, (osCheckIfRuleMatch own lf a child s).1 =
      if own lf (s.rule a.ruleinfo) then
        (child.subtrees.findSome? fun b => (osCheckIfRuleMatch own lf b.1 b.2 s).1).or
          (if hasFlag (s.rule a.ruleinfo).alert_opts NO_ALERT then none else some a.ruleinfo)
      else none) ∧
    (∀ a child, Selects own lf s (node a child nil).paths (osCheckIfRuleMatch own lf a child s)) ∧
    ∀ t, Selects own lf s t.paths (childLoop own lf t s) := by
  refine ⟨fun a child => ?_, fun a child => ?_, fun t => childLoop_selects⟩
  · rw [← childLoop_fst, osCheckIfRuleMatch_eq_childLoop, childLoop_eq, childLoop_eq,
      select_node_nil]
    show Option.map _ (if own lf (s.rule a.ruleinfo) then _ else none) = _
    split
    · cases child.select (s.passes own lf) s.alerts with
      | some c => rfl
      | none =>
        rw [alerts]
        cases hasFlag (s.rule a.ruleinfo).alert_opts NO_ALERT <;> rfl
    · rfl
  · rw [osCheckIfRuleMatch_eq_childLoop]
    exact childLoop_selects

end Matching
