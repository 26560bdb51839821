import OssecHids.Analysisd.Conditions
import OssecHids.Lib.LinkedList

/-!
# The list lookups of a rule

`OS_AddListRule` puts a lookup at the end of the list of a rule. The loop that goes to the end works
on the pointer that is returned, so the rule is given the cell before the new one.

- `exists_readLists`: the lookups that the rule's pointer leads to are the last two;
- `listRules_law`: a rule has all of its lookups exactly when they are at most two.
-/

open CString LinkedList List Option Function

/-- `ListNode` without its `next`; the file `cdb` is open if the node is `loaded`. -/
structure ListNode (Cdb : Type) where
  cdb_filename : Bytes
  txt_filename : Bytes
  cdb : Option Cdb := none

/-- `OS_FindList`: the index of the list with a name. -/
def osFindList {Cdb : Type} (listnodes : List (ListNode Cdb)) (listname : Bytes) : Option Ref :=
  listnodes.findIdx? fun node => node.txt_filename == listname || node.cdb_filename == listname

/-- `ListRule` -/
structure ListRuleNode extends ListRule where
  loaded : Bool
  db : Option Ref
  next : Option Ref

/-- The lists that are known, and the lookups in memory. -/
structure ListRules (Cdb : Type) where
  global_listnode : List (ListNode Cdb)
  heap : Ref → Option ListRuleNode
  /-- The address that the next lookup gets. -/
  fresh : Ref
  heap_fresh : ∀ r, fresh ≤ r → heap r = none

namespace ListRules

variable {Cdb : Type}

/-- `new_rulelist_pt` -/
def newRulelist (s : ListRules Cdb) (rule : ListRule) : ListRuleNode :=
  { rule with
    loaded := (osFindList s.global_listnode rule.filename).isSome
    db := osFindList s.global_listnode rule.filename
    next := none }

/-- A lookup at a new address. -/
def calloc (s : ListRules Cdb) (node : ListRuleNode) : ListRules Cdb where
  global_listnode := s.global_listnode
  heap := Function.update s.heap s.fresh (some node)
  fresh := s.fresh + 1
  heap_fresh r hr := by
    rw [Function.update_of_ne (Nat.ne_of_gt hr)]
    exact s.heap_fresh r (Nat.le_of_succ_le hr)

/-- `first_rule_list->next = next` for the cell of an address. -/
def setNext (s : ListRules Cdb) (r : Ref) (next : Option Ref) : ListRules Cdb where
  global_listnode := s.global_listnode
  heap := Function.update s.heap r ((s.heap r).map fun node => { node with next := next })
  fresh := s.fresh
  heap_fresh r' hr' := by
    by_cases heq : r' = r
    · rw [heq, Function.update_self, ← heq, s.heap_fresh r' hr', Option.map_none]
    · rw [Function.update_of_ne heq, s.heap_fresh r' hr']

/-- `OS_AddListRule`: the pointer it returns. There is nothing for a pointer to nowhere. -/
def osAddListRule (s : ListRules Cdb) (first_rule_list : Option Ref) (rule : ListRule) :
    Option (Ref × ListRules Cdb) :=
  match first_rule_list with
  | none => some (s.fresh, s.calloc (s.newRulelist rule))
  | some first_rule_list =>
    -- the loop moves `first_rule_list` itself
    (walk s.heap ListRuleNode.next (fun node => node.next.isNone) s.fresh
      (some first_rule_list)).map fun (first_rule_list, _) =>
        (first_rule_list,
          (s.calloc (s.newRulelist rule)).setNext first_rule_list (some s.fresh))

/-- The `<list>` options of a rule, one after the other: the pointer `lists` of the rule. -/
def readLists (s : ListRules Cdb) (lists : Option Ref) :
    List ListRule → Option (Option Ref × ListRules Cdb)
  | [] => some (lists, s)
  | rule :: rest =>
    (s.osAddListRule lists rule).bind fun (lists, s) => s.readLists (some lists) rest

/-- The loop of `OS_CheckIfRuleMatch` over the lookups; it ends at one that fails. -/
def checkListRules (env : MatchEnv) (lf : Eventinfo) (s : ListRules Cdb) (lists : Option Ref) :
    Bool :=
  (walk s.heap ListRuleNode.next
    (fun node => !(MatchEnv.listText lf node.field).any (env.osDBSearch node.toListRule))
    s.fresh lists).isNone

variable {s s' : ListRules Cdb} {lists : Option Ref} {cells : List (Ref × ListRuleNode)}

theorem heap_calloc (s : ListRules Cdb) (node : ListRuleNode) :
    (s.calloc node).heap = Function.update s.heap s.fresh (some node) := rfl

theorem heap_setNext (s : ListRules Cdb) (r : Ref) (next : Option Ref) :
    (s.setNext r next).heap =
      Function.update s.heap r ((s.heap r).map fun node => { node with next := next }) := rfl

/-! ## Chains -/

/-- The lookups that a pointer leads to. -/
def Leads (s : ListRules Cdb) (lists : Option Ref) (rules : List ListRule) : Prop :=
  ∃ cells, Chain s.heap ListRuleNode.next lists cells ∧
    cells.map (fun c => c.2.toListRule) = rules

theorem Leads.length_le {rules : List ListRule} (h : s.Leads lists rules) :
    rules.length ≤ s.fresh := by
  obtain ⟨cells, hchain, rfl⟩ := h
  rw [length_map]
  refine hchain.length_le fun c hc => ?_
  by_contra hle
  have hcell := hchain.cell c hc
  rw [s.heap_fresh c.1 (Nat.le_of_not_lt hle)] at hcell
  exact some_ne_none _ hcell.symm

theorem Leads.unique {rules rules' : List ListRule} (h : s.Leads lists rules)
    (h' : s.Leads lists rules') : rules = rules' := by
  obtain ⟨cells, hchain, rfl⟩ := h
  obtain ⟨cells', hchain', rfl⟩ := h'
  rw [hchain.unique hchain']

theorem checkListRules_eq {rules : List ListRule} (h : s.Leads lists rules) (env : MatchEnv)
    (lf : Eventinfo) : s.checkListRules env lf lists = env.checkLists lf rules := by
  have hlength := h.length_le
  obtain ⟨cells, hchain, rfl⟩ := h
  rw [length_map] at hlength
  rw [checkListRules, walk_eq hchain hlength, MatchEnv.checkLists, Bool.eq_iff_iff,
    isNone_iff_eq_none, find?_eq_none, List.all_map, List.all_eq_true]
  simp

/-! ## Adding lookups -/

theorem leads_calloc (s : ListRules Cdb) (rule : ListRule) :
    (s.calloc (s.newRulelist rule)).Leads (some s.fresh) [rule] :=
  ⟨[(s.fresh, s.newRulelist rule)], .cons (update_self ..) .nil, rfl⟩

/-- The pointer that is returned leads to the last lookup before the new one. -/
theorem exists_osAddListRule {rules : List ListRule} {last : ListRule}
    (h : s.Leads lists (rules ++ [last])) (rule : ListRule) :
    ∃ r s', s.osAddListRule lists rule = some (r, s') ∧ s'.Leads (some r) [last, rule] := by
  have hlength := h.length_le
  obtain ⟨cells, hchain, hcells⟩ := h
  obtain ⟨cells, tail, rfl, -, htail⟩ := map_eq_append_iff.mp hcells
  obtain ⟨⟨r, node⟩, rfl, hnode⟩ := map_eq_singleton_iff.mp htail
  have hcell : s.heap r = some node := hchain.cell (r, node) (by simp)
  have hne : r ≠ s.fresh := fun heq => by
    rw [heq, s.heap_fresh s.fresh le_rfl] at hcell
    exact some_ne_none _ hcell.symm
  obtain ⟨hlast, hinit⟩ := hchain.next_eq_none
  -- the loop stops at the last cell, and its address is what is returned
  have hwalk : walk s.heap ListRuleNode.next (fun node => node.next.isNone) s.fresh lists =
      some (r, node) := by
    rw [walk_eq hchain (by simpa [← hcells] using hlength), find?_append,
      find?_eq_none.mpr (by simpa [isNone_iff_eq_none] using hinit)]
    simp [hlast]
  cases lists with
  | none =>
    cases cells <;> cases hchain
  | some first =>
    refine ⟨r, _, by rw [osAddListRule, hwalk, map_some], ?_⟩
    refine ⟨[(r, { node with next := some s.fresh }), (s.fresh, s.newRulelist rule)],
      .cons ?_ (.cons ?_ .nil), by simp [← hnode, newRulelist]⟩
    · rw [heap_setNext, update_self, heap_calloc, update_of_ne hne, hcell, map_some]
    · rw [heap_setNext, update_of_ne hne.symm, heap_calloc, update_self]

/-- After some of the options the pointer leads to the last two of them, and goes on so. -/
theorem exists_readLists {rules : List ListRule} {last : ListRule}
    (h : s.Leads lists (rules ++ [last])) (rest : List ListRule) (hrules : rules.length ≤ 1) :
    ∃ lists' s', s.readLists lists rest = some (lists', s') ∧
      s'.Leads lists' ((rules ++ last :: rest).drop (rules.length + rest.length - 1)) := by
  induction rest generalizing s lists rules last with
  | nil =>
    refine ⟨lists, s, rfl, ?_⟩
    rwa [length_nil, add_zero, Nat.sub_eq_zero_of_le hrules, drop_zero]
  | cons rule rest ih =>
    obtain ⟨r, s', hadd, hleads⟩ := exists_osAddListRule h rule
    have hpair : s'.Leads (some r) ([last] ++ [rule]) := hleads
    obtain ⟨lists', s'', hread, hleads'⟩ := ih hpair le_rfl
    refine ⟨lists', s'', ?_, ?_⟩
    · rw [readLists, hadd, bind_some]
      exact hread
    · have hdrop : (rules ++ last :: rule :: rest).drop (rules.length + (rest.length + 1) - 1) =
          ([last] ++ rule :: rest).drop (1 + rest.length - 1) := by
        rw [Nat.add_sub_assoc (Nat.le_add_left 1 _), Nat.add_sub_cancel, Nat.add_sub_cancel_left,
          drop_append]
        simp
      rw [length_cons, hdrop]
      exact hleads'

theorem exists_readLists_none (s : ListRules Cdb) (rules : List ListRule) :
    ∃ lists s', s.readLists none rules = some (lists, s') ∧
      s'.Leads lists (rules.drop (rules.length - 2)) := by
  cases rules with
  | nil => exact ⟨none, s, rfl, [], .nil, rfl⟩
  | cons rule rest =>
    have hfirst : (s.calloc (s.newRulelist rule)).Leads (some s.fresh) ([] ++ [rule]) :=
      leads_calloc s rule
    obtain ⟨lists, s', hread, hleads⟩ := exists_readLists hfirst rest (Nat.zero_le _)
    refine ⟨lists, s', hread, ?_⟩
    have hlength : (rule :: rest).length - 2 = ([] : List ListRule).length + rest.length - 1 := by
      simp
    rw [hlength]
    exact hleads

/-- All the lookups of a rule are looked up, in their order, and an event is accepted only if every
one succeeds. -/
def Enforced (s : ListRules Cdb) (lists : Option Ref) (rules : List ListRule) : Prop :=
  s.Leads lists rules ∧ ∀ (env : MatchEnv) (lf : Eventinfo), s.checkListRules env lf lists →
    ∀ rule ∈ rules, (MatchEnv.listText lf rule.field).any (env.osDBSearch rule)

/-- The lookups of a rule are enforced exactly when there are at most two. -/
theorem listRules_law (s : ListRules Cdb) (rules : List ListRule) :
    ∃ lists s', s.readLists none rules = some (lists, s') ∧
      (s'.Enforced lists rules ↔ rules.length ≤ 2) := by
  obtain ⟨lists, s', hread, hleads⟩ := exists_readLists_none s rules
  refine ⟨lists, s', hread, fun h => ?_, fun hlength => ?_⟩
  · have heq := congrArg List.length (h.1.unique hleads)
    rw [length_drop] at heq
    omega
  · rw [Nat.sub_eq_zero_of_le hlength, drop_zero] at hleads
    refine ⟨hleads, fun env lf haccepts => ?_⟩
    rw [checkListRules_eq hleads, MatchEnv.checkLists, List.all_eq_true] at haccepts
    exact haccepts

/-- A lookup of the source address. -/
def srcipLookup (filename : String) : ListRule :=
  { field := RULE_SRCIP, lookup_type := 0, matcher := none, filename := lit filename }

/-- No lists and no lookups. -/
def noLists : ListRules Unit where
  global_listnode := []
  heap _ := none
  fresh := 0
  heap_fresh _ _ := rfl

/-- The first of three lookups is lost: a rule accepts an address that is not in its list. -/
theorem not_enforced_three :
    let rules := [srcipLookup "lists/a", srcipLookup "lists/b", srcipLookup "lists/c"]
    ∃ lists s', noLists.readLists none rules = some (lists, s') ∧ ¬s'.Enforced lists rules ∧
      ∀ (env : MatchEnv) (lf : Eventinfo), lf.srcip = some (lit "10.0.0.1") →
        s'.checkListRules { env with osDBSearch := fun rule _ => rule != srcipLookup "lists/a" } lf
          lists := by
  intro rules
  obtain ⟨lists, s', hread, hleads⟩ := exists_readLists_none noLists rules
  refine ⟨lists, s', hread, fun h => ?_, fun env lf hsrcip => ?_⟩
  · exact absurd (congrArg List.length (h.1.unique hleads)) (by decide)
  · have hlast : rules.drop (rules.length - 2) =
        [srcipLookup "lists/b", srcipLookup "lists/c"] := rfl
    have htext : MatchEnv.listText lf RULE_SRCIP = some (lit "10.0.0.1") := by
      rw [MatchEnv.listText, if_pos rfl, hsrcip]
    have hother : srcipLookup "lists/b" ≠ srcipLookup "lists/a" ∧
        srcipLookup "lists/c" ≠ srcipLookup "lists/a" := by decide
    rw [checkListRules_eq hleads, hlast, MatchEnv.checkLists]
    simp only [all_cons, all_nil, Bool.and_true, Bool.and_eq_true]
    exact ⟨by simpa [srcipLookup, htext] using hother.1, by simpa [srcipLookup, htext] using hother.2⟩

end ListRules
