import OssecHids.Analysisd.RulesList

/-!
# Where a rule is hung in the tree

`OS_AddChild` for `if_sid` and `if_group`. The search for a signature id returns from a sibling
list at its first hit, the search for a group goes on.

- `addtoRule_isSome`: the walk ends, although it goes into the lists that it adds to;
- `addtoRule_sid`, `addtoRule_group`: which nodes get the new child;
- `osAddChild_placed_iff`: these are all the nodes that the rule names exactly if none of them
  hides another one.
-/

open CString SiblingTree Transition

/-- The nodes from the `n`-th allocation on. -/
def RuleNode.newFrom (n : ℕ) (a : RuleNode) : Bool := decide (n ≤ a.seq)

namespace RuleHeap

variable {h h' : RuleHeap} {r : Ref} {t t' : SiblingTree RuleNode} {fuel : ℕ}
  {wordMatch : Bytes → Bytes → Bool} {sid level : ℤ} {group : Option Bytes}

/-! ## The walk ends -/

/-- A node may get a new child once, the new child itself never does. -/
def walkWeight (h : RuleHeap) (r : Ref) (a : RuleNode) : ℕ :=
  if h.sigidAt a = (h.rule r).sigid then 1 else 2

theorem Frame.sigidAt (hf : Frame h h') : h'.sigidAt = h.sigidAt :=
  funext fun a => hf.sigid a.ruleinfo

theorem Frame.walkWeight (hf : Frame h h') : h'.walkWeight r = h.walkWeight r := by
  funext a
  rw [RuleHeap.walkWeight, RuleHeap.walkWeight, hf.sigidAt, hf.sigid]

/-- The fuel of the walk lasts when there is more of it than the nodes weigh. -/
theorem addtoRule_isSome (hfuel : t.weight (h.walkWeight r) < fuel) :
    ∃ result, addtoRule wordMatch sid level group r fuel t h = some result := by
  induction fuel generalizing t h with
  | zero => cases hfuel
  | succ fuel ih =>
    cases t with
    | nil => exact ⟨_, rfl⟩
    | node a child next =>
      rw [weight] at hfuel
      rw [addtoRule]
      have hpos : 1 ≤ h.walkWeight r a := by
        unfold RuleHeap.walkWeight
        split
        · exact le_rfl
        · exact Nat.le_succ 1
      cases hv : h.visit wordMatch sid level group r a child with
      | done child₁ h₁ => exact ⟨_, rfl⟩
      | skip =>
        obtain ⟨⟨b, next₁, h₁⟩, hnext⟩ := ih (t := next) (h := h) (by omega)
        exact ⟨_, by simp only [hnext, Option.bind_eq_bind, Option.bind_some]; rfl⟩
      | descend r_code child₁ h₁ =>
        have hframe : Frame h h₁ ∧ child₁.weight (h.walkWeight r) < fuel := by
          rcases visit_descend hv with ⟨-, rfl, rfl⟩ | ⟨-, hne, hung⟩
          · exact ⟨Frame.refl _, by omega⟩
          · -- a node that got the new leaf had weight 2, and the leaf has weight 1
            have hleaf : h.walkWeight r { ruleinfo := r, seq := h.nodes } = 1 := if_pos rfl
            have hnode : h.walkWeight r a = 2 := if_neg hne
            refine ⟨hung.frame, ?_⟩
            rw [hung.list, osAddRuleInternal, weight_insertBefore, hleaf]
            omega
        obtain ⟨⟨b₂, child₂, h₂⟩, hchild⟩ := ih (t := child₁) (h := h₁)
          (by rw [hframe.1.walkWeight]; exact hframe.2)
        have hframe₂ := hframe.1.trans (addtoRule_hang hchild).frame
        obtain ⟨⟨b₃, next₃, h₃⟩, hnext⟩ := ih (t := next) (h := h₂)
          (by rw [hframe₂.walkWeight]; omega)
        exact ⟨_, by simp only [hchild, hnext, Option.bind_eq_bind, Option.bind_some]; rfl⟩

/-- More fuel does not change the result. -/
theorem addtoRule_succ {result : Bool × SiblingTree RuleNode × RuleHeap}
    (hw : addtoRule wordMatch sid level group r fuel t h = some result) :
    addtoRule wordMatch sid level group r (fuel + 1) t h = some result := by
  induction fuel generalizing t h result with
  | zero => cases hw
  | succ fuel ih =>
    cases t with
    | nil => exact hw
    | node a child next =>
      rw [addtoRule] at hw ⊢
      cases hv : h.visit wordMatch sid level group r a child with
      | done child₁ h₁ => rwa [hv] at hw
      | skip =>
        simp only [hv, Option.bind_eq_bind, Option.bind_eq_some_iff] at hw ⊢
        obtain ⟨x, hnext, hw⟩ := hw
        exact ⟨x, ih hnext, hw⟩
      | descend r_code child₁ h₁ =>
        simp only [hv, Option.bind_eq_bind, Option.bind_eq_some_iff] at hw ⊢
        obtain ⟨x, hchild, y, hnext, hw⟩ := hw
        exact ⟨x, ih hchild, y, ih hnext, hw⟩

theorem addtoRule_of_le {fuel' : ℕ} {result : Bool × SiblingTree RuleNode × RuleHeap}
    (hle : fuel ≤ fuel') (hw : addtoRule wordMatch sid level group r fuel t h = some result) :
    addtoRule wordMatch sid level group r fuel' t h = some result := by
  induction hle with
  | refl => exact hw
  | step _ ih => exact addtoRule_succ ih

/-! ## Which nodes get the new child -/

variable {n : ℕ} {r_code : Bool}

/-- The nodes from the `n`-th allocation on hold `r`. -/
def NewHold (n : ℕ) (r : Ref) (t : SiblingTree RuleNode) : Prop :=
  ∀ a ∈ t.labels, n ≤ a.seq → a.ruleinfo = r

theorem NewHold.node {a : RuleNode} {c x : SiblingTree RuleNode} (hr : NewHold n r (.node a c x)) :
    (n ≤ a.seq → a.ruleinfo = r) ∧ NewHold n r c ∧ NewHold n r x :=
  ⟨hr a List.mem_cons_self, fun b hb => hr b (List.mem_cons_of_mem _ (List.mem_append_left _ hb)),
    fun b hb => hr b (List.mem_cons_of_mem _ (List.mem_append_right _ hb))⟩

theorem Hangs.siblings (hs : Hangs r (h, t) (h', t')) : t'.siblings = t.siblings :=
  Hangs.invariant (P := fun _ u => u.siblings = t.siblings)
    (fun hP hlast => hlast.siblings.trans hP) hs rfl

theorem addtoRule_nil (hw : addtoRule wordMatch sid level group r fuel .nil h =
    some (r_code, t', h')) : t' = .nil ∧ h' = h := by
  cases fuel with
  | zero => cases hw
  | succ fuel =>
    obtain ⟨-, rfl, rfl⟩ : _ ∧ _ ∧ _ := by simpa [addtoRule] using hw
    exact ⟨rfl, rfl⟩

variable (wordMatch level group r) in
/-- For a signature id the search stops at a node that has it, and descends at the others. -/
theorem visit_sid (hsid : sid ≠ 0) (a : RuleNode) (c : SiblingTree RuleNode) :
    (h.sigidAt a = sid ∧
      ∃ c' h', h.visit wordMatch sid level group r a c = .done c' h' ∧ Hung r h c h' c') ∨
    h.sigidAt a ≠ sid ∧ h.visit wordMatch sid level group r a c = .descend false c h := by
  by_cases hit : h.sigidAt a = sid
  · have hv : h.visit wordMatch sid level group r a c = _ := (if_pos hsid).trans (if_pos hit)
    exact .inl ⟨hit, _, _, hv, visit_done hv⟩
  · exact .inr ⟨hit, (if_pos hsid).trans (if_neg hit)⟩

/-- Whether the group of a node matches, and the node does not hold the rule itself. -/
def groupHit (wordMatch : Bytes → Bytes → Bool) (g : Bytes) (r : Ref) (h : RuleHeap)
    (a : RuleNode) : Bool :=
  decide (wordMatch g (h.rule a.ruleinfo).group ∧ h.sigidAt a ≠ (h.rule r).sigid)

theorem Frame.groupHit {g : Bytes} (hf : Frame h h') :
    groupHit wordMatch g r h' = groupHit wordMatch g r h := by
  funext a
  rw [RuleHeap.groupHit, RuleHeap.groupHit, hf.sigidAt, hf.sigid, hf.group]

variable (wordMatch level r) in
/-- For a group it descends at every node. -/
theorem visit_group (g : Bytes) (a : RuleNode) (c : SiblingTree RuleNode) :
    ∃ c' h', h.visit wordMatch 0 level (some g) r a c = .descend (groupHit wordMatch g r h a) c' h' ∧
      if groupHit wordMatch g r h a then Hung r h c h' c' else c' = c ∧ h' = h := by
  have hmode : h.visit wordMatch 0 level (some g) r a c =
      if wordMatch g (h.rule a.ruleinfo).group ∧ h.sigidAt a ≠ (h.rule r).sigid then
        .descend true ((h.inheritLastEvents a.ruleinfo r).osAddRuleInternal c r).1
          ((h.inheritLastEvents a.ruleinfo r).osAddRuleInternal c r).2
      else .descend false c h := rfl
  by_cases hit : wordMatch g (h.rule a.ruleinfo).group ∧ h.sigidAt a ≠ (h.rule r).sigid
  · have hv := hmode.trans (if_pos hit)
    have htrue : groupHit wordMatch g r h a = true := decide_eq_true hit
    simp only [htrue, if_true]
    rcases visit_descend hv with ⟨hfalse, -⟩ | ⟨-, -, hung⟩
    · cases hfalse
    · exact ⟨_, _, hv, hung⟩
  · have hfalse : groupHit wordMatch g r h a = false := decide_eq_false hit
    simp only [hfalse, Bool.false_eq_true, if_false]
    exact ⟨c, h, hmode.trans (if_neg hit), rfl, rfl⟩

theorem newFrom_nodes (hn : n ≤ h.nodes) :
    RuleNode.newFrom n { ruleinfo := r, seq := h.nodes } :=
  decide_eq_true hn

/-- The search for a signature id other than that of the new rule gives a child to the first node
with the id in each sibling list that it comes to. -/
theorem addtoRule_sid (hsid : sid ≠ 0) (hN : (h.rule r).sigid ≠ sid) (hn : n ≤ h.nodes)
    (hr : NewHold n r t) (hl : NewLeaves (RuleNode.newFrom n) t)
    (hw : addtoRule wordMatch sid level group r fuel t h = some (r_code, t', h')) :
    t'.mark (RuleNode.newFrom n) = (t.mark (RuleNode.newFrom n)).markFirst h.sigidAt sid ∧
      NewLeaves (RuleNode.newFrom n) t' := by
  induction fuel generalizing t h r_code t' h' with
  | zero => cases hw
  | succ fuel ih =>
    cases t with
    | nil =>
      obtain ⟨rfl, rfl⟩ := addtoRule_nil hw
      exact ⟨rfl, trivial⟩
    | node a child next =>
      obtain ⟨hra, hrc, hrn⟩ := hr.node
      obtain ⟨hla, hlc, hln⟩ := hl
      rw [addtoRule] at hw
      rcases visit_sid r wordMatch level group hsid a child with ⟨hit, child₁, h₁, hv, hung⟩ | ⟨hit, hv⟩
      · -- the node with the id is an old one, since the new ones hold the new rule
        rw [hv] at hw
        obtain ⟨-, rfl, rfl⟩ : _ ∧ _ ∧ _ := by simpa using hw
        have hold : ¬ RuleNode.newFrom n a := fun h₂ =>
          hN (hra (of_decide_eq_true h₂) ▸ hit)
        rw [mark, mark, if_neg hold, if_neg hold, markFirst, if_pos hit, hung.list,
          osAddRuleInternal, mark_insertBefore (newFrom_nodes hn),
          any_siblings_insertBefore (newFrom_nodes hn)]
        exact ⟨rfl, fun h₂ => absurd h₂ hold, newLeaves_insertBefore.mpr hlc, hln⟩
      · simp only [hv, Option.bind_eq_bind, Option.bind_eq_some_iff] at hw
        obtain ⟨⟨b₂, child₂, h₂⟩, hchild, ⟨b₃, next₃, h₃⟩, hnext, hw⟩ := hw
        obtain ⟨-, rfl, rfl⟩ : _ ∧ _ ∧ _ := by simpa using hw
        have hframe := (addtoRule_hang hchild).frame
        obtain ⟨hmc, hlc₂⟩ := ih hN hn hrc hlc hchild
        obtain ⟨hmn, hln₃⟩ := ih (by rwa [hframe.sigid]) (hn.trans hframe.nodes) hrn hln hnext
        rw [hframe.sigidAt] at hmn
        have hleaf : RuleNode.newFrom n a → child₂ = .nil := fun h₂ => by
          rw [hla h₂] at hchild
          exact (addtoRule_nil hchild).1
        refine ⟨?_, hleaf, hlc₂, hln₃⟩
        rw [mark, mark]
        split
        · exact hmn
        · rw [markFirst, if_neg hit, hmc, hmn, (addtoRule_hang hchild).siblings]

/-- The search for a group gives a child to every node of the group that does not hold the rule. -/
theorem addtoRule_group {g : Bytes} (hn : n ≤ h.nodes)
    (hr : NewHold n r t) (hl : NewLeaves (RuleNode.newFrom n) t)
    (hw : addtoRule wordMatch 0 level (some g) r fuel t h = some (r_code, t', h')) :
    t'.mark (RuleNode.newFrom n) =
        (t.mark (RuleNode.newFrom n)).markAll (groupHit wordMatch g r h) ∧
      NewLeaves (RuleNode.newFrom n) t' := by
  induction fuel generalizing t h r_code t' h' with
  | zero => cases hw
  | succ fuel ih =>
    cases t with
    | nil =>
      obtain ⟨rfl, rfl⟩ := addtoRule_nil hw
      exact ⟨rfl, trivial⟩
    | node a child next =>
      obtain ⟨hra, hrc, hrn⟩ := hr.node
      obtain ⟨hla, hlc, hln⟩ := hl
      rw [addtoRule] at hw
      obtain ⟨child₁, h₁, hv, hit⟩ := visit_group r wordMatch level g a child (h := h)
      simp only [hv, Option.bind_eq_bind, Option.bind_eq_some_iff] at hw
      obtain ⟨⟨b₂, child₂, h₂⟩, hchild, ⟨b₃, next₃, h₃⟩, hnext, hw⟩ := hw
      obtain ⟨-, rfl, rfl⟩ : _ ∧ _ ∧ _ := by simpa using hw
      -- what the list of children is before the walk goes on into it
      have hfirst : Frame h h₁ ∧ NewHold n r child₁ ∧ NewLeaves (RuleNode.newFrom n) child₁ ∧
          child₁.mark (RuleNode.newFrom n) = child.mark (RuleNode.newFrom n) ∧
          child₁.siblings.any (RuleNode.newFrom n) =
            (child.siblings.any (RuleNode.newFrom n) || groupHit wordMatch g r h a) := by
        split at hit
        case isTrue hg =>
          rw [hit.list, osAddRuleInternal]
          refine ⟨hit.frame, fun b hb => ?_, newLeaves_insertBefore.mpr hlc,
            mark_insertBefore (newFrom_nodes hn), ?_⟩
          · exact (mem_labels_insertBefore.mp hb).elim (fun e _ => e ▸ rfl) (hrc b)
          · rw [any_siblings_insertBefore (newFrom_nodes hn), hg, Bool.or_true]
        case isFalse hg =>
          obtain ⟨rfl, rfl⟩ := hit
          rw [Bool.eq_false_iff.mpr hg, Bool.or_false]
          exact ⟨Frame.refl _, hrc, hlc, rfl, rfl⟩
      obtain ⟨hf₁, hrc₁, hlc₁, hm₁, hany₁⟩ := hfirst
      have hf₂ := hf₁.trans (addtoRule_hang hchild).frame
      obtain ⟨hmc, hlc₂⟩ := ih (hn.trans hf₁.nodes) hrc₁ hlc₁ hchild
      obtain ⟨hmn, hln₃⟩ := ih (hn.trans hf₂.nodes) hrn hln hnext
      rw [hf₁.groupHit, hm₁] at hmc
      rw [hf₂.groupHit] at hmn
      have hleaf : RuleNode.newFrom n a → child₂ = .nil := fun hnew => by
        -- a new node holds the rule itself, so that it gets no child
        have hself : groupHit wordMatch g r h a = false :=
          decide_eq_false fun h₂ => h₂.2 (by rw [sigidAt, hra (of_decide_eq_true hnew)])
        rw [hself, if_neg Bool.false_ne_true, hla hnew] at hit
        rw [hit.1] at hchild
        exact (addtoRule_nil hchild).1
      refine ⟨?_, hleaf, hlc₂, hln₃⟩
      rw [mark, mark]
      split
      · exact hmn
      · rw [hmc, hmn, (addtoRule_hang hchild).siblings, hany₁]
        rfl

/-- The search for the signature id of the new rule, where it finds one, finds a new node. -/
theorem not_newLeaves_of_self (hsid : sid ≠ 0)
    (hold : ∀ a ∈ t.labels, h.sigidAt a = sid → RuleNode.newFrom n a)
    (hw : addtoRule wordMatch sid level group r fuel t h = some (r_code, t', h'))
    (hfound : r_code = true) : ¬ NewLeaves (RuleNode.newFrom n) t' := by
  induction fuel generalizing t h r_code t' h' with
  | zero => cases hw
  | succ fuel ih =>
    cases t with
    | nil =>
      obtain ⟨hfalse, -⟩ : r_code = false ∧ _ := by simpa [addtoRule, eq_comm] using hw
      exact absurd (hfalse.symm.trans hfound) Bool.false_ne_true
    | node a child next =>
      rw [addtoRule] at hw
      have hoc : ∀ c ∈ child.labels, h.sigidAt c = sid → RuleNode.newFrom n c := fun c hc =>
        hold c (List.mem_cons_of_mem _ (List.mem_append_left _ hc))
      have hon : ∀ c ∈ next.labels, h.sigidAt c = sid → RuleNode.newFrom n c := fun c hc =>
        hold c (List.mem_cons_of_mem _ (List.mem_append_right _ hc))
      rcases visit_sid r wordMatch level group hsid a child with
        ⟨hit, child₁, h₁, hv, hung⟩ | ⟨hit, hv⟩
      · rw [hv] at hw
        obtain ⟨-, rfl, rfl⟩ : _ ∧ _ ∧ _ := by simpa using hw
        rintro ⟨hleaf, -, -⟩
        exact insertBefore_ne_nil (hung.list.symm.trans (hleaf (hold a List.mem_cons_self hit)))
      · simp only [hv, Option.bind_eq_bind, Option.bind_eq_some_iff] at hw
        obtain ⟨⟨b₂, child₂, h₂⟩, hchild, ⟨b₃, next₃, h₃⟩, hnext, hw⟩ := hw
        obtain ⟨hor, rfl, rfl⟩ : (b₂ || b₃) = r_code ∧ _ ∧ _ := by simpa using hw
        rintro ⟨-, hlc, hln⟩
        rw [hfound, Bool.or_eq_true] at hor
        rcases hor with hfound | hfound
        · exact ih hoc hchild hfound hlc
        · rw [← (addtoRule_hang hchild).frame.sigidAt] at hon
          exact ih hon hnext hfound hln

theorem Hang.ne_nil (hs : Hang r (h, t) (h', t')) : t' ≠ .nil := by
  rintro rfl
  cases hs

/-- A node with children keeps them. -/
theorem Hang.newLeaves (hs : Hang r (h, t) (h', t')) (hl : NewLeaves (RuleNode.newFrom n) t') :
    NewLeaves (RuleNode.newFrom n) t := by
  generalize hp : (h, t) = p at hs
  generalize hp' : (h', t') = p' at hs
  induction hs generalizing h t h' t' with
  | here hung =>
    cases hp; cases hp'
    obtain ⟨hla, hlc, hln⟩ := hl
    rw [hung.list] at hla hlc
    exact ⟨fun hnew => absurd (hla hnew) insertBefore_ne_nil, newLeaves_insertBefore.mp hlc, hln⟩
  | child hchild ih =>
    cases hp; cases hp'
    obtain ⟨hla, hlc, hln⟩ := hl
    exact ⟨fun hnew => absurd (hla hnew) hchild.ne_nil, ih hlc rfl rfl, hln⟩
  | next _ ih =>
    cases hp; cases hp'
    obtain ⟨hla, hlc, hln⟩ := hl
    exact ⟨hla, hlc, ih hln rfl rfl⟩

theorem Hangs.newLeaves (hs : Hangs r (h, t) (h', t'))
    (hl : NewLeaves (RuleNode.newFrom n) t') : NewLeaves (RuleNode.newFrom n) t := by
  have key := Hangs.invariant (P := fun _ u => NewLeaves (RuleNode.newFrom n) u →
      NewLeaves (RuleNode.newFrom n) t)
    (fun hP hlast hu => hP (hlast.newLeaves hu)) hs id
  exact key hl

theorem Hangs.mem_labels (hs : Hangs r (h, t) (h', t')) :
    ∀ a ∈ t'.labels, a ∈ t.labels ∨ h.nodes ≤ a.seq := by
  have key := Hangs.invariant
    (P := fun h₁ u => h.nodes ≤ h₁.nodes ∧ ∀ a ∈ u.labels, a ∈ t.labels ∨ h.nodes ≤ a.seq)
    (fun {h₁ u h₂ u'} hP hlast => ⟨hP.1.trans hlast.labels.1.nodes, fun a ha => ?_⟩) hs
    ⟨le_rfl, fun _ ha => .inl ha⟩
  · exact key.2
  · rcases (hlast.labels.2.2 a).mp ha with rfl | ha
    · exact .inr hP.1
    · exact hP.2 a ha

theorem Hangs.newHold (hs : Hangs r (h, t) (h', t')) (hr : NewHold n r t) : NewHold n r t' := by
  refine Hangs.invariant (P := fun _ u => NewHold n r u) (fun hP hlast a ha hn => ?_) hs hr
  rcases (hlast.labels.2.2 a).mp ha with rfl | ha
  · rfl
  · exact hP a ha hn

end RuleHeap

/-! ## The ids of `if_sid` -/

namespace RulesList

open RuleHeap

variable {wordMatch : Bytes → Bytes → Bool} {fuel code : ℕ} {r : Ref} {s s' : RulesList}

/-- The ids that the loop reads in a text, none where it stops with an error. -/
def ifSidIds : Bytes → Bool → Option (List ℤ)
  | [], true => some []
  | [], false => some [atoi []]
  | c :: text, val =>
    if c = chr ',' ∨ c = chr ' ' then ifSidIds text false
    else if isDigit c then
      if val then ifSidIds text true
      else (ifSidIds text true).map fun ids => atoi (c :: text) :: ids
    else none

/-- The walk for one id after the other. -/
def addSids (wordMatch : Bytes → Bytes → Bool) (fuel : ℕ) (r : Ref) :
    List ℤ → RulesList → Outcome RulesList
  | [], s => .returns 0 s
  | id :: ids, s =>
    match addFromFirst wordMatch fuel r id 0 none s with
    | .returns _ s => addSids wordMatch fuel r ids s
    | out => out

theorem addFromFirst_returns {sid level : ℤ} {group : Option Bytes}
    (h : addFromFirst wordMatch fuel r sid level group s = .returns code s') :
    code = 0 ∧ addtoRule wordMatch sid level group r fuel s.rulenode s.toRuleHeap =
      some (true, s'.rulenode, s'.toRuleHeap) := by
  unfold addFromFirst at h
  split at h
  · cases h
  · cases h
  case h_3 hw =>
    obtain ⟨rfl, rfl⟩ := Outcome.returns.inj h
    exact ⟨rfl, hw⟩

theorem ifSidLoop_eq {text : Bytes} {val : Bool} {ids : List ℤ}
    (hids : ifSidIds text val = some ids) :
    ifSidLoop wordMatch fuel r text val s = addSids wordMatch fuel r ids s := by
  induction text generalizing val ids s with
  | nil =>
    cases val with
    | true =>
      cases hids
      rfl
    | false =>
      cases hids
      rw [ifSidLoop, addSids]
      cases ha : addFromFirst wordMatch fuel r (atoi []) 0 none s with
      | returns code s₁ => rw [(addFromFirst_returns ha).1]; rfl
      | errorExit => rfl
      | outOfFuel => rfl
  | cons c text ih =>
    rw [ifSidIds] at hids
    rw [ifSidLoop]
    split_ifs at hids ⊢ with hsep hdig hval
    · exact ih hids
    · exact ih hids
    · obtain ⟨ids, hrest, rfl⟩ := Option.map_eq_some_iff.mp hids
      rw [addSids]
      cases ha : addFromFirst wordMatch fuel r (atoi (c :: text)) 0 none s with
      | returns code s₁ => exact ih hrest
      | errorExit => rfl
      | outOfFuel => rfl

/-! ## The call ends -/

/-- With enough fuel a call has one outcome, and that is not for lack of fuel. -/
def Terminates (f : ℕ → Outcome RulesList) : Prop :=
  ∃ out, out ≠ .outOfFuel ∧ ∃ bound, ∀ fuel, bound ≤ fuel → f fuel = out

theorem addFromFirst_terminates (sid level : ℤ) (group : Option Bytes) (s : RulesList) :
    Terminates fun fuel => addFromFirst wordMatch fuel r sid level group s := by
  obtain ⟨⟨r_code, list, h⟩, hw⟩ : ∃ result, addtoRule wordMatch sid level group r
      (s.rulenode.weight (s.walkWeight r) + 1) s.rulenode s.toRuleHeap = some result :=
    addtoRule_isSome (Nat.lt_succ_self _)
  refine ⟨if r_code then .returns 0 { s with toRuleHeap := h, rulenode := list } else .errorExit,
    ?_, s.rulenode.weight (s.walkWeight r) + 1, fun fuel hle => ?_⟩
  · cases r_code
    · exact nofun
    · exact nofun
  · simp only [addFromFirst, addtoRule_of_le hle hw]
    cases r_code
    · rfl
    · rfl

theorem ifSidLoop_terminates (text : Bytes) (val : Bool) (s : RulesList) :
    Terminates fun fuel => ifSidLoop wordMatch fuel r text val s := by
  induction text generalizing val s with
  | nil =>
    cases val with
    | true => exact ⟨.returns 0 s, by rintro ⟨⟩, 0, fun _ _ => rfl⟩
    | false => exact addFromFirst_terminates (atoi []) 0 none s
  | cons c text ih =>
    simp only [ifSidLoop]
    split_ifs with hsep hdig hval
    · exact ih false s
    · exact ih true s
    · have hends : Terminates fun fuel =>
          addFromFirst wordMatch fuel r (atoi (c :: text)) 0 none s :=
        addFromFirst_terminates _ _ _ _
      obtain ⟨out, hout, bound, heq⟩ := hends
      cases out with
      | returns code₁ s₁ =>
        obtain ⟨out₂, hout₂, bound₂, heq₂⟩ := ih true s₁
        refine ⟨out₂, hout₂, max bound bound₂, fun fuel hle => ?_⟩
        have hfirst : addFromFirst wordMatch fuel r (atoi (c :: text)) 0 none s = _ :=
          heq fuel (le_trans (le_max_left _ _) hle)
        simp only [hfirst]
        exact heq₂ fuel (le_trans (le_max_right _ _) hle)
      | errorExit =>
        refine ⟨.errorExit, hout, bound, fun fuel hle => ?_⟩
        have hfirst : addFromFirst wordMatch fuel r (atoi (c :: text)) 0 none s = _ := heq fuel hle
        simp only [hfirst]
      | outOfFuel => exact absurd rfl hout
    · exact ⟨.errorExit, by rintro ⟨⟩, 0, fun _ _ => rfl⟩

theorem osAddChild_terminates (s : RulesList) (N : RuleInfo) :
    Terminates fun fuel => osAddChild wordMatch fuel s N := by
  unfold osAddChild
  split
  · exact ifSidLoop_terminates _ false _
  · split_ifs
    · exact ⟨.returns 1 _, nofun, 0, fun _ _ => rfl⟩
    · exact addFromFirst_terminates _ _ _ _
  · exact addFromFirst_terminates _ _ _ _
  · exact addFromFirst_terminates _ _ _ _

/-! ## Where the new rule ends up -/

/-- Between the states before and after the call, exactly the wanted ones of the previous nodes have
got a child, every new node is a leaf that holds the new rule, and the previous nodes stand as
before. -/
structure Placed (s s' : RulesList) (wanted : RuleNode → Bool) : Prop where
  nodes : s'.rulenode.mark (RuleNode.newFrom s.nodes) = s.rulenode.map fun a => (a, wanted a)
  first : s'.rulenode.siblings = s.rulenode.siblings
  new : ∀ a ∈ s'.rulenode.labels, s.nodes ≤ a.seq → a.ruleinfo = s.rules
  leaves : NewLeaves (RuleNode.newFrom s.nodes) s'.rulenode

/-- The walks for ids other than that of the new rule give a child to the first nodes that each of
them comes to. -/
theorem addSids_mark {n : ℕ} {ids : List ℤ} (h0 : 0 ∉ ids) (hN : (s.rule r).sigid ∉ ids)
    (hn : n ≤ s.nodes) (hr : NewHold n r s.rulenode)
    (hl : NewLeaves (RuleNode.newFrom n) s.rulenode)
    (h : addSids wordMatch fuel r ids s = .returns code s') :
    s'.rulenode.mark (RuleNode.newFrom n) =
        ids.foldl (fun m id => m.markFirst s.sigidAt id) (s.rulenode.mark (RuleNode.newFrom n)) ∧
      NewLeaves (RuleNode.newFrom n) s'.rulenode := by
  induction ids generalizing s with
  | nil =>
    obtain ⟨-, rfl⟩ := Outcome.returns.inj h
    exact ⟨rfl, hl⟩
  | cons id ids ih =>
    rw [addSids] at h
    cases ha : addFromFirst wordMatch fuel r id 0 none s with
    | returns code₁ s₁ =>
      rw [ha] at h
      have hw := (addFromFirst_returns ha).2
      have hhang := addtoRule_hang hw
      rw [List.mem_cons, not_or] at h0 hN
      obtain ⟨hm₁, hl₁⟩ := addtoRule_sid (Ne.symm h0.1) hN.1 hn hr hl hw
      have hN₁ : (s₁.rule r).sigid ∉ ids := by rw [hhang.frame.sigid]; exact hN.2
      obtain ⟨hm, hl'⟩ := ih h0.2 hN₁ (hn.trans hhang.frame.nodes) (hhang.newHold hr) hl₁ h
      rw [hhang.frame.sigidAt, hm₁] at hm
      exact ⟨hm, hl'⟩
    | errorExit => rw [ha] at h; cases h
    | outOfFuel => rw [ha] at h; cases h

theorem addSids_hangs {ids : List ℤ} (h : addSids wordMatch fuel r ids s = .returns code s') :
    Hangs r (s.toRuleHeap, s.rulenode) (s'.toRuleHeap, s'.rulenode) := by
  induction ids generalizing s with
  | nil =>
    obtain ⟨-, rfl⟩ := Outcome.returns.inj h
    exact .refl
  | cons id ids ih =>
    rw [addSids] at h
    cases ha : addFromFirst wordMatch fuel r id 0 none s with
    | returns code₁ s₁ =>
      rw [ha] at h
      exact (addFromFirst_hang ha).2.trans (ih h)
    | errorExit => rw [ha] at h; cases h
    | outOfFuel => rw [ha] at h; cases h

/-- When the list names the new rule itself, that rule becomes a child of itself. -/
theorem self_not_mem_of_newLeaves {n : ℕ} {ids : List ℤ} (h0 : 0 ∉ ids)
    (hold : ∀ a ∈ s.rulenode.labels, s.sigidAt a = (s.rule r).sigid → RuleNode.newFrom n a)
    (hn : n ≤ s.nodes) (h : addSids wordMatch fuel r ids s = .returns code s')
    (hl : NewLeaves (RuleNode.newFrom n) s'.rulenode) : (s.rule r).sigid ∉ ids := by
  induction ids generalizing s with
  | nil => exact List.not_mem_nil
  | cons id ids ih =>
    rw [addSids] at h
    cases ha : addFromFirst wordMatch fuel r id 0 none s with
    | returns code₁ s₁ =>
      rw [ha] at h
      have hw := (addFromFirst_returns ha).2
      have hhang := addtoRule_hang hw
      rw [List.mem_cons, not_or] at h0
      have hold₁ : ∀ a ∈ s₁.rulenode.labels, s₁.sigidAt a = (s₁.rule r).sigid →
          RuleNode.newFrom n a := by
        intro a ha hsid
        rw [hhang.frame.sigidAt, hhang.frame.sigid] at hsid
        rcases hhang.mem_labels a ha with ha | ha
        · exact hold a ha hsid
        · exact decide_eq_true (hn.trans ha)
      have hrest := ih h0.2 hold₁ (hn.trans hhang.frame.nodes) h
      rw [hhang.frame.sigid] at hrest
      rw [List.mem_cons, not_or]
      refine ⟨fun hid => ?_, hrest⟩
      rw [hid] at hold
      exact not_newLeaves_of_self (Ne.symm h0.1) hold hw rfl ((addSids_hangs h).newLeaves hl)
    | errorExit => rw [ha] at h; cases h
    | outOfFuel => rw [ha] at h; cases h

theorem findSid_eq_none {h : RuleHeap} {sid : ℤ} {t : SiblingTree RuleNode} :
    findSid h sid t = none ↔ ∀ a ∈ t.labels, h.sigidAt a ≠ sid := by
  induction t with
  | nil => simp [findSid]
  | node a child next ihc ihn =>
    rw [findSid]
    split
    case isTrue ha =>
      exact iff_of_false nofun fun h => h a List.mem_cons_self ha
    case isFalse ha =>
      rw [Option.or_eq_none_iff, ihc, ihn, labels_node]
      simp only [List.mem_cons, List.mem_append, or_imp, forall_and, forall_eq]
      exact (and_iff_right ha).symm

theorem doesRuleExist_eq_false {sid : ℤ} :
    s.doesRuleExist sid = false ↔ ∀ a ∈ s.rulenode.labels, s.sigidAt a ≠ sid := by
  rw [doesRuleExist, Option.isSome_eq_false_iff, Option.isNone_iff_eq_none, findSid_eq_none]

theorem sigidAt_alloc (hw : s.WellFormed) (N : RuleInfo) {a : RuleNode}
    (ha : a ∈ s.rulenode.labels) : (s.alloc N).rule a.ruleinfo = s.rule a.ruleinfo :=
  if_neg (hw a ha).2.ne

theorem WellFormed.alloc (hw : s.WellFormed) (N : RuleInfo) : (s.alloc N).WellFormed :=
  fun a ha => (hw a ha).imp_right (·.trans (Nat.lt_succ_self _))

theorem mark_eq_map (hw : s.WellFormed) :
    s.rulenode.mark (RuleNode.newFrom s.nodes) = s.rulenode.map fun a => (a, false) :=
  mark_of_forall_not fun a ha => decide_eq_false (not_le.mpr (hw a ha).1)

theorem newLeaves_self (hw : s.WellFormed) :
    NewLeaves (RuleNode.newFrom s.nodes) s.rulenode :=
  newLeaves_of_forall_not fun a ha => decide_eq_false (not_le.mpr (hw a ha).1)

theorem newHold_self (hw : s.WellFormed) : NewHold s.nodes r s.rulenode :=
  fun a ha h => absurd (hw a ha).1 (not_lt.mpr h)

/-- For a list of ids the new rule is placed below all the nodes with these ids exactly if the list
does not name the new rule and no node hides another one with an id of the list. -/
theorem placed_ifSid_iff (hw : s.WellFormed) {N : RuleInfo} (hnew : s.doesRuleExist N.sigid = false)
    {text : Bytes} (htext : N.if_sid = some text) {ids : List ℤ}
    (hids : ifSidIds text false = some ids) (h0 : 0 ∉ ids)
    (h : osAddChild wordMatch fuel s N = .returns code s') :
    Placed s s' (fun a => decide (s.sigidAt a ∈ ids)) ↔
      N.sigid ∉ ids ∧ ∀ id ∈ ids, Exposed s.sigidAt id s.rulenode := by
  have hhang := (osAddChild_hang h).2
  simp only [osAddChild, htext] at h
  rw [ifSidLoop_eq hids] at h
  have hN : ((s.alloc N).rule s.rules).sigid = N.sigid := congrArg RuleInfo.sigid (if_pos rfl)
  have hkey : ∀ a ∈ s.rulenode.labels, (s.alloc N).sigidAt a = s.sigidAt a := fun a ha =>
    congrArg RuleInfo.sigid (sigidAt_alloc hw N ha)
  have hself : NewLeaves (RuleNode.newFrom s.nodes) s'.rulenode → N.sigid ∉ ids := fun hl => by
    rw [← hN]
    refine self_not_mem_of_newLeaves h0 (fun a ha hsid => ?_) le_rfl h hl
    rw [hN, hkey a ha] at hsid
    exact absurd hsid (doesRuleExist_eq_false.mp hnew a ha)
  have hmark (hmem : N.sigid ∉ ids) : s'.rulenode.mark (RuleNode.newFrom s.nodes) =
        s.rulenode.markFirsts (s.alloc N).sigidAt ids.toFinset ∧
      NewLeaves (RuleNode.newFrom s.nodes) s'.rulenode := by
    obtain ⟨hm, hl⟩ := addSids_mark h0 (by rwa [hN]) le_rfl (newHold_self (hw.alloc N))
      (newLeaves_self (hw.alloc N)) h
    refine ⟨hm.trans ?_, hl⟩
    rw [← Finset.union_empty ids.toFinset, ← foldl_markFirst, markFirsts_empty,
      mark_eq_map (hw.alloc N)]
    rfl
  have hwanted : (s.rulenode.map fun a => (a, decide (s.sigidAt a ∈ ids))) =
      s.rulenode.map fun a => (a, decide ((s.alloc N).sigidAt a ∈ ids.toFinset)) :=
    map_congr fun a ha => by rw [hkey a ha, decide_eq_decide.mpr List.mem_toFinset]
  have hexposed : (∀ id ∈ ids, Exposed s.sigidAt id s.rulenode) ↔
      ∀ id ∈ ids.toFinset, Exposed (s.alloc N).sigidAt id s.rulenode := by
    refine forall_congr' fun id => ?_
    rw [List.mem_toFinset, Exposed.congr id hkey]
  rw [hexposed, ← markFirsts_eq_map_iff, ← hwanted]
  constructor
  · intro hp
    have hmem := hself hp.leaves
    exact ⟨hmem, (hmark hmem).1.symm.trans hp.nodes⟩
  · rintro ⟨hmem, hm⟩
    exact ⟨(hmark hmem).1.trans hm, hhang.siblings, hhang.newHold (newHold_self hw), (hmark hmem).2⟩

/-- For a group the new rule is placed below all the nodes of that group. -/
theorem placed_ifGroup (hw : s.WellFormed) {N : RuleInfo} (hnew : s.doesRuleExist N.sigid = false)
    (hsid : N.if_sid = none) (hlevel : N.if_level = none) {g : Bytes} (hg : N.if_group = some g)
    (h : osAddChild wordMatch fuel s N = .returns code s') :
    Placed s s' fun a => wordMatch g (s.rule a.ruleinfo).group := by
  have hhang := (osAddChild_hang h).2
  simp only [osAddChild, hsid, hlevel, hg] at h
  have hN : ((s.alloc N).rule s.rules).sigid = N.sigid := congrArg RuleInfo.sigid (if_pos rfl)
  obtain ⟨hm, hl⟩ := addtoRule_group le_rfl (newHold_self (hw.alloc N))
    (newLeaves_self (hw.alloc N)) (addFromFirst_returns h).2
  refine ⟨hm.trans ?_, hhang.siblings, hhang.newHold (newHold_self hw), hl⟩
  rw [mark_eq_map (hw.alloc N), markAll, map_map]
  refine map_congr fun a ha => Prod.ext rfl ?_
  have hrule := sigidAt_alloc hw N ha
  have hne : (s.alloc N).sigidAt a ≠ ((s.alloc N).rule s.rules).sigid := by
    rw [hN, sigidAt, hrule]
    exact doesRuleExist_eq_false.mp hnew a ha
  show (false || groupHit wordMatch g s.rules (s.alloc N).toRuleHeap a) = _
  rw [Bool.false_or, groupHit, hrule, Bool.decide_and, decide_eq_true hne, Bool.and_true,
    Bool.decide_eq_true]

/-- The call ends. After it, a rule with a list of ids stands below all the nodes with these ids
exactly if the list does not name the rule itself and none of the nodes hides another one, and a
rule with a group stands below all the nodes of the group. -/
theorem osAddChild_placed_iff {calls : List Call} (hs : Run (Step wordMatch) osCreateRuleList calls s)
    {N : RuleInfo} (hnew : s.doesRuleExist N.sigid = false) :
    (Terminates fun fuel => osAddChild wordMatch fuel s N) ∧
    ∀ fuel code s', osAddChild wordMatch fuel s N = .returns code s' →
      (∀ text ids, N.if_sid = some text → ifSidIds text false = some ids → 0 ∉ ids →
        (Placed s s' (fun a => decide (s.sigidAt a ∈ ids)) ↔
          N.sigid ∉ ids ∧ ∀ id ∈ ids, Exposed s.sigidAt id s.rulenode)) ∧
      (∀ g, N.if_sid = none → N.if_level = none → N.if_group = some g →
        Placed s s' fun a => wordMatch g (s.rule a.ruleinfo).group) := by
  have hw : s.WellFormed :=
    hs.invariant (fun _ _ _ hs hl => hl.wellFormed hs) wellFormed_osCreateRuleList
  refine ⟨osAddChild_terminates s N, fun fuel code s' h => ⟨?_, ?_⟩⟩
  · intro text ids htext hids h0
    exact placed_ifSid_iff hw hnew htext hids h0 h
  · intro g hsid hlevel hg
    exact placed_ifGroup hw hnew hsid hlevel hg h

/-- Rule 200 below rule 1, and rule 100 below both of them. -/
def callsTwoParents (level : ℕ) : List Call := [
  .osAddRule { sigid := 1, level := 9900, category := 1 },
  .osAddChild { sigid := 200, level := 300, category := 1, if_sid := some [chr '1'] },
  .osAddChild {
    sigid := 100, level := level, category := 1
    if_sid := some [chr '1', chr ',', chr '2', chr '0', chr '0'] }]

/-- A rule for below rule 100. -/
def ruleBelow : RuleInfo :=
  { sigid := 300, level := 300, category := 1, if_sid := some [chr '1', chr '0', chr '0'] }

theorem osAddChild_placed_two_parents :
    ∃ s s', Run (Step fun _ _ => false) osCreateRuleList (callsTwoParents 200) s ∧
      Placed s s' fun a => decide (s.sigidAt a ∈ [100]) := by
  have hex : ∃ s ∈ performAll (fun _ _ => false) 20 (fun _ _ => true) osCreateRuleList
      (callsTwoParents 200), s.doesRuleExist ruleBelow.sigid = false ∧
        (∀ id ∈ [100], Exposed s.sigidAt id s.rulenode) ∧
        (s.perform (fun _ _ => false) 20 (.osAddChild ruleBelow)).isSome := by decide +kernel
  obtain ⟨s, hs, hnew, hexposed, hsome⟩ := hex
  obtain ⟨s', hs'⟩ := Option.isSome_iff_exists.mp hsome
  obtain ⟨code, h⟩ := perform_osAddChild hs'
  have hrun : Run (Step fun _ _ => false) osCreateRuleList (callsTwoParents 200) s :=
    (run_of_performAll hs).mono fun _ _ _ h => h.1
  have hplaced := ((osAddChild_placed_iff hrun hnew).2 20 code s' h).1 _ [100] rfl
    (by decide +kernel) (by decide)
  exact ⟨s, s', hrun, hplaced.mpr ⟨by decide, hexposed⟩⟩

/-- Rule 100 stands first below rule 1. The search for it stops there, and does not get to rule 200
with its own node of rule 100. -/
theorem not_placed_hidden :
    ¬ ∀ wordMatch calls s N fuel code s' text ids, Run (Step wordMatch) osCreateRuleList calls s →
      s.doesRuleExist N.sigid = false → osAddChild wordMatch fuel s N = .returns code s' →
      N.if_sid = some text → ifSidIds text false = some ids → 0 ∉ ids → N.sigid ∉ ids →
      Placed s s' fun a => decide (s.sigidAt a ∈ ids) := by
  intro hall
  have hex : ∃ s ∈ performAll (fun _ _ => false) 20 (fun _ _ => true) osCreateRuleList
      (callsTwoParents 500), s.doesRuleExist ruleBelow.sigid = false ∧
        ∃ s' ∈ s.perform (fun _ _ => false) 20 (.osAddChild ruleBelow),
          s'.rulenode.mark (RuleNode.newFrom s.nodes) ≠
            s.rulenode.map fun a => (a, decide (s.sigidAt a ∈ [100])) := by decide +kernel
  obtain ⟨s, hs, hnew, s', hs', hne⟩ := hex
  obtain ⟨code, h⟩ := perform_osAddChild hs'
  have hplaced := hall _ _ s ruleBelow 20 code s' _ [100]
    ((run_of_performAll hs).mono fun _ _ _ h => h.1) hnew h rfl (by decide +kernel) (by decide)
    (by decide)
  exact hne hplaced.nodes

end RulesList
