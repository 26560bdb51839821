import OssecHids.Analysisd.RulesList

/-!
# The order of the sibling lists

Rules are tried in the order of their sibling list, so that the order by level decides which rule
fires. `_OS_AddRule` puts a node where its level belongs; `OS_AddRuleInfo` changes the level of a
rule and leaves its nodes where they are.

- `sorted_osAddRuleInfo_iff`: when a new level keeps the lists sorted;
- `sorted_of_run`: a run of the reader in which every new level does ends with sorted lists.
-/

open CString RuleHeap Transition List

/-- A level goes before a lower one, and of equal levels the one of the older node. -/
def Outranks (level₁ seq₁ level₂ seq₂ : ℕ) : Prop :=
  level₂ < level₁ ∨ level₁ = level₂ ∧ seq₁ < seq₂

instance (level₁ seq₁ level₂ seq₂ : ℕ) : Decidable (Outranks level₁ seq₁ level₂ seq₂) :=
  inferInstanceAs (Decidable (_ ∨ _ ∧ _))

theorem Outranks.asymm {l₁ s₁ l₂ s₂ : ℕ} (h : Outranks l₁ s₁ l₂ s₂) : ¬ Outranks l₂ s₂ l₁ s₁ := by
  unfold Outranks at *
  omega

/-- The order of the nodes of a sibling list. -/
def RuleHeap.Before (h : RuleHeap) (a b : RuleNode) : Prop :=
  Outranks (h.rule a.ruleinfo).level a.seq (h.rule b.ruleinfo).level b.seq

instance (h : RuleHeap) : DecidableRel h.Before := fun _ _ => inferInstanceAs (Decidable (Outranks ..))

namespace RulesList

/-- Every sibling list is sorted by level, and by insertion where the levels are equal. -/
def Sorted (s : RulesList) : Prop := s.rulenode.Ordered s.Before

instance (s : RulesList) : Decidable s.Sorted :=
  inferInstanceAs (Decidable (∀ l ∈ s.rulenode.lists, l.Pairwise s.Before))

/-- For every sibling of a node of rule `q`, the level `v` goes before or after that sibling as the
present level of `q` does. -/
def KeepsPlace (s : RulesList) (q : Ref) (v : ℕ) : Prop :=
  ∀ l ∈ s.rulenode.lists, ∀ x ∈ l, ∀ y ∈ l, x.ruleinfo = q → y.ruleinfo ≠ q →
    (Outranks v x.seq (s.rule y.ruleinfo).level y.seq ↔
      Outranks (s.rule q).level x.seq (s.rule y.ruleinfo).level y.seq) ∧
    (Outranks (s.rule y.ruleinfo).level y.seq v x.seq ↔
      Outranks (s.rule y.ruleinfo).level y.seq (s.rule q).level x.seq)

/-- If the call overwrites a rule, its new level keeps the place of the rule. -/
def Call.KeepsPlace (s : RulesList) : Call → Prop
  | .osAddRule _ => True
  | .osAddChild _ => True
  | .osAddRuleInfo N sid =>
    sid ≠ 0 → ∀ q ∈ findSid s.toRuleHeap sid s.rulenode, s.KeepsPlace q N.level

end RulesList

/-! ## New leaves -/

namespace RuleHeap

variable {h h' : RuleHeap} {r : Ref} {t t' : SiblingTree RuleNode}

theorem Frame.before (hf : Frame h h') : h'.Before = h.Before := by
  funext a b
  show Outranks (h'.rule a.ruleinfo).level _ (h'.rule b.ruleinfo).level _ = _
  rw [hf.level, hf.level]
  rfl

/-- `_OS_AddRule` keeps a list sorted: the new node has the highest number. -/
theorem Hung.ordered (hung : Hung r h t h' t') (hseq : ∀ a ∈ t.labels, a.seq < h.nodes)
    (ho : t.Ordered h.Before) : t'.Ordered h'.Before := by
  rw [hung.frame.before, hung.list]
  refine ho.insertBefore (fun a _ ha => ?_) fun a hal ha => ?_
  · have hlt : (h.rule a.ruleinfo).level < (h.rule r).level := of_decide_eq_true ha
    refine ⟨.inl hlt, fun b _ hab => .inl ?_⟩
    rcases hab with hab | ⟨hab, -⟩
    · exact hab.trans hlt
    · exact hab ▸ hlt
  · have hle : ¬ (h.rule a.ruleinfo).level < (h.rule r).level := fun hlt =>
      ha (decide_eq_true hlt)
    rcases lt_or_eq_of_le (Nat.le_of_not_lt hle) with hlt | heq
    · exact .inl hlt
    · exact .inr ⟨heq.symm, hseq a hal⟩

/-- A new leaf anywhere keeps all the lists sorted. -/
theorem Hang.ordered (hs : Hang r (h, t) (h', t')) (hseq : ∀ a ∈ t.labels, a.seq < h.nodes)
    (ho : t.Ordered h.Before) : t'.Ordered h'.Before := by
  generalize hp : (h, t) = p at hs
  generalize hp' : (h', t') = p' at hs
  induction hs generalizing h t h' t' with
  | here hung =>
    cases hp; cases hp'
    obtain ⟨htop, hc, hn⟩ := SiblingTree.ordered_node.mp ho
    refine SiblingTree.ordered_node.mpr ⟨?_, hung.ordered (fun a ha => hseq a ?_) hc, ?_⟩
    · rwa [hung.frame.before]
    · exact mem_cons_of_mem _ (mem_append_left _ ha)
    · rwa [hung.frame.before]
  | child hchild ih =>
    cases hp; cases hp'
    obtain ⟨htop, hc, hn⟩ := SiblingTree.ordered_node.mp ho
    refine SiblingTree.ordered_node.mpr ⟨?_, ih (fun a ha => hseq a ?_) hc rfl rfl, ?_⟩
    · rwa [hchild.labels.1.before]
    · exact mem_cons_of_mem _ (mem_append_left _ ha)
    · rwa [hchild.labels.1.before]
  | next hnext ih =>
    cases hp; cases hp'
    obtain ⟨htop, hc, hn⟩ := SiblingTree.ordered_node.mp ho
    refine SiblingTree.ordered_node.mpr ⟨?_, ?_, ih (fun a ha => hseq a ?_) hn rfl rfl⟩
    · rwa [hnext.labels.1.before, hnext.siblings]
    · rwa [hnext.labels.1.before]
    · exact mem_cons_of_mem _ (mem_append_right _ ha)

theorem Hangs.ordered (hs : Hangs r (h, t) (h', t')) (hseq : ∀ a ∈ t.labels, a.seq < h.nodes)
    (ho : t.Ordered h.Before) : t'.Ordered h'.Before := by
  have key := Hangs.invariant
    (P := fun h t => (∀ a ∈ t.labels, a.seq < h.nodes) ∧ t.Ordered h.Before)
    (fun {h t h' t'} hP hlast => ⟨fun a ha => ?_, hlast.ordered hP.1 hP.2⟩) hs ⟨hseq, ho⟩
  · exact key.2
  · obtain ⟨-, hn, hl⟩ := hlast.labels
    rw [hn]
    rcases (hl a).mp ha with rfl | ha
    · exact Nat.lt_succ_self _
    · exact (hP.1 a ha).trans (Nat.lt_succ_self _)

end RuleHeap

namespace RulesList

variable {s s' : RulesList} {wordMatch : Bytes → Bytes → Bool}

theorem ordered_alloc (hw : s.WellFormed) (hs : s.Sorted) (N : RuleInfo) :
    s.rulenode.Ordered (s.alloc N).Before := by
  intro l hl
  refine (hs l hl).imp_of_mem fun {a b} ha hb hab => ?_
  have hrule : ∀ c ∈ l, (s.alloc N).rule c.ruleinfo = s.rule c.ruleinfo := fun c hc =>
    if_neg (hw c (SiblingTree.mem_labels_of_mem_lists hl hc)).2.ne
  show Outranks ((s.alloc N).rule _).level _ ((s.alloc N).rule _).level _
  rw [hrule a ha, hrule b hb]
  exact hab

theorem level_update (h : RuleHeap) (q p : Ref) (N : RuleInfo) :
    ((h.update q fun old => copyRuleInfo old N).rule p).level =
      if p = q then N.level else (h.rule p).level := by
  show (if p = q then copyRuleInfo (h.rule p) N else h.rule p).level = _
  split
  · rfl
  · rfl

/-- A new level keeps sorted lists sorted exactly if it keeps the place of the rule. -/
theorem sorted_update_iff (hs : s.Sorted) (q : Ref) (N : RuleInfo) :
    Sorted { s with toRuleHeap := s.toRuleHeap.update q fun old => copyRuleInfo old N } ↔
      s.KeepsPlace q N.level := by
  have hbefore : ∀ a b, (s.toRuleHeap.update q fun old => copyRuleInfo old N).Before a b ↔
      Outranks (if a.ruleinfo = q then N.level else (s.rule a.ruleinfo).level) a.seq
        (if b.ruleinfo = q then N.level else (s.rule b.ruleinfo).level) b.seq := fun a b => by
    rw [← level_update, ← level_update]
    rfl
  constructor
  · intro hs' l hl x hx y hy hxq hyq
    -- the two nodes stand in one order in the list, and both relations agree with that order
    let both (a b : RuleNode) : Prop :=
      s.Before a b ∧ (s.toRuleHeap.update q fun old => copyRuleInfo old N).Before a b
    have hsymm : Std.Symm fun a b => both a b ∨ both b a := ⟨fun _ _ => Or.symm⟩
    have hpair : l.Pairwise fun a b => both a b ∨ both b a :=
      ((hs l hl).and (hs' l hl)).imp .inl
    have hne : x ≠ y := fun h => hyq (h ▸ hxq)
    rcases hpair.forall hx hy hne with ⟨h, h'⟩ | ⟨h, h'⟩
    · rw [hbefore, if_pos hxq, if_neg hyq] at h'
      rw [Before, hxq] at h
      exact ⟨iff_of_true h' h, iff_of_false h'.asymm h.asymm⟩
    · rw [hbefore, if_pos hxq, if_neg hyq] at h'
      rw [Before, hxq] at h
      exact ⟨iff_of_false h'.asymm h.asymm, iff_of_true h' h⟩
  · intro hk l hl
    refine (hs l hl).imp_of_mem fun {a b} ha hb hab => (hbefore a b).mpr ?_
    rw [Before] at hab
    by_cases haq : a.ruleinfo = q <;> by_cases hbq : b.ruleinfo = q
    · rw [haq, hbq] at hab
      rw [if_pos haq, if_pos hbq]
      exact .inr ⟨rfl, hab.elim (absurd · (lt_irrefl _)) And.right⟩
    · rw [if_pos haq, if_neg hbq]
      exact ((hk l hl a ha b hb haq hbq).1).mpr (haq ▸ hab)
    · rw [if_neg haq, if_pos hbq]
      exact ((hk l hl b hb a ha hbq haq).2).mpr (hbq ▸ hab)
    · rwa [if_neg haq, if_neg hbq]

/-- A step of the reader whose new level, if it has one, keeps its place keeps the lists sorted. -/
theorem sorted_of_step {l : Call} (hw : s.WellFormed) (hs : s.Sorted)
    (h : Step wordMatch s l s') (hk : l.KeepsPlace s) : s'.Sorted := by
  have hseq : ∀ a ∈ s.rulenode.labels, a.seq < s.nodes := fun a ha => (hw a ha).1
  obtain ⟨fuel, h⟩ := h
  cases l with
  | osAddRule N =>
    cases h
    exact (hung_osAddRuleInternal (r := s.rules) (Frame.refl (s.alloc N).toRuleHeap) rfl).ordered
      hseq (ordered_alloc hw hs N)
  | osAddChild N =>
    obtain ⟨code, h⟩ := perform_osAddChild h
    exact (osAddChild_hang h).2.ordered hseq (ordered_alloc hw hs N)
  | osAddRuleInfo N sid =>
    cases h
    unfold RulesList.osAddRuleInfo
    split
    case isTrue => exact hs
    case isFalse hsid =>
      split
      · exact hs
      case h_2 q hq => exact (sorted_update_iff hs q N).mpr (hk hsid q hq)

instance (s : RulesList) (q : Ref) (v : ℕ) : Decidable (s.KeepsPlace q v) :=
  inferInstanceAs (Decidable (∀ l ∈ _, ∀ x ∈ l, ∀ y ∈ l, _ → _ → _))

instance (s : RulesList) : (l : Call) → Decidable (l.KeepsPlace s)
  | .osAddRule _ => .isTrue trivial
  | .osAddChild _ => .isTrue trivial
  | .osAddRuleInfo _ _ => inferInstanceAs (Decidable (_ → ∀ q ∈ _, _))

/-- In every run of the reader in which an overwriting level keeps the place of its rule, every
sibling list is sorted by level, rules of equal level in insertion order. -/
theorem sorted_of_run {ls : List Call}
    (h : Run (fun s l s' => Step wordMatch s l s' ∧ l.KeepsPlace s) osCreateRuleList ls s) :
    s.Sorted := by
  have hstep : ∀ s l s', s.WellFormed ∧ s.Sorted → Step wordMatch s l s' ∧ l.KeepsPlace s →
      s'.WellFormed ∧ s'.Sorted := fun s l s' hs hl =>
    ⟨hl.1.wellFormed hs.1, sorted_of_step hs.1 hs.2 hl.1 hl.2⟩
  exact (h.invariant hstep ⟨wellFormed_osCreateRuleList, SiblingTree.ordered_nil⟩).2

/-- A rule of level 5 and one of level 3 below rule 1, of which the first one is overwritten. -/
def callsOverwriting (level : ℕ) : List Call := [
  .osAddRule { sigid := 1, level := 9900, category := 1 },
  .osAddChild { sigid := 100, level := 500, category := 1, if_sid := some [chr '1'] },
  .osAddChild { sigid := 101, level := 300, category := 1, if_sid := some [chr '1'] },
  .osAddRuleInfo { sigid := 100, level := level, category := 1, alert_opts := DO_OVERWRITE } 100]

theorem sorted_of_run_same_place :
    ∃ s, Run (fun s l s' => Step (fun _ _ => false) s l s' ∧ l.KeepsPlace s) osCreateRuleList
      (callsOverwriting 400) s ∧ s.Sorted := by
  have hsome : (performAll (fun _ _ => false) 10 (fun s l => decide (l.KeepsPlace s))
    osCreateRuleList (callsOverwriting 400)).isSome := by decide +kernel
  obtain ⟨s, hs⟩ := Option.isSome_iff_exists.mp hsome
  have hrun : Run (fun s l s' => Step (fun _ _ => false) s l s' ∧ l.KeepsPlace s) osCreateRuleList
      (callsOverwriting 400) s :=
    (run_of_performAll hs).mono fun _ _ _ h => h.imp_right of_decide_eq_true
  exact ⟨s, hrun, sorted_of_run hrun⟩

/-- A rule overwritten with a level below that of the next rule stays in front of that rule. -/
theorem not_sorted_overwritten :
    ¬ ∀ wordMatch ls s, Run (Step wordMatch) osCreateRuleList ls s → s.Sorted := by
  intro h
  have hbad : ∃ s ∈ performAll (fun _ _ => false) 10 (fun _ _ => true) osCreateRuleList
    (callsOverwriting 200), ¬ s.Sorted := by decide +kernel
  obtain ⟨s, hs, hbad⟩ := hbad
  exact hbad (h _ _ _ ((run_of_performAll hs).mono fun _ _ _ h => h.1))

end RulesList
