import Mathlib.Data.List.Pairwise
import Mathlib.Data.Finset.Basic
import Mathlib.Data.Finset.Lattice.Lemmas

/-!
# Trees of sibling lists

A node has a label, a list of children and a next sibling, as a tree built from `child` and `next`
pointers has.

- `siblings_insertBefore`, `mem_lists_insertBefore`: what an insertion into the top list changes;
- `Ordered.insertBefore`: where it keeps an order on the sibling lists;
- `mark`: the tree without its new nodes, every other node with whether it has a new child.
-/

open List

/-- A list of sibling nodes, with their subtrees. -/
inductive SiblingTree (α : Type*)
  | nil
  | node (a : α) (child next : SiblingTree α)
  deriving DecidableEq, Repr

namespace SiblingTree

variable {α β : Type*}

/-- The labels of the nodes of the top list. -/
def siblings : SiblingTree α → List α
  | nil => []
  | node a _ next => a :: next.siblings

/-- The labels of all nodes, a node before its subtree and before its next sibling. -/
def labels : SiblingTree α → List α
  | nil => []
  | node a child next => a :: (child.labels ++ next.labels)

/-- The sibling lists below the nodes of the top list. -/
def childLists : SiblingTree α → List (List α)
  | nil => []
  | node _ child next => child.siblings :: (child.childLists ++ next.childLists)

/-- Every sibling list of a tree, the top one first. -/
def lists (t : SiblingTree α) : List (List α) :=
  t.siblings :: t.childLists

def map (f : α → β) : SiblingTree α → SiblingTree β
  | nil => nil
  | node a child next => node (f a) (child.map f) (next.map f)

/-- The sum of a weight over the nodes. -/
def weight (w : α → ℕ) : SiblingTree α → ℕ
  | nil => 0
  | node a child next => w a + (child.weight w + next.weight w)

/-- A new leaf in the top list, before the first label that `p` holds of, or at the end. -/
def insertBefore (p : α → Bool) (x : α) : SiblingTree α → SiblingTree α
  | nil => node x nil nil
  | node a child next =>
    if p a then node x nil (node a child next) else node a child (next.insertBefore p x)

section Basic

variable {p : α → Bool} {x a b : α} {t child next : SiblingTree α} {l : List α}

@[simp] theorem siblings_nil : (nil : SiblingTree α).siblings = [] := rfl

@[simp] theorem siblings_node : (node a child next).siblings = a :: next.siblings := rfl

@[simp] theorem labels_nil : (nil : SiblingTree α).labels = [] := rfl

@[simp] theorem labels_node :
    (node a child next).labels = a :: (child.labels ++ next.labels) := rfl

@[simp] theorem childLists_nil : (nil : SiblingTree α).childLists = [] := rfl

@[simp] theorem childLists_node :
    (node a child next).childLists = child.lists ++ next.childLists := rfl

theorem mem_lists : l ∈ t.lists ↔ l = t.siblings ∨ l ∈ t.childLists := mem_cons

/-- The lists of a node are its own, with its label in front of the rest, and its children's. -/
theorem mem_lists_node : l ∈ (node a child next).lists ↔
    l = a :: next.siblings ∨ l ∈ child.lists ∨ l ∈ next.childLists := by
  rw [mem_lists, siblings_node, childLists_node, mem_append]

theorem mem_labels_of_mem_siblings (h : a ∈ t.siblings) : a ∈ t.labels := by
  induction t with
  | nil => exact h
  | node b child next _ ih =>
    rw [siblings_node, mem_cons] at h
    rw [labels_node, mem_cons, mem_append]
    exact h.imp_right fun h => .inr (ih h)

theorem mem_labels_of_mem_lists (hl : l ∈ t.lists) (h : a ∈ l) : a ∈ t.labels := by
  induction t generalizing l with
  | nil =>
    rw [mem_lists, siblings_nil, childLists_nil] at hl
    rcases hl with rfl | hl
    · exact h
    · cases hl
  | node b child next ihc ihn =>
    rw [labels_node, mem_cons, mem_append]
    rcases mem_lists_node.mp hl with rfl | hl | hl
    · exact (mem_cons.mp h).imp_right fun h => .inr (mem_labels_of_mem_siblings h)
    · exact .inr (.inl (ihc hl h))
    · exact .inr (.inr (ihn (mem_lists.mpr (.inr hl)) h))

theorem map_map {γ : Type*} (f : α → β) (g : β → γ) : (t.map f).map g = t.map (g ∘ f) := by
  induction t with
  | nil => rfl
  | node a child next ihc ihn => rw [map, map, map, ihc, ihn]; rfl

theorem map_congr {f g : α → β} (h : ∀ a ∈ t.labels, f a = g a) : t.map f = t.map g := by
  induction t with
  | nil => rfl
  | node a child next ihc ihn =>
    rw [map, map, h a mem_cons_self, ihc fun b hb => h b (mem_cons_of_mem _ (mem_append_left _ hb)),
      ihn fun b hb => h b (mem_cons_of_mem _ (mem_append_right _ hb))]

/-! ## Insertion into the top list -/

theorem mem_siblings_insertBefore :
    b ∈ (t.insertBefore p x).siblings ↔ b = x ∨ b ∈ t.siblings := by
  induction t with
  | nil => simp [insertBefore]
  | node a child next _ ih =>
    rw [insertBefore]
    split
    · simp
    · rw [siblings_node, siblings_node, mem_cons, ih, mem_cons]
      exact or_left_comm

theorem mem_labels_insertBefore :
    b ∈ (t.insertBefore p x).labels ↔ b = x ∨ b ∈ t.labels := by
  induction t with
  | nil => simp [insertBefore]
  | node a child next _ ih =>
    rw [insertBefore]
    split
    · simp
    · simp only [labels_node, mem_cons, mem_append, ih]
      tauto

theorem insertBefore_ne_nil : t.insertBefore p x ≠ nil := by
  intro h
  have hmem : x ∈ (t.insertBefore p x).siblings := mem_siblings_insertBefore.mpr (.inl rfl)
  rw [h] at hmem
  cases hmem

theorem weight_insertBefore (w : α → ℕ) :
    (t.insertBefore p x).weight w = w x + t.weight w := by
  induction t with
  | nil => simp [insertBefore, weight]
  | node a child next _ ih =>
    rw [insertBefore]
    split
    · simp only [weight]; omega
    · simp only [weight, ih]; omega

end Basic

/-! ## Orders on the sibling lists -/

section Ordered

variable {r : α → α → Prop} {p : α → Bool} {x : α} {t : SiblingTree α}

/-- Every sibling list is in the order `r`. -/
def Ordered (r : α → α → Prop) (t : SiblingTree α) : Prop :=
  ∀ l ∈ t.lists, l.Pairwise r

theorem ordered_nil : Ordered r (nil : SiblingTree α) := by
  intro l hl
  rcases mem_lists.mp hl with rfl | hl
  · exact List.Pairwise.nil
  · cases hl

theorem ordered_node {a : α} {child next : SiblingTree α} : Ordered r (node a child next) ↔
    (∀ b ∈ next.siblings, r a b) ∧ Ordered r child ∧ Ordered r next := by
  constructor
  · intro h
    have htop := pairwise_cons.mp (h _ (mem_lists_node.mpr (.inl rfl)))
    refine ⟨htop.1, fun l hl => h l (mem_lists_node.mpr (.inr (.inl hl))), fun l hl => ?_⟩
    rcases mem_lists.mp hl with rfl | hl
    · exact htop.2
    · exact h l (mem_lists_node.mpr (.inr (.inr hl)))
  · rintro ⟨htop, hc, hn⟩ l hl
    rcases mem_lists_node.mp hl with rfl | hl | hl
    · exact pairwise_cons.mpr ⟨htop, hn _ (mem_lists.mpr (.inl rfl))⟩
    · exact hc l hl
    · exact hn l (mem_lists.mpr (.inr hl))

/-- The insertion keeps the order when the new label comes before the labels that `p` holds of
and what they come before, and after all the others. -/
theorem Ordered.insertBefore (h : Ordered r t)
    (hp : ∀ a ∈ t.labels, p a → r x a ∧ ∀ b ∈ t.labels, r a b → r x b)
    (hn : ∀ a ∈ t.labels, ¬ p a → r a x) :
    Ordered r (t.insertBefore p x) := by
  induction t with
  | nil => exact ordered_node.mpr ⟨by simp, ordered_nil, ordered_nil⟩
  | node a child next _ ih =>
    obtain ⟨htop, hc, hnext⟩ := ordered_node.mp h
    have hsub : ∀ b ∈ next.labels, b ∈ (node a child next).labels := fun b hb =>
      mem_cons_of_mem _ (mem_append_right _ hb)
    rw [SiblingTree.insertBefore]
    split
    case isTrue ha =>
      refine ordered_node.mpr ⟨fun b hb => ?_, ordered_nil, h⟩
      obtain ⟨hxa, htrans⟩ := hp a mem_cons_self ha
      rcases mem_cons.mp hb with rfl | hb
      · exact hxa
      · exact htrans b (hsub b (mem_labels_of_mem_siblings hb)) (htop b hb)
    case isFalse ha =>
      refine ordered_node.mpr ⟨fun b hb => ?_, hc, ih hnext ?_ ?_⟩
      · rcases mem_siblings_insertBefore.mp hb with rfl | hb
        · exact hn a mem_cons_self ha
        · exact htop b hb
      · intro b hb hpb
        obtain ⟨hxb, htrans⟩ := hp b (hsub b hb) hpb
        exact ⟨hxb, fun c hcl => htrans c (hsub c hcl)⟩
      · exact fun b hb => hn b (hsub b hb)

end Ordered

/-! ## New nodes -/

section Mark

variable {new : α → Bool} {p : α → Bool} {x : α} {t : SiblingTree α}

/-- The tree without its new nodes, and for every other node whether it has a new child. -/
def mark (new : α → Bool) : SiblingTree α → SiblingTree (α × Bool)
  | nil => nil
  | node a child next =>
    if new a then next.mark new
    else node (a, child.siblings.any new) (child.mark new) (next.mark new)

/-- No new node has children. -/
def NewLeaves (new : α → Bool) : SiblingTree α → Prop
  | nil => True
  | node a child next => (new a → child = nil) ∧ NewLeaves new child ∧ NewLeaves new next

theorem mark_insertBefore (hx : new x) : (t.insertBefore p x).mark new = t.mark new := by
  induction t with
  | nil => simp [insertBefore, mark, hx]
  | node a child next _ ih =>
    rw [insertBefore]
    split
    · rw [mark, if_pos hx]
    · rw [mark, mark, ih]

theorem any_siblings_insertBefore (hx : new x) : (t.insertBefore p x).siblings.any new = true :=
  any_eq_true.mpr ⟨x, mem_siblings_insertBefore.mpr (.inl rfl), hx⟩

theorem newLeaves_insertBefore :
    NewLeaves new (t.insertBefore p x) ↔ NewLeaves new t := by
  induction t with
  | nil => simp [insertBefore, NewLeaves]
  | node a child next _ ih =>
    rw [insertBefore]
    split
    · simp [NewLeaves]
    · rw [NewLeaves, NewLeaves, ih]

theorem mark_of_forall_not (h : ∀ a ∈ t.labels, new a = false) :
    t.mark new = t.map fun a => (a, false) := by
  induction t with
  | nil => rfl
  | node a child next ihc ihn =>
    have hc : ∀ b ∈ child.labels, new b = false := fun b hb =>
      h b (mem_cons_of_mem _ (mem_append_left _ hb))
    have hn : ∀ b ∈ next.labels, new b = false := fun b hb =>
      h b (mem_cons_of_mem _ (mem_append_right _ hb))
    have hany : child.siblings.any new = false := any_eq_false.mpr fun b hb =>
      Bool.not_eq_true _ ▸ hc b (mem_labels_of_mem_siblings hb)
    rw [mark, if_neg (by rw [h a mem_cons_self]; decide), hany, ihc hc, ihn hn, map]

theorem newLeaves_of_forall_not (h : ∀ a ∈ t.labels, new a = false) : NewLeaves new t := by
  induction t with
  | nil => trivial
  | node a child next ihc ihn =>
    refine ⟨fun ha => ?_, ihc fun b hb => ?_, ihn fun b hb => ?_⟩
    · rw [h a mem_cons_self] at ha
      cases ha
    · exact h b (mem_cons_of_mem _ (mem_append_left _ hb))
    · exact h b (mem_cons_of_mem _ (mem_append_right _ hb))

end Mark

/-! ## Searches that stop at the first node of a list -/

section Search

variable {ι : Type*} [DecidableEq ι] {key : α → ι} {t : SiblingTree α}

/-- Mark every node that `p` holds of. -/
def markAll (p : α → Bool) : SiblingTree (α × Bool) → SiblingTree (α × Bool) :=
  map fun a => (a.1, a.2 || p a.1)

/-- In a sibling list, mark the first node with the key, and go no further in that list; the
subtrees of the nodes before it are searched first. -/
def markFirst (key : α → ι) (i : ι) : SiblingTree (α × Bool) → SiblingTree (α × Bool)
  | nil => nil
  | node a child next =>
    if key a.1 = i then node (a.1, true) child next
    else node a (child.markFirst key i) (next.markFirst key i)

/-- Behind the first node with the key in a sibling list, neither in its subtree nor in its later
siblings and theirs, there is another node with the key. -/
def Exposed (key : α → ι) (i : ι) : SiblingTree α → Prop
  | nil => True
  | node a child next =>
    if key a = i then ∀ b ∈ child.labels ++ next.labels, key b ≠ i
    else Exposed key i child ∧ Exposed key i next

instance decidableExposed (key : α → ι) (i : ι) : (t : SiblingTree α) → Decidable (Exposed key i t)
  | nil => .isTrue trivial
  | node a child next =>
    have := decidableExposed key i child
    have := decidableExposed key i next
    if h : key a = i then decidable_of_iff _ (by rw [Exposed, if_pos h])
    else decidable_of_iff _ (by rw [Exposed, if_neg h])

/-- The marks of one search for each of the keys. -/
def markFirsts (key : α → ι) (s : Finset ι) : SiblingTree α → SiblingTree (α × Bool)
  | nil => nil
  | node a child next =>
    node (a, decide (key a ∈ s)) (child.markFirsts key (s.erase (key a)))
      (next.markFirsts key (s.erase (key a)))

theorem markFirsts_empty : t.markFirsts key ∅ = t.map fun a => (a, false) := by
  induction t with
  | nil => rfl
  | node a child next ihc ihn => rw [markFirsts, Finset.erase_empty, ihc, ihn]; rfl

theorem markFirst_markFirsts (i : ι) (s : Finset ι) :
    (t.markFirsts key s).markFirst key i = t.markFirsts key (insert i s) := by
  induction t generalizing s with
  | nil => rfl
  | node a child next ihc ihn =>
    rw [markFirsts, markFirst, markFirsts]
    by_cases ha : key a = i
    · subst ha
      rw [if_pos rfl, Finset.erase_insert_eq_erase, decide_eq_true (Finset.mem_insert_self _ s)]
    · rw [if_neg ha, ihc, ihn, Finset.erase_insert_of_ne (Ne.symm ha)]
      have hmem : key a ∈ insert i s ↔ key a ∈ s := by rw [Finset.mem_insert, or_iff_right ha]
      rw [decide_eq_decide.mpr hmem]

theorem foldl_markFirst (l : List ι) (s : Finset ι) :
    l.foldl (fun m i => m.markFirst key i) (t.markFirsts key s) =
      t.markFirsts key (l.toFinset ∪ s) := by
  induction l generalizing s with
  | nil => simp
  | cons i l ih =>
    rw [foldl_cons, markFirst_markFirsts, ih, toFinset_cons, Finset.insert_union,
      Finset.union_insert]

theorem mem_of_markFirsts_eq_map {s : Finset ι} {f : α → Bool}
    (h : t.markFirsts key s = t.map fun a => (a, f a)) : ∀ a ∈ t.labels, f a → key a ∈ s := by
  induction t generalizing s with
  | nil => exact fun _ ha => absurd ha not_mem_nil
  | node a child next ihc ihn =>
    obtain ⟨ha, hc, hn⟩ := node.inj h
    intro b hb hfb
    rw [labels_node, mem_cons, mem_append] at hb
    rcases hb with rfl | hb | hb
    · exact of_decide_eq_true ((congrArg Prod.snd ha).trans hfb)
    · exact Finset.mem_of_mem_erase (ihc hc b hb hfb)
    · exact Finset.mem_of_mem_erase (ihn hn b hb hfb)

theorem Exposed.congr {key' : α → ι} (i : ι) (h : ∀ a ∈ t.labels, key a = key' a) :
    Exposed key i t ↔ Exposed key' i t := by
  induction t with
  | nil => exact Iff.rfl
  | node a child next ihc ihn =>
    have hc : ∀ b ∈ child.labels, key b = key' b := fun b hb =>
      h b (mem_cons_of_mem _ (mem_append_left _ hb))
    have hn : ∀ b ∈ next.labels, key b = key' b := fun b hb =>
      h b (mem_cons_of_mem _ (mem_append_right _ hb))
    rw [Exposed, Exposed, h a mem_cons_self, ihc hc, ihn hn]
    split
    · refine forall₂_congr fun b hb => ?_
      rw [h b (mem_cons_of_mem _ hb)]
    · exact Iff.rfl

/-- One search for each of the keys marks all the nodes with these keys exactly if no node hides
another one from them. -/
theorem markFirsts_eq_map_iff {s : Finset ι} :
    (t.markFirsts key s = t.map fun a => (a, decide (key a ∈ s))) ↔ ∀ i ∈ s, Exposed key i t := by
  induction t generalizing s with
  | nil => simp [markFirsts, map, Exposed]
  | node a child next ihc ihn =>
    -- where no node has the key of `a`, the keys without it mark what all of the keys should
    have hrest : ∀ u : SiblingTree α,
        (u.markFirsts key (s.erase (key a)) = u.map fun b => (b, decide (key b ∈ s))) ↔
          (key a ∈ s → ∀ b ∈ u.labels, key b ≠ key a) ∧
            u.markFirsts key (s.erase (key a)) =
              u.map fun b => (b, decide (key b ∈ s.erase (key a))) := by
      intro u
      constructor
      · intro h
        have hsub := mem_of_markFirsts_eq_map h
        refine ⟨fun ha b hb hba => ?_, h.trans (map_congr fun b hb => ?_)⟩
        · exact Finset.ne_of_mem_erase (hsub b hb (decide_eq_true (hba ▸ ha))) hba
        · rw [decide_eq_decide.mpr]
          exact ⟨fun hbs => hsub b hb (decide_eq_true hbs), Finset.mem_of_mem_erase⟩
      · rintro ⟨hne, h⟩
        refine h.trans (map_congr fun b hb => ?_)
        rw [decide_eq_decide.mpr]
        refine ⟨Finset.mem_of_mem_erase, fun hbs => Finset.mem_erase.mpr ⟨fun hba => ?_, hbs⟩⟩
        exact hne (hba ▸ hbs) b hb hba
    rw [markFirsts, map, node.injEq, hrest, hrest, ihc, ihn]
    constructor
    · rintro ⟨-, ⟨hac, hc⟩, han, hn⟩ i hi
      rw [Exposed]
      split
      case isTrue hai =>
        subst hai
        intro b hb
        exact (mem_append.mp hb).elim (hac hi b) (han hi b)
      case isFalse hai =>
        have hi' := Finset.mem_erase.mpr ⟨Ne.symm hai, hi⟩
        exact ⟨hc i hi', hn i hi'⟩
    · intro h
      have hne : key a ∈ s → ∀ b ∈ child.labels ++ next.labels, key b ≠ key a := fun ha => by
        have := h _ ha
        rwa [Exposed, if_pos rfl] at this
      have hexp : ∀ i ∈ s.erase (key a), Exposed key i child ∧ Exposed key i next := fun i hi => by
        have := h i (Finset.mem_of_mem_erase hi)
        rwa [Exposed, if_neg (Finset.ne_of_mem_erase hi).symm] at this
      refine ⟨rfl, ⟨fun ha b hb => hne ha b (mem_append_left _ hb), fun i hi => (hexp i hi).1⟩,
        fun ha b hb => hne ha b (mem_append_right _ hb), fun i hi => (hexp i hi).2⟩

end Search

end SiblingTree
