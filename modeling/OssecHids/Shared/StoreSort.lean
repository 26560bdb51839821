import OssecHids.Lib.StableSort
import OssecHids.Shared.Store

/-!
# Sorting a store

`OSStore_Sort` moves each node to the front, past those that the callback puts it before, while the
loop goes through the nodes.

- `Holds.sortStep`: what is done with a node, when those in front of it are in order;
- `Holds.sort`: the nodes are those of an insertion from the back;
- `sorted_of_sort`: what is left is in order, and equal nodes are where they were.
-/

open CString DoublyLinked StableSort List Option

namespace OSStore

variable {α : Type}

/-- `sort_data_function(cur_node->data, movenode->data)` -/
def before (f : Option α → Option α → Bool) (c d : ℕ × StoreNode α) : Bool := f c.2.data d.2.data

/-- How `OSStore_Sort` takes a node out of the list. -/
def detach (list : OSStore α) (cur : Cell ℕ (StoreNode α)) : Option (OSStore α) :=
  (setNextOf list.heap cur.prev cur.next).bind fun heap =>
    (setPrevOf heap cur.next cur.prev).map fun heap =>
      { list with
        heap
        last_node := if cur.next = none then cur.prev else list.last_node }

/-- How `OSStore_Sort` puts a node behind `movenode`. -/
def moveBehind (list : OSStore α) (newnode movenode : ℕ) : Option (OSStore α) :=
  (list.heap movenode).bind fun move =>
    (setNext list.heap newnode move.next).bind fun heap =>
      (setPrev heap newnode (some movenode)).bind fun heap =>
        (setPrevOf heap move.next (some newnode)).bind fun heap =>
          (setNext heap movenode (some newnode)).map fun heap => { list with heap }

/-- How `OSStore_Sort` puts a node in front of all others. -/
def moveFirst (list : OSStore α) (newnode : ℕ) : Option (OSStore α) :=
  (setPrev list.heap newnode none).bind fun heap =>
    (setNext heap newnode list.first_node).bind fun heap =>
      list.first_node.bind fun first_node =>
        (setPrev heap first_node (some newnode)).map fun heap =>
          { list with heap, first_node := some newnode }

/-- A round of the loop of `OSStore_Sort`: the list, and the node of the next round. -/
def sortStep (f : Option α → Option α → Bool) (list : OSStore α) (cur_node : ℕ) :
    Option (OSStore α × Option ℕ) :=
  (list.heap cur_node).bind fun cur =>
    (seekBack list.heap (fun move => !f cur.data.data move.data) list.currently_size cur.prev).bind
      fun movenode =>
        match movenode with
        | some movenode =>
          -- this node should stay where it is
          if cur.prev = some movenode then some (list, cur.next)
          else
            (list.detach cur).bind fun list =>
              (list.moveBehind cur_node movenode).bind fun list =>
                cur.prev.bind fun prev => (list.heap prev).map fun prev => (list, prev.next)
        | none =>
          if list.first_node = some cur_node then some (list, cur.next)
          else
            (list.detach cur).bind fun list =>
              match cur.prev with
              | none => some (list, none)
              | some prev =>
                (list.moveFirst cur_node).bind fun list =>
                  (list.heap prev).map fun prev => (list, prev.next)

/-- The loop of `OSStore_Sort`. -/
def sortLoop (f : Option α → Option α → Bool) :
    ℕ → OSStore α → Option ℕ → Option (OSStore α)
  | _, list, none => some list
  | 0, _, some _ => none
  | fuel + 1, list, some cur_node =>
    (list.sortStep f cur_node).bind fun (list, cur_node) => sortLoop f fuel list cur_node

/-- `OSStore_Sort` -/
def sort (list : OSStore α) (f : Option α → Option α → Bool) : Option (OSStore α) :=
  sortLoop f list.currently_size list list.first_node

variable {list list' : OSStore α} {nodes l₁ l₂ : List (ℕ × StoreNode α)} {c : ℕ × StoreNode α}
  {f : Option α → Option α → Bool}

theorem Holds.detach (h : list.Holds (l₁ ++ c :: l₂)) :
    ∃ list', list.detach ⟨lastOr l₁ none, firstOr l₂ none, c.2⟩ = some list' ∧
      list'.heap c.1 = some ⟨lastOr l₁ none, firstOr l₂ none, c.2⟩ ∧
      Linked list'.heap none (l₁ ++ l₂) none ∧
      (∀ s, list'.heap s = none ↔ list.heap s = none) ∧
      list'.first_node = list.first_node ∧ list'.last_node = lastOr (l₁ ++ l₂) none ∧
      list'.currently_size = list.currently_size := by
  obtain ⟨r, a⟩ := c
  obtain ⟨heap₁, heap₂, hset₁, hset₂, hnone, hcell, hlinked⟩ := h.linked.detach
  have hcell₀ := (linked_append.mp h.linked).2.1
  refine ⟨{ list with
    heap := heap₂
    last_node := if firstOr l₂ none = none then lastOr l₁ none else list.last_node },
    ?_, hcell.trans hcell₀, hlinked, hnone, rfl, ?_, rfl⟩
  · rw [OSStore.detach]
    rw [hset₁, bind_some, hset₂]
    rfl
  · dsimp only
    rw [h.last_node, lastOr_append, lastOr_append, lastOr_cons]
    cases l₂ with
    | nil => rfl
    | cons d l₂ => rw [firstOr_cons, if_neg (some_ne_none _), lastOr_cons, lastOr_cons]

/-- A node that is put behind the last node of `l₁` has the rest behind it. -/
theorem moveBehind_eq {newnode movenode : ℕ} {cell : Cell ℕ (StoreNode α)}
    (hlinked : Linked list.heap none (l₁ ++ l₂) none) (hcell : list.heap newnode = some cell)
    (hnew : newnode ∉ (l₁ ++ l₂).map Prod.fst) (hlast : lastOr l₁ none = some movenode) :
    ∃ heap, list.moveBehind newnode movenode = some { list with heap } ∧
      Linked heap none (l₁ ++ (newnode, cell.data) :: l₂) none ∧
      ∀ s, heap s = none ↔ list.heap s = none := by
  obtain ⟨prev, a, hmove⟩ := hlinked.next_of_lastOr hlast
  obtain ⟨heap₁, heap₂, heap₃, heap₄, hset₁, hset₂, hset₃, hset₄, hnone, hlinked'⟩ :=
    hlinked.relink hcell hnew
  refine ⟨heap₄, ?_, hlinked', hnone⟩
  rw [hlast] at hset₂ hset₄
  have hset₄ : setNext heap₃ movenode (some newnode) = some heap₄ := hset₄
  rw [moveBehind, hmove, bind_some]
  rw [hset₁, bind_some, hset₂, bind_some, hset₃, bind_some, hset₄]
  rfl

theorem moveFirst_eq {newnode : ℕ} {cell : Cell ℕ (StoreNode α)}
    (hlinked : Linked list.heap none (c :: nodes) none) (hcell : list.heap newnode = some cell)
    (hnew : newnode ∉ (c :: nodes).map Prod.fst) (hfirst : list.first_node = some c.1) :
    ∃ heap, list.moveFirst newnode = some { list with heap, first_node := some newnode } ∧
      Linked heap none ((newnode, cell.data) :: c :: nodes) none ∧
      ∀ s, heap s = none ↔ list.heap s = none := by
  obtain ⟨s, b⟩ := c
  obtain ⟨heap₁, heap₂, heap₃, hset₁, hset₂, hset₃, hnone, hlinked'⟩ :=
    hlinked.relinkFirst hcell hnew
  refine ⟨heap₃, ?_, hlinked', hnone⟩
  rw [moveFirst, hset₁, bind_some, hfirst, hset₂, bind_some, bind_some, hset₃]
  rfl

theorem Holds.of_perm {nodes' : List (ℕ × StoreNode α)} (h : list.Holds nodes)
    (hlinked : Linked list'.heap none nodes' none)
    (hnone : ∀ s, list'.heap s = none ↔ list.heap s = none) (hperm : nodes'.Perm nodes)
    (hfirst : list'.first_node = firstOr nodes' none)
    (hlast : list'.last_node = lastOr nodes' none)
    (hsize : list'.currently_size = list.currently_size) : list'.Holds nodes' := by
  refine ⟨hlinked, fun r => ?_, hfirst, hlast, ?_⟩
  · rw [hnone, h.inUse, (hperm.map Prod.fst).mem_iff]
  · rw [hsize, h.currently_size, hperm.length_eq]

theorem lastOr_eq_none {l : List (ℕ × StoreNode α)} (h : lastOr l none = none) : l = [] := by
  rcases eq_nil_or_concat' l with rfl | ⟨l, d, rfl⟩
  · rfl
  · rw [lastOr_concat] at h
    exact nomatch h

/-- In the part that a node has passed and the node itself, the last address is the one that was in
front of the node. -/
theorem lastOr_moved {front back : List (ℕ × StoreNode α)} (hback : back ≠ []) :
    lastOr (front ++ c :: back) none = lastOr (front ++ back) none := by
  rcases eq_nil_or_concat' back with rfl | ⟨l, d, rfl⟩
  · exact absurd rfl hback
  · rw [← cons_append, ← append_assoc, ← append_assoc, lastOr_concat, lastOr_concat]

/-- What a round does with a node. -/
theorem Holds.sortStep (h : list.Holds (l₁ ++ c :: l₂)) (f : Option α → Option α → Bool) :
    ∃ list', list.sortStep f c.1 = some (list', firstOr l₂ none) ∧
      list'.Holds (insertBack (before f) l₁ c ++ l₂) := by
  have hcur : list.heap c.1 = some ⟨lastOr l₁ none, firstOr l₂ none, c.2⟩ :=
    (linked_append.mp h.linked).2.1
  have hfuel : l₁.length ≤ list.currently_size := by
    rw [h.currently_size, length_append]
    exact Nat.le_add_right _ _
  have hstop : (fun d : ℕ × StoreNode α => !(!f c.2.data d.2.data)) = before f c :=
    funext fun d => Bool.not_not _
  have hseek : seekBack list.heap (fun move => !f c.2.data move.data) list.currently_size
      (lastOr l₁ none) = some (lastOr (l₁.rdropWhile (before f c)) none) := by
    rw [← hstop]
    exact seekBack_eq (linked_append.mp h.linked).1 hfuel
  rw [OSStore.sortStep, hcur, bind_some]
  rw [hseek, bind_some, insertBack]
  -- `back` is what the node passes
  have hsplit : l₁.rdropWhile (before f c) ++ l₁.rtakeWhile (before f c) = l₁ :=
    rdropWhile_append_rtakeWhile
  generalize l₁.rdropWhile (before f c) = front at *
  generalize l₁.rtakeWhile (before f c) = back at *
  subst hsplit
  have hperm : (front ++ c :: (back ++ l₂)).Perm (front ++ back ++ c :: l₂) := by
    rw [append_assoc]
    exact List.Perm.append_left front perm_middle.symm
  have hc : c.1 ∉ (front ++ (back ++ l₂)).map Prod.fst := by
    obtain ⟨hr₁, hr₂, -⟩ := h.linked.notMem
    rw [← append_assoc, map_append, mem_append, not_or]
    exact ⟨hr₁, hr₂⟩
  cases back with
  | nil =>
    -- the node stays where it is
    rw [append_nil] at h
    rw [append_nil, append_assoc]
    refine ⟨list, ?_, h⟩
    cases hlast : lastOr front none with
    | some movenode =>
      dsimp only
      rw [if_pos rfl]
    | none =>
      obtain rfl := lastOr_eq_none hlast
      have hfirst : list.first_node = some c.1 := h.first_node
      rw [if_pos hfirst]
  | cons d back =>
    obtain ⟨list₁, hdetach, hcell, hlinked, hnone, hfirst, hlast, hsize⟩ := h.detach
    obtain ⟨prev, hprev⟩ : ∃ prev, lastOr (front ++ d :: back) none = some prev := by
      rw [← ne_none_iff_exists']
      intro hnil
      exact append_ne_nil_of_right_ne_nil _ (cons_ne_nil _ _) (lastOr_eq_none hnil)
    have hmoved := @lastOr_moved _ c front (d :: back) (cons_ne_nil _ _)
    rw [append_assoc] at hlinked
    -- what the loop goes on with
    have hnext : ∀ heap : Heap ℕ (StoreNode α),
        Linked heap none (front ++ c :: (d :: back ++ l₂)) none →
        ∃ p a, heap prev = some ⟨p, firstOr l₂ none, a⟩ := by
      intro heap hlinked'
      rw [← cons_append, ← append_assoc] at hlinked'
      exact hlinked'.next_of_lastOr (hmoved.trans hprev)
    have hlast' : lastOr (front ++ c :: (d :: back ++ l₂)) none = list₁.last_node := by
      rw [hlast, ← cons_append, ← append_assoc, lastOr_append, hmoved, ← lastOr_append]
    cases hmove : lastOr front none with
    | some movenode =>
      dsimp only
      have hne : lastOr (front ++ d :: back) none ≠ some movenode := by
        intro hsame
        rw [lastOr_append, lastOr_cons, ← lastOr_cons (p := none)] at hsame
        have hnodup := h.linked.nodup
        rw [map_append, map_append, append_assoc] at hnodup
        exact (nodup_append'.mp hnodup).2.2 (mem_of_lastOr hmove)
          (mem_append_left _ (mem_of_lastOr hsame))
      rw [if_neg hne, hdetach, bind_some]
      obtain ⟨heap, heq, hlinked', hnone'⟩ := moveBehind_eq hlinked hcell hc hmove
      obtain ⟨p, a, hcellprev⟩ := hnext heap hlinked'
      rw [heq, bind_some, hprev, bind_some]
      dsimp only
      rw [hcellprev]
      refine ⟨_, rfl, ?_⟩
      rw [append_assoc, cons_append]
      refine h.of_perm hlinked' (fun s => (hnone' s).trans (hnone s)) hperm ?_ hlast'.symm hsize
      rw [hfirst, h.first_node]
      cases front with
      | nil => cases hmove
      | cons e front => rfl
    | none =>
      obtain rfl := lastOr_eq_none hmove
      have hfirst₁ : list₁.first_node = some d.1 := hfirst.trans h.first_node
      have hne : list.first_node ≠ some c.1 := by
        rw [← hfirst, hfirst₁]
        intro hsame
        exact hc (mem_map.mpr ⟨d, mem_cons_self, some.inj hsame⟩)
      rw [if_neg hne, hdetach, bind_some]
      obtain ⟨heap, heq, hlinked', hnone'⟩ := moveFirst_eq hlinked hcell hc hfirst₁
      obtain ⟨p, a, hcellprev⟩ := hnext heap hlinked'
      rw [hprev]
      dsimp only
      rw [heq, bind_some]
      dsimp only
      rw [hcellprev]
      exact ⟨_, rfl, h.of_perm hlinked' (fun s => (hnone' s).trans (hnone s)) hperm rfl hlast'.symm
        hsize⟩

/-- The loop puts the nodes one by one behind those that are in order. -/
theorem Holds.sortLoop (f : Option α → Option α → Bool) {fuel : ℕ} (hfuel : l₂.length ≤ fuel)
    (h : list.Holds (l₁ ++ l₂)) :
    ∃ list', sortLoop f fuel list (firstOr l₂ none) = some list' ∧
      list'.Holds (l₂.foldl (insertBack (before f)) l₁) := by
  induction l₂ generalizing list l₁ fuel with
  | nil =>
    rw [append_nil] at h
    refine ⟨list, ?_, h⟩
    cases fuel <;> rfl
  | cons c l₂ ih =>
    obtain ⟨fuel, rfl⟩ := Nat.exists_eq_add_one.mpr (Nat.zero_lt_of_lt hfuel)
    obtain ⟨list₁, hstep, h₁⟩ := h.sortStep f
    obtain ⟨list', hloop, h'⟩ := ih (Nat.le_of_succ_le_succ hfuel) h₁
    refine ⟨list', ?_, h'⟩
    change OSStore.sortLoop f (fuel + 1) list (some c.1) = _
    rw [OSStore.sortLoop, hstep, bind_some]
    exact hloop

theorem Holds.sort (h : list.Holds nodes) (f : Option α → Option α → Bool) :
    ∃ list', list.sort f = some list' ∧ list'.Holds (sortBack (before f) nodes) := by
  rw [OSStore.sort, h.first_node]
  exact @Holds.sortLoop _ list [] nodes f list.currently_size (le_of_eq h.currently_size.symm) h

instance strictWeakOrder_before [h : IsStrictWeakOrder (Option α) fun c d => f c d = true] :
    IsStrictWeakOrder (ℕ × StoreNode α) fun c d => before f c d = true where
  irrefl c := h.irrefl c.2.data
  trans c d e := h.trans c.2.data d.2.data e.2.data
  incomp_trans c d e := h.incomp_trans c.2.data d.2.data e.2.data

/-- For a callback that is a strict weak order, `OSStore_Sort` ends; the list has the same nodes as
before, none of them is before one in front of it, and nodes of which none is before the other are
in the same order as before. -/
theorem sorted_of_sort [IsStrictWeakOrder (Option α) fun c d => f c d = true]
    (h : list.Holds nodes) :
    ∃ list' nodes', list.sort f = some list' ∧ list'.Holds nodes' ∧ nodes'.Perm nodes ∧
      nodes'.Pairwise (fun c d => f d.2.data c.2.data = false) ∧
      ∀ c, nodes'.filter (Equal (before f) c) = nodes.filter (Equal (before f) c) := by
  obtain ⟨list', heq, h'⟩ := h.sort f
  have hpairwise : (sortBack (before f) nodes).Pairwise fun c d => before f d c = false :=
    pairwise_sortBack nodes
  exact ⟨list', _, heq, h', perm_sortBack nodes, hpairwise, filter_sortBack nodes⟩

/-- A callback that puts the greater counter first. -/
def greater (c d : Option ℕ) : Bool := d.getD 0 < c.getD 0

instance strictWeakOrder_greater : IsStrictWeakOrder (Option ℕ) fun c d => greater c d = true where
  irrefl c := by simp [greater]
  trans c d e := by
    simp only [greater, decide_eq_true_eq]
    omega
  incomp_trans c d e := by
    simp only [greater, decide_eq_true_eq]
    omega

/-- A store of two nodes. -/
def two (c d : StoreNode ℕ) : OSStore ℕ where
  first_node := some 0
  last_node := some 1
  currently_size := 2
  heap := fun r => if r = 0 then some ⟨none, some 1, c⟩ else
    if r = 1 then some ⟨some 0, none, d⟩ else none

theorem holds_two (c d : StoreNode ℕ) : (two c d).Holds [(0, c), (1, d)] := by
  refine ⟨⟨rfl, rfl, trivial⟩, fun r => ?_, rfl, rfl, rfl⟩
  simp only [two, map_cons, map_nil, mem_cons, not_mem_nil, or_false, not_or]
  split_ifs <;> simp_all

/-- The second of two nodes moves in front of the first. -/
theorem sorted_of_sort_two :
    ∃ list' nodes', (two ⟨lit "a", 1, some 3⟩ ⟨lit "b", 1, some 5⟩).sort greater = some list' ∧
      list'.Holds nodes' ∧ nodes'.Perm [(0, ⟨lit "a", 1, some 3⟩), (1, ⟨lit "b", 1, some 5⟩)] ∧
      nodes'.Pairwise fun c d => greater d.2.data c.2.data = false := by
  obtain ⟨list', nodes', heq, hholds, hperm, hpairwise, -⟩ := @sorted_of_sort ℕ _ _ greater _
    (holds_two ⟨lit "a", 1, some 3⟩ ⟨lit "b", 1, some 5⟩)
  exact ⟨list', nodes', heq, hholds, hperm, hpairwise⟩

end OSStore
