import OssecHids.Lib.DoublyLinked
import OssecHids.Lib.Transition
import OssecHids.Shared.ListOp

/-!
# The nodes of a list

`list_op.c`, with the pointers that it sets. Each function says which nodes it frees and what it
calls the callback with; it has no result where it follows a pointer to a node that is not in use.

- `Pointers.Holds`: the nodes that the pointers lead to, in order;
- `Pointers.WellFormed`: the counter, the cursor and the maximum fit to these;
- `wellFormed_of_run`: which calls keep a list so.
-/

open DoublyLinked Transition List Option Function

namespace OSList

variable {α : Type}

/-- What happens to a node and to its data. -/
inductive Event (α : Type)
  | freeData (data : α)
  | free (node : ℕ)
  deriving DecidableEq, Repr

/-- `OSList` with the memory of its nodes -/
structure Pointers (α : Type) where
  first_node : Option ℕ := none
  last_node : Option ℕ := none
  cur_node : Option ℕ := none
  currently_size : Int32 := 0
  max_size : Int32 := 0
  /-- Whether there is a `free_data_function`. -/
  free_data_function : Bool := false
  heap : Heap ℕ α := fun _ => none
  events : List (Event α) := []

namespace Pointers

/-! ## Functions -/

/-- `OSList_SetMaxSize` -/
def setMaxSize (list : Pointers α) (max_size : Int32) : ℕ × Pointers α :=
  if max_size ≤ 1 then (0, list) else (1, { list with max_size := max_size })

/-- `OSList_SetFreeDataPointer` -/
def setFreeDataPointer (list : Pointers α) : ℕ × Pointers α :=
  (1, { list with free_data_function := true })

/-- `OSList_GetFirstNode` -/
def getFirstNode (list : Pointers α) : Option ℕ × Pointers α :=
  (list.first_node, { list with cur_node := list.first_node })

/-- `OSList_GetLastNode` -/
def getLastNode (list : Pointers α) : Option ℕ × Pointers α :=
  (list.last_node, { list with cur_node := list.last_node })

/-- A move of the cursor along one of the links. -/
def moveCursor (list : Pointers α) (link : Cell ℕ α → Option ℕ) : Option (Option ℕ × Pointers α) :=
  match list.cur_node with
  | none => some (none, list)
  | some cur => (list.heap cur).map fun node => (link node, { list with cur_node := link node })

/-- `OSList_GetNextNode` -/
def getNextNode (list : Pointers α) : Option (Option ℕ × Pointers α) := list.moveCursor Cell.next

/-- `OSList_GetPrevNode` -/
def getPrevNode (list : Pointers α) : Option (Option ℕ × Pointers α) := list.moveCursor Cell.prev

/-- `OSList_DeleteOldestNode` -/
def deleteOldestNode (list : Pointers α) : Option (Pointers α) :=
  match list.first_node with
  | none => some list
  | some first =>
    (list.heap first).bind fun node =>
      match node.next with
      | some next =>
        (setPrev list.heap next none).map fun heap =>
          { list with
            heap := free heap first
            first_node := some next
            events := list.events ++ [.free first] }
      | none =>
        some { list with
          last_node := none
          heap := free list.heap first
          first_node := none
          events := list.events ++ [.free first] }

/-- How `OSList_DeleteThisNode` sets the previous node of the next one and the next node of the
previous one. -/
def bypass (list : Pointers α) (node : Cell ℕ α) : Option (Pointers α) :=
  match node.prev, node.next with
  | some prev, some next =>
    (setNext list.heap prev (some next)).bind fun heap =>
      (setPrev heap next (some prev)).map fun heap => { list with heap }
  | some prev, none =>
    (setNext list.heap prev none).map fun heap => { list with heap, last_node := some prev }
  | none, some next =>
    (setPrev list.heap next none).map fun heap => { list with heap, first_node := some next }
  | none, none => some { list with last_node := none, first_node := none }

/-- `OSList_DeleteThisNode` -/
def deleteThisNode (list : Pointers α) : Option ℕ → Option (Pointers α)
  | none => some list
  | some thisnode =>
    (list.heap thisnode).bind fun node =>
      (list.bypass node).map fun list =>
        { list with
          heap := free list.heap thisnode
          cur_node := node.next
          currently_size := list.currently_size - 1
          events := list.events ++ [.free thisnode] }

/-- `OSList_DeleteCurrentlyNode` -/
def deleteCurrentlyNode (list : Pointers α) : Option (Pointers α) :=
  list.deleteThisNode list.cur_node

/-- What `OSList_AddData` does to the oldest node and to its data. -/
def evicted (list : Pointers α) (first : ℕ) (data : α) : List (Event α) :=
  (if list.free_data_function then [.freeData data] else []) ++ [.free first]

/-- How `OSList_AddData` removes the oldest node, if there is another one. -/
def evict (list : Pointers α) : Option (Pointers α) :=
  list.first_node.bind fun first =>
    (list.heap first).bind fun node =>
      match node.next with
      | none => some list
      | some next =>
        (setPrev list.heap next none).map fun heap =>
          { list with
            heap := free heap first
            first_node := some next
            currently_size := list.currently_size - 1
            events := list.events ++ list.evicted first node.data }

/-- `OSList_AddData`, with the memory for the node, if there is any. -/
def addData (list : Pointers α) (data : α) : Option ℕ → Option (ℕ × Pointers α)
  | none => some (0, list)
  | some newnode =>
    let heap := Function.update list.heap newnode (some ⟨list.last_node, none, data⟩)
    (setNextOf heap list.last_node (some newnode)).bind fun heap =>
      let list :=
        { list with
          heap
          first_node := list.first_node.or (some newnode)
          last_node := some newnode
          currently_size := list.currently_size + 1 }
      if list.max_size ≠ 0 ∧ list.currently_size > list.max_size then
        list.evict.map fun list => (1, list)
      else some (1, list)

/-! ## Calls -/

inductive Call (α : Type)
  | addData (data : α) (newnode : Option ℕ)
  | deleteCurrentlyNode
  | deleteOldestNode
  | deleteThisNode (thisnode : Option ℕ)
  | getFirstNode
  | getLastNode
  | getNextNode
  | getPrevNode

/-- What a call makes of a list. -/
def call (list : Pointers α) : Call α → Option (Pointers α)
  | .addData data newnode => (list.addData data newnode).map Prod.snd
  | .deleteCurrentlyNode => list.deleteCurrentlyNode
  | .deleteOldestNode => list.deleteOldestNode
  | .deleteThisNode thisnode => list.deleteThisNode thisnode
  | .getFirstNode => some list.getFirstNode.2
  | .getLastNode => some list.getLastNode.2
  | .getNextNode => list.getNextNode.map Prod.snd
  | .getPrevNode => list.getPrevNode.map Prod.snd

/-- New memory is not in use, and a node to delete is. -/
def Valid (list : Pointers α) : Call α → Prop
  | .addData _ (some newnode) => list.heap newnode = none
  | .deleteThisNode (some thisnode) => list.heap thisnode ≠ none
  | _ => True

/-- A call that keeps a list well formed: the oldest node is not deleted by itself, the counter has
room for another node, and the cursor is not on a node that gives way to the new one. -/
def Safe (list : Pointers α) : Call α → Prop
  | .addData _ (some _) =>
    list.currently_size ≠ Int32.maxValue ∧
      (list.max_size ≠ 0 ∧ list.currently_size = list.max_size →
        list.cur_node ≠ list.first_node)
  | .deleteOldestNode => list.first_node = none
  | _ => True

/-! ## Lists -/

/-- The pointers lead to these nodes, in both directions, and no other node is in use. -/
structure Holds (list : Pointers α) (nodes : List (ℕ × α)) : Prop where
  linked : Linked list.heap none nodes none
  inUse : ∀ r, list.heap r = none ↔ r ∉ nodes.map Prod.fst
  first_node : list.first_node = firstOr nodes none
  last_node : list.last_node = lastOr nodes none

/-- The counter, the cursor and the maximum fit to the nodes. -/
structure WellFormed (list : Pointers α) (nodes : List (ℕ × α)) : Prop extends
    Holds list nodes where
  currently_size : list.currently_size.toInt = nodes.length
  cur_node : ∀ r, list.cur_node = some r → r ∈ nodes.map Prod.fst
  max_size : list.max_size = 0 ∨ 2 ≤ list.max_size.toInt ∧ nodes.length ≤ list.max_size.toInt

variable {list list' : Pointers α} {nodes nodes' l₁ l₂ : List (ℕ × α)} {r : ℕ} {a : α}

theorem Holds.unique (h : list.Holds nodes) (h' : list.Holds nodes') : nodes = nodes' :=
  h.linked.unique h'.linked (h.first_node.symm.trans h'.first_node)

theorem Holds.exists_cell (h : list.Holds nodes) (hr : r ∈ nodes.map Prod.fst) :
    ∃ l₁ a l₂, nodes = l₁ ++ (r, a) :: l₂ ∧
      list.heap r = some ⟨lastOr l₁ none, firstOr l₂ none, a⟩ := by
  obtain ⟨⟨r', a⟩, hc, rfl⟩ := mem_map.mp hr
  obtain ⟨l₁, l₂, rfl⟩ := append_of_mem hc
  exact ⟨l₁, a, l₂, rfl, (linked_append.mp h.linked).2.1⟩

/-! ### The functions on the nodes -/

/-- The four cases of `bypass` set the same two links, where there is a node to set them. -/
theorem bypass_eq {heap₁ heap₂ : Heap ℕ α} {prev next : Option ℕ}
    (hnext : setNextOf list.heap prev next = some heap₁)
    (hprev : setPrevOf heap₁ next prev = some heap₂) :
    list.bypass ⟨prev, next, a⟩ = some { list with
      heap := heap₂
      first_node := if prev = none then next else list.first_node
      last_node := if next = none then prev else list.last_node } := by
  cases prev with
  | none =>
    obtain rfl : list.heap = heap₁ := some.inj hnext
    cases next with
    | none =>
      obtain rfl : list.heap = heap₂ := some.inj hprev
      rfl
    | some next =>
      have hprev : setPrev list.heap next none = some heap₂ := hprev
      simp [bypass, hprev]
  | some prev =>
    have hnext : setNext list.heap prev next = some heap₁ := hnext
    cases next with
    | none =>
      obtain rfl : heap₁ = heap₂ := some.inj hprev
      simp [bypass, hnext]
    | some next =>
      have hprev : setPrev heap₁ next (some prev) = some heap₂ := hprev
      simp [bypass, hnext, hprev]

theorem Holds.inUse_free (h : list.Holds (l₁ ++ (r, a) :: l₂)) {heap : Heap ℕ α}
    (hnone : ∀ s, heap s = none ↔ list.heap s = none) (s : ℕ) :
    free heap r s = none ↔ s ∉ (l₁ ++ l₂).map Prod.fst := by
  obtain ⟨hr₁, hr₂, -⟩ := h.linked.notMem
  by_cases hs : s = r
  · subst hs
    simp only [free, update_self, map_append, mem_append, true_iff, not_or]
    exact ⟨hr₁, hr₂⟩
  · simp only [free, update_of_ne hs, hnone, h.inUse, map_append, map_cons,
      mem_append, mem_cons, hs, false_or]

/-- A node is taken out, wherever it stands. -/
theorem Holds.deleteThisNode (h : list.Holds (l₁ ++ (r, a) :: l₂)) :
    ∃ list', list.deleteThisNode (some r) = some list' ∧ list'.Holds (l₁ ++ l₂) ∧
      list'.cur_node = firstOr l₂ none ∧ list'.currently_size = list.currently_size - 1 ∧
      list'.max_size = list.max_size := by
  obtain ⟨heap₁, heap₂, hnext, hprev, hnone, hlinked⟩ := h.linked.unlink
  have hcell : list.heap r = some ⟨lastOr l₁ none, firstOr l₂ none, a⟩ :=
    (linked_append.mp h.linked).2.1
  have heq : list.deleteThisNode (some r) = some { list with
      heap := free heap₂ r
      first_node := if lastOr l₁ none = none then firstOr l₂ none else list.first_node
      last_node := if firstOr l₂ none = none then lastOr l₁ none else list.last_node
      cur_node := firstOr l₂ none
      currently_size := list.currently_size - 1
      events := list.events ++ [.free r] } := by
    rw [Pointers.deleteThisNode, hcell, bind_some, bypass_eq hnext hprev]
    rfl
  refine ⟨_, heq, ⟨hlinked, h.inUse_free hnone, ?_, ?_⟩, rfl, rfl, rfl⟩
  · dsimp only
    rw [h.first_node, firstOr_append, firstOr_append]
    rcases eq_nil_or_concat' l₁ with rfl | ⟨l, ⟨s, b⟩, rfl⟩
    · rfl
    · rw [lastOr_concat, if_neg (some_ne_none _)]
      cases l <;> rfl
  · dsimp only
    rw [h.last_node, lastOr_append, lastOr_append, lastOr_cons]
    cases l₂ with
    | nil => rfl
    | cons c l₂ => rw [firstOr_cons, if_neg (some_ne_none _), lastOr_cons, lastOr_cons]

theorem Holds.unlink_first (h : list.Holds ((r, a) :: nodes)) :
    ∃ heap, setPrevOf list.heap (firstOr nodes none) none = some heap ∧
      Linked (free heap r) none nodes none ∧
      ∀ s, free heap r s = none ↔ s ∉ nodes.map Prod.fst := by
  have hfirst : list.Holds ([] ++ (r, a) :: nodes) := h
  obtain ⟨heap₁, heap, hnext, hprev, hnone, hlinked⟩ := hfirst.linked.unlink
  obtain rfl : list.heap = heap₁ := some.inj hnext
  exact ⟨heap, hprev, hlinked, hfirst.inUse_free hnone⟩

theorem Holds.deleteOldestNode (h : list.Holds ((r, a) :: nodes)) :
    ∃ list', list.deleteOldestNode = some list' ∧ list'.Holds nodes ∧
      list'.currently_size = list.currently_size := by
  have hfirst : list.first_node = some r := h.first_node
  have hcell : list.heap r = some ⟨none, firstOr nodes none, a⟩ := h.linked.1
  obtain ⟨heap, hprev, hlinked, hinUse⟩ := h.unlink_first
  rw [Pointers.deleteOldestNode, hfirst]
  dsimp only
  rw [hcell, bind_some]
  cases nodes with
  | nil =>
    obtain rfl : list.heap = heap := some.inj hprev
    exact ⟨_, rfl, ⟨hlinked, hinUse, rfl, rfl⟩, rfl⟩
  | cons c nodes =>
    have hprev : setPrev list.heap c.1 none = some heap := hprev
    have hlast : list.last_node = lastOr (c :: nodes) none := by
      rw [h.last_node, lastOr_cons, lastOr_cons, lastOr_cons]
    rw [firstOr_cons]
    dsimp only
    rw [hprev]
    exact ⟨_, rfl, ⟨hlinked, hinUse, rfl, hlast⟩, rfl⟩

theorem Holds.evict {c : ℕ × α} (h : list.Holds ((r, a) :: c :: nodes)) :
    ∃ list', list.evict = some list' ∧ list'.Holds (c :: nodes) ∧
      list'.cur_node = list.cur_node ∧ list'.currently_size = list.currently_size - 1 ∧
      list'.max_size = list.max_size ∧ list'.events = list.events ++ list.evicted r a := by
  have hfirst : list.first_node = some r := h.first_node
  have hcell : list.heap r = some ⟨none, some c.1, a⟩ := h.linked.1
  obtain ⟨heap, hprev, hlinked, hinUse⟩ := h.unlink_first
  have hprev : setPrev list.heap c.1 none = some heap := hprev
  have hlast : list.last_node = lastOr (c :: nodes) none := by
    rw [h.last_node, lastOr_cons, lastOr_cons, lastOr_cons]
  rw [Pointers.evict, hfirst, bind_some, hcell, bind_some]
  dsimp only
  rw [hprev]
  exact ⟨_, rfl, ⟨hlinked, hinUse, rfl, hlast⟩, rfl, rfl, rfl, rfl⟩

/-- The new node is the last one; a node too many makes the oldest one give way. -/
theorem Holds.addData (h : list.Holds nodes) (hr : list.heap r = none) :
    ∃ list', list'.Holds (nodes ++ [(r, a)]) ∧ list'.cur_node = list.cur_node ∧
      list'.currently_size = list.currently_size + 1 ∧ list'.max_size = list.max_size ∧
      list'.free_data_function = list.free_data_function ∧ list'.events = list.events ∧
      list.addData a (some r) =
        if list.max_size ≠ 0 ∧ list.currently_size + 1 > list.max_size then
          list'.evict.map fun list => (1, list)
        else some (1, list') := by
  have hnotMem : r ∉ nodes.map Prod.fst := (h.inUse r).mp hr
  have hnew : Linked (Function.update list.heap r (some ⟨list.last_node, none, a⟩))
      (lastOr nodes none) [(r, a)] none := by
    rw [h.last_node]
    exact ⟨update_self .., trivial⟩
  obtain ⟨heap, hnext, hnone, h₁, h₂⟩ := (h.linked.update hnotMem _).setNextOf hnew
    h.linked.nodup (fun s hs hmem => by
      obtain rfl : s = r := by simpa using hmem
      exact hnotMem hs) (some r)
  rw [← h.last_node] at hnext
  refine ⟨{ list with
      heap
      first_node := list.first_node.or (some r)
      last_node := some r
      currently_size := list.currently_size + 1 }, ⟨linked_append.mpr ⟨h₁, h₂⟩, ?_, ?_, ?_⟩,
    rfl, rfl, rfl, rfl, rfl, ?_⟩
  · intro s
    rw [hnone]
    by_cases hs : s = r
    · simp [hs]
    · rw [update_of_ne hs, h.inUse]
      simp [hs]
  · rw [firstOr_append]
    rw [h.first_node]
    cases nodes <;> rfl
  · rw [lastOr_concat]
  · rw [Pointers.addData]
    rw [hnext, bind_some]

/-! ### The counter -/

theorem toInt_add_one {n : Int32} (hn : 0 ≤ n.toInt) (hmax : n ≠ Int32.maxValue) :
    (n + 1).toInt = n.toInt + 1 := by
  have hlt := n.toInt_lt
  have hne : n.toInt ≠ 2 ^ 31 - 1 := fun heq =>
    hmax (Int32.toInt_inj.mp (heq.trans Int32.toInt_maxValue.symm))
  rw [Int32.toInt_add, Int32.toInt_one]
  exact Int.bmod_eq_of_le (by omega) (by omega)

theorem toInt_sub_one {n : Int32} (hn : 1 ≤ n.toInt) : (n - 1).toInt = n.toInt - 1 := by
  have hlt := n.toInt_lt
  rw [Int32.toInt_sub, Int32.toInt_one]
  exact Int.bmod_eq_of_le (by omega) (by omega)

/-- A well formed list is over its maximum with another node, if it is full. -/
theorem WellFormed.over_iff (h : list.WellFormed nodes)
    (hroom : list.currently_size ≠ Int32.maxValue) :
    list.max_size ≠ 0 ∧ list.currently_size + 1 > list.max_size ↔
      list.max_size ≠ 0 ∧ list.currently_size = list.max_size := by
  have hsize := h.currently_size
  refine and_congr_right fun hne => ?_
  obtain ⟨-, hle⟩ := h.max_size.resolve_left hne
  rw [gt_iff_lt, Int32.lt_iff_toInt_lt, toInt_add_one (by omega) hroom, ← Int32.toInt_inj]
  omega

/-! ### Calls on a well formed list -/

/-- The node that a call adds. -/
def Call.added : Call α → Option (ℕ × α)
  | .addData data (some newnode) => some (newnode, data)
  | _ => none

/-- The nodes when one is added, and what happens to the old ones: a full list drops the oldest node
behind the call of the callback. -/
def withNode (list : Pointers α) (c : ℕ × α) : List (ℕ × α) → List (ℕ × α) × List (Event α)
  | [] => ([c], [])
  | old :: rest =>
    if list.max_size ≠ 0 ∧ list.currently_size = list.max_size then
      (rest ++ [c], list.evicted old.1 old.2)
    else (old :: rest ++ [c], [])

theorem withNode_sublist (c : ℕ × α) : (list.withNode c nodes).1.Sublist (nodes ++ [c]) := by
  cases nodes with
  | nil => exact List.Sublist.refl _
  | cons old rest =>
    rw [withNode]
    split_ifs
    · exact sublist_cons_self _ _
    · exact List.Sublist.refl _

/-- What an addition makes of a well formed list, the cursor aside. -/
theorem WellFormed.addData (h : list.WellFormed nodes) (hr : list.heap r = none)
    (hroom : list.currently_size ≠ Int32.maxValue) (a : α) :
    ∃ list', list.addData a (some r) = some (1, list') ∧
      list'.Holds (list.withNode (r, a) nodes).1 ∧
      list'.events = list.events ++ (list.withNode (r, a) nodes).2 ∧
      list'.currently_size.toInt = (list.withNode (r, a) nodes).1.length ∧
      list'.cur_node = list.cur_node ∧ (list'.max_size = 0 ∨ 2 ≤ list'.max_size.toInt ∧
        (list.withNode (r, a) nodes).1.length ≤ list'.max_size.toInt) := by
  obtain ⟨list₁, hholds, hcur, hsize, hmax, hcallback, hevents, heq⟩ := h.toHolds.addData (a := a) hr
  have hlength := h.currently_size
  have hnext := toInt_add_one (by omega) hroom
  simp only [h.over_iff hroom] at heq
  cases nodes with
  | nil =>
    -- an empty list is below every maximum
    have hroom' : ¬(list.max_size ≠ 0 ∧ list.currently_size = list.max_size) := by
      rintro ⟨hne, hfull⟩
      have hle := (h.max_size.resolve_left hne).1
      rw [← hfull, hlength] at hle
      simp at hle
    rw [if_neg hroom'] at heq
    refine ⟨list₁, heq, hholds, ?_, ?_, hcur, ?_⟩
    · rw [hevents, withNode, append_nil]
    · rw [hsize, hnext, hlength]
      rfl
    · rw [hmax]
      refine h.max_size.imp_right fun hle => ⟨hle.1, ?_⟩
      have htwo := hle.1
      simp only [withNode, length_singleton]
      omega
  | cons old rest =>
    rw [withNode]
    split_ifs at heq ⊢ with hfull
    · obtain ⟨c, nodes, hc⟩ : ∃ c nodes, rest ++ [(r, a)] = c :: nodes :=
        exists_cons_of_ne_nil (by simp)
      rw [cons_append, hc] at hholds
      obtain ⟨list₂, hevict, hholds, hcur₂, hsize₂, hmax₂, hevents₂⟩ := hholds.evict
      rw [hevict] at heq
      refine ⟨list₂, heq, hc ▸ hholds, ?_, ?_, hcur₂.trans hcur, ?_⟩
      · rw [hevents₂, hevents, evicted, hcallback, evicted]
      · rw [hsize₂, hsize, Int32.add_sub_cancel, hlength]
        simp
      · rw [hmax₂, hmax]
        refine h.max_size.imp_right fun hle => ⟨hle.1, ?_⟩
        have hle := hle.2
        simpa using hle
    · refine ⟨list₁, heq, hholds, ?_, ?_, hcur, ?_⟩
      · rw [hevents, append_nil]
      · rw [hsize, hnext, hlength]
        simp
      · rw [hmax]
        refine or_iff_not_imp_left.mpr fun hne => ?_
        obtain ⟨htwo, hle⟩ := h.max_size.resolve_left hne
        have hlt : list.currently_size.toInt ≠ list.max_size.toInt := fun heq =>
          hfull ⟨hne, Int32.toInt_inj.mp heq⟩
        refine ⟨htwo, ?_⟩
        rw [length_append, length_singleton]
        omega

/-- The list of the nodes alone, as `addData` has it, takes the same nodes. -/
theorem WellFormed.addData_nodes {σ : Type} {f : α → σ → σ} {l : OSList α}
    (h : list.WellFormed l.nodes) (hmax : list.max_size.toInt = l.max_size) (a : α) (s : σ) :
    (l.addData f a true s).2.1.nodes = (list.withNode (l.fresh, a) l.nodes).1 := by
  have hsize := h.currently_size
  have hzero : list.max_size = 0 ↔ l.max_size = 0 := by
    rw [← Int32.toInt_inj, hmax, Int32.toInt_zero, Int.natCast_eq_zero]
  have hfull : list.currently_size = list.max_size ↔ l.nodes.length = l.max_size := by
    rw [← Int32.toInt_inj, hmax, hsize, Int.natCast_inj]
  have hbound : l.max_size = 0 ∨ 2 ≤ l.max_size ∧ l.nodes.length ≤ l.max_size := by
    have hle := h.max_size
    rw [hzero, hmax] at hle
    omega
  rw [OSList.addData]
  simp only [Bool.not_true, Bool.false_eq_true, if_false, currentlySize, length_append,
    length_singleton]
  cases hnodes : l.nodes with
  | nil =>
    rw [hnodes, length_nil] at hbound
    rw [if_neg (by simp only [length_nil]; omega), withNode]
    rfl
  | cons old rest =>
    rw [hnodes] at hbound hfull
    rw [withNode]
    by_cases hover : l.max_size ≠ 0 ∧ (old :: rest).length + 1 > l.max_size
    · have hlength : (old :: rest).length = l.max_size := by omega
      rw [if_pos hover, if_pos ⟨mt hzero.mp hover.1, hfull.mpr hlength⟩]
      cases rest with
      | nil =>
        rw [length_singleton] at hlength
        omega
      | cons c rest => rfl
    · rw [if_neg hover, if_neg]
      rintro ⟨hne, heq⟩
      have hlength := hfull.mp heq
      exact hover ⟨mt hzero.mpr hne, by omega⟩

theorem WellFormed.moveTo (h : list.WellFormed nodes) {cur : Option ℕ}
    (hcur : ∀ r, cur = some r → r ∈ nodes.map Prod.fst) :
    ({ list with cur_node := cur } : Pointers α).WellFormed nodes where
  linked := h.linked
  inUse := h.inUse
  first_node := h.first_node
  last_node := h.last_node
  currently_size := h.currently_size
  cur_node := hcur
  max_size := h.max_size

theorem WellFormed.moveCursor (h : list.WellFormed nodes) (link : Cell ℕ α → Option ℕ)
    (hlink : ∀ r node s, list.heap r = some node → r ∈ nodes.map Prod.fst → link node = some s →
      s ∈ nodes.map Prod.fst) :
    ∃ list', (list.moveCursor link).map Prod.snd = some list' ∧ list'.WellFormed nodes := by
  rw [Pointers.moveCursor]
  cases hcur : list.cur_node with
  | none => exact ⟨list, rfl, h⟩
  | some cur =>
    have hmem := h.cur_node cur hcur
    obtain ⟨l₁, a, l₂, -, hcell⟩ := h.toHolds.exists_cell hmem
    dsimp only
    rw [hcell]
    exact ⟨_, rfl, h.moveTo fun s hs => hlink cur _ s hcell hmem hs⟩

theorem WellFormed.deleteThisNode (h : list.WellFormed nodes) (hr : r ∈ nodes.map Prod.fst) :
    ∃ list' nodes', list.deleteThisNode (some r) = some list' ∧ list'.WellFormed nodes' ∧
      nodes'.Sublist nodes := by
  obtain ⟨l₁, a, l₂, rfl, -⟩ := h.toHolds.exists_cell hr
  obtain ⟨list', heq, hholds, hcur, hsize, hmax⟩ := h.toHolds.deleteThisNode
  have hlength := h.currently_size
  simp only [length_append, length_cons] at hlength
  have hcount := toInt_sub_one (n := list.currently_size) (by omega)
  refine ⟨list', l₁ ++ l₂, heq,
    { hholds with currently_size := ?_, cur_node := ?_, max_size := ?_ }, ?_⟩
  · rw [hsize, hcount, hlength, length_append]
    omega
  · intro s hs
    rw [hcur] at hs
    rw [map_append]
    exact mem_append_right _ (mem_of_firstOr hs)
  · rw [hmax]
    refine h.max_size.imp_right fun hle => ⟨hle.1, ?_⟩
    have hle := hle.2
    simp only [length_append, length_cons] at hle ⊢
    omega
  · exact List.Sublist.append_left (sublist_cons_self _ _) _

/-- The cursor is on a node after an addition, unless it was on the node that gave way. -/
theorem WellFormed.cur_mem_withNode_iff (h : list.WellFormed nodes) (hr : list.heap r = none) :
    (∀ s, list.cur_node = some s → s ∈ (list.withNode (r, a) nodes).1.map Prod.fst) ↔
      (list.max_size ≠ 0 ∧ list.currently_size = list.max_size →
        list.cur_node ≠ list.first_node) := by
  have hsize := h.currently_size
  cases nodes with
  | nil =>
    -- no node, so no cursor, and an empty list is not full
    refine iff_of_true (fun s hs => absurd (h.cur_node s hs) not_mem_nil) ?_
    rintro ⟨hne, hfull⟩
    have hle := (h.max_size.resolve_left hne).1
    rw [← hfull, hsize] at hle
    simp at hle
  | cons old rest =>
    rw [withNode]
    split_ifs with hfull
    · rw [imp_iff_right hfull, h.first_node, firstOr_cons, map_append]
      have hlinked : Linked list.heap none ([] ++ old :: rest) none := h.linked
      have hold : old.1 ∉ rest.map Prod.fst := hlinked.notMem.2.1
      have huse : list.heap old.1 ≠ none := fun hnone => (h.inUse _).mp hnone mem_cons_self
      constructor
      · intro hmem hcur
        rcases mem_append.mp (hmem old.1 hcur) with hmem | hmem
        · exact hold hmem
        · exact huse (mem_singleton.mp hmem ▸ hr)
      · intro hne s hs
        rcases mem_cons.mp (h.cur_node s hs) with rfl | hmem
        · exact absurd hs hne
        · exact mem_append_left _ hmem
    · refine iff_of_true (fun s hs => ?_) fun hfull' => absurd hfull' hfull
      rw [map_append]
      exact mem_append_left _ (h.cur_node s hs)

/-- A safe call keeps a list well formed, and adds at most one node behind the others. -/
theorem WellFormed.call (h : list.WellFormed nodes) {c : Call α} (hvalid : list.Valid c)
    (hsafe : list.Safe c) :
    ∃ list' nodes', list.call c = some list' ∧ list'.WellFormed nodes' ∧
      nodes'.Sublist (nodes ++ c.added.toList) := by
  have hself : nodes.Sublist (nodes ++ []) := by rw [append_nil]
  cases c with
  | addData data newnode =>
    cases newnode with
    | none => exact ⟨list, nodes, rfl, h, hself⟩
    | some r =>
      obtain ⟨list', heq, hholds, -, hsize, hcur, hmax⟩ := h.addData hvalid hsafe.1 data
      refine ⟨list', _, ?_, { hholds with
        currently_size := hsize
        cur_node := hcur ▸ (h.cur_mem_withNode_iff hvalid).mpr hsafe.2
        max_size := hmax }, list.withNode_sublist _⟩
      rw [Pointers.call, heq]
      rfl
  | deleteCurrentlyNode =>
    cases hcur : list.cur_node with
    | none => 
      exact ⟨list, nodes, by rw [Pointers.call, deleteCurrentlyNode, hcur]; rfl, h, hself⟩
    | some r =>
      obtain ⟨list', nodes', heq, hwf, hsub⟩ := h.deleteThisNode (h.cur_node r hcur)
      refine ⟨list', nodes', ?_, hwf, hsub.trans hself⟩
      rw [Pointers.call, deleteCurrentlyNode, hcur, heq]
  | deleteOldestNode =>
    have hfirst : list.first_node = none := hsafe
    refine ⟨list, nodes, ?_, h, hself⟩
    rw [Pointers.call, deleteOldestNode, hfirst]
  | deleteThisNode thisnode =>
    cases thisnode with
    | none => exact ⟨list, nodes, rfl, h, hself⟩
    | some r =>
      have hr : r ∈ nodes.map Prod.fst := by
        by_contra hr
        exact hvalid ((h.inUse r).mpr hr)
      obtain ⟨list', nodes', heq, hwf, hsub⟩ := h.deleteThisNode hr
      exact ⟨list', nodes', heq, hwf, hsub.trans hself⟩
  | getFirstNode =>
    exact ⟨_, nodes, rfl, h.moveTo fun s hs => mem_of_firstOr (h.first_node ▸ hs), hself⟩
  | getLastNode =>
    exact ⟨_, nodes, rfl, h.moveTo fun s hs => mem_of_lastOr (h.last_node ▸ hs), hself⟩
  | getNextNode =>
    obtain ⟨list', heq, hwf⟩ := h.moveCursor Cell.next fun r node s hcell hr hs => by
      obtain ⟨l₁, a, l₂, rfl, hcell'⟩ := h.toHolds.exists_cell hr
      obtain rfl := some.inj (hcell.symm.trans hcell')
      simp only [map_append, map_cons, mem_append, mem_cons]
      exact .inr (.inr (mem_of_firstOr hs))
    exact ⟨list', nodes, heq, hwf, hself⟩
  | getPrevNode =>
    obtain ⟨list', heq, hwf⟩ := h.moveCursor Cell.prev fun r node s hcell hr hs => by
      obtain ⟨l₁, a, l₂, rfl, hcell'⟩ := h.toHolds.exists_cell hr
      obtain rfl := some.inj (hcell.symm.trans hcell')
      rw [map_append]
      exact mem_append_left _ (mem_of_lastOr hs)
    exact ⟨list', nodes, heq, hwf, hself⟩

/-- The counter of a list with the largest number of nodes cannot count another one. -/
theorem WellFormed.not_addData_maxValue (h : list.WellFormed nodes) (hr : list.heap r = none)
    (hmax : list.currently_size = Int32.maxValue) {a : α} {n : ℕ}
    (heq : list.addData a (some r) = some (n, list')) (h' : list'.WellFormed nodes') : False := by
  obtain ⟨list₁, hholds, -, hsize, -, -, -, heq₁⟩ := h.toHolds.addData (a := a) hr
  have hcount : (list.currently_size + 1).toInt = -2 ^ 31 := by
    rw [hmax]
    decide
  have hover : ¬(list.max_size ≠ 0 ∧ list.currently_size + 1 > list.max_size) := by
    rintro ⟨hne, hover⟩
    have htwo := (h.max_size.resolve_left hne).1
    rw [gt_iff_lt, Int32.lt_iff_toInt_lt, hcount] at hover
    omega
  rw [if_neg hover, heq] at heq₁
  obtain rfl : list' = list₁ := (Prod.mk.inj (some.inj heq₁)).2
  have hlength := h'.currently_size
  rw [hsize, hcount] at hlength
  omega

/-- Only safe calls keep a list well formed. -/
theorem WellFormed.safe_of_call (h : list.WellFormed nodes) {c : Call α} (hvalid : list.Valid c)
    (hcall : list.call c = some list') (h' : list'.WellFormed nodes') : list.Safe c := by
  cases c with
  | addData data newnode =>
    cases newnode with
    | none => trivial
    | some r =>
      obtain ⟨⟨n, list₁⟩, heq, rfl⟩ := map_eq_some_iff.mp hcall
      have hroom : list.currently_size ≠ Int32.maxValue := fun hmax =>
        h.not_addData_maxValue hvalid hmax heq h'
      refine ⟨hroom, (h.cur_mem_withNode_iff hvalid (a := data)).mp ?_⟩
      obtain ⟨list₂, heq₂, hholds, -, -, hcur, -⟩ := h.addData hvalid hroom data
      rw [heq₂] at heq
      obtain rfl : list₂ = list₁ := (Prod.mk.inj (some.inj heq)).2
      rw [← hcur, hholds.unique h'.toHolds]
      exact h'.cur_node
  | deleteOldestNode =>
    cases nodes with
    | nil => exact h.first_node
    | cons old rest =>
      -- a node less, and the counter as it was
      obtain ⟨list₁, heq, hholds, hsize⟩ := h.toHolds.deleteOldestNode
      rw [Pointers.call, heq] at hcall
      cases hcall
      have hlength := h'.currently_size
      rw [hsize, h.currently_size, ← hholds.unique h'.toHolds, length_cons] at hlength
      omega
  | _ => trivial

/-! ## Runs -/

/-- A list as it is created, with a maximum and a callback or without. -/
def create (max_size : Int32) (callback : Bool) : Pointers α :=
  let list := (({} : Pointers α).setMaxSize max_size).2
  if callback then list.setFreeDataPointer.2 else list

theorem wellFormed_create (max_size : Int32) (callback : Bool) :
    (create max_size callback : Pointers α).WellFormed [] := by
  have hset : (({} : Pointers α).setMaxSize max_size).2.WellFormed [] := by
    rw [setMaxSize]
    split_ifs with hmax
    · exact ⟨⟨trivial, by simp, rfl, rfl⟩, rfl, by simp, .inl rfl⟩
    · rw [Int32.not_le, Int32.lt_iff_toInt_lt] at hmax
      have hone : (1 : Int32).toInt = 1 := Int32.toInt_one
      refine ⟨⟨trivial, by simp, rfl, rfl⟩, rfl, by simp, .inr ⟨by dsimp only; omega, ?_⟩⟩
      rw [length_nil]
      dsimp only
      omega
  rw [create]
  split_ifs
  · exact { hset with }
  · exact hset

/-- A step of a caller that makes safe calls. -/
def SafeStep (list : Pointers α) (c : Call α) (list' : Pointers α) : Prop :=
  list.Valid c ∧ list.Safe c ∧ list.call c = some list'

theorem WellFormed.run (h : list.WellFormed nodes) {calls : List (Call α)}
    (hrun : Run SafeStep list calls list') :
    ∃ nodes', list'.WellFormed nodes' ∧ nodes'.Sublist (nodes ++ calls.filterMap Call.added) := by
  induction hrun generalizing nodes with
  | nil list =>
    refine ⟨nodes, h, ?_⟩
    rw [filterMap_nil, append_nil]
  | @cons list list₁ list' c calls hstep _ ih =>
    obtain ⟨hvalid, hsafe, hcall⟩ := hstep
    obtain ⟨list₂, nodes₁, hcall', h₁, hsub₁⟩ := h.call hvalid hsafe
    obtain rfl := some.inj (hcall'.symm.trans hcall)
    obtain ⟨nodes', h', hsub⟩ := ih h₁
    refine ⟨nodes', h', hsub.trans ?_⟩
    have hadded : (c :: calls).filterMap Call.added = c.added.toList ++ calls.filterMap Call.added := by
      rw [filterMap_cons]
      cases c.added <;> rfl
    rw [hadded, ← append_assoc]
    exact List.Sublist.append_right hsub₁ _

/-- A list stays one list of its nodes, in the order in which they were added, as long as the calls
are safe, and no longer; an addition takes exactly the oldest node from a full list. -/
theorem wellFormed_of_run {max_size : Int32} {callback : Bool} {calls : List (Call α)}
    (hrun : Run SafeStep (create max_size callback) calls list) :
    ∃ nodes, list.WellFormed nodes ∧ nodes.Sublist (calls.filterMap Call.added) ∧
      (∀ c, list.Valid c →
        (list.Safe c ↔ ∃ list' nodes', list.call c = some list' ∧ list'.WellFormed nodes')) ∧
      ∀ data newnode, list.Valid (.addData data (some newnode)) →
        list.Safe (.addData data (some newnode)) →
        ∃ list', list.addData data (some newnode) = some (1, list') ∧
          list'.WellFormed (list.withNode (newnode, data) nodes).1 ∧
          list'.events = list.events ++ (list.withNode (newnode, data) nodes).2 := by
  obtain ⟨nodes, h, hsub⟩ := (wellFormed_create max_size callback).run hrun
  refine ⟨nodes, h, hsub, fun c hvalid => ⟨fun hsafe => ?_, ?_⟩, fun data newnode hvalid hsafe => ?_⟩
  · obtain ⟨list', nodes', hcall, h', -⟩ := h.call hvalid hsafe
    exact ⟨list', nodes', hcall, h'⟩
  · rintro ⟨list', nodes', hcall, h'⟩
    exact h.safe_of_call hvalid hcall h'
  · obtain ⟨list', heq, hholds, hevents, hsize, hcur, hmax⟩ := h.addData hvalid hsafe.1 data
    exact ⟨list', heq, { hholds with
      currently_size := hsize
      cur_node := hcur ▸ (h.cur_mem_withNode_iff hvalid).mpr hsafe.2
      max_size := hmax }, hevents⟩

/-- A full list whose cursor is on its last node. -/
theorem wellFormed_of_run_full :
    ∃ list : Pointers ℕ, Run SafeStep (create 2 true)
        [.addData 7 (some 0), .addData 8 (some 1), .getLastNode, .addData 9 (some 2)] list ∧
      ∃ nodes, list.WellFormed nodes ∧ nodes.Sublist [(0, 7), (1, 8), (2, 9)] := by
  have hrun : ∃ list : Pointers ℕ, Run SafeStep (create 2 true)
      [.addData 7 (some 0), .addData 8 (some 1), .getLastNode, .addData 9 (some 2)] list := by
    refine ⟨_, .cons ⟨rfl, ⟨by decide, by decide⟩, rfl⟩ (.cons ⟨rfl, ⟨by decide, by decide⟩, rfl⟩
      (.cons ⟨trivial, trivial, rfl⟩ (.cons ⟨rfl, ⟨by decide, by decide⟩, rfl⟩ (.nil _))))⟩
  obtain ⟨list, hrun⟩ := hrun
  obtain ⟨nodes, h, hsub, -⟩ := wellFormed_of_run hrun
  exact ⟨list, hrun, nodes, h, hsub⟩

/-- A node less that is still counted, and a cursor on a node that gave way. -/
theorem not_wellFormed_oldest :
    (∃ list : Pointers ℕ, Run (fun list c list' => list.Valid c ∧ list.call c = some list')
        (create 0 false) [.addData 7 (some 0), .deleteOldestNode] list ∧
      ¬∃ nodes, list.WellFormed nodes) ∧
    ∃ list : Pointers ℕ, Run (fun list c list' => list.Valid c ∧ list.call c = some list')
        (create 2 true)
        [.addData 7 (some 0), .getFirstNode, .addData 8 (some 1), .addData 9 (some 2)] list ∧
      ¬∃ nodes, list.WellFormed nodes := by
  constructor
  · refine ⟨_, .cons ⟨rfl, rfl⟩ (.cons ⟨trivial, rfl⟩ (.nil _)), ?_⟩
    rintro ⟨nodes, h⟩
    cases nodes with
    | nil => exact absurd h.currently_size (by decide)
    | cons c nodes =>
      have hfirst : none = some c.1 := h.first_node
      cases hfirst
  · refine ⟨_, .cons ⟨rfl, rfl⟩ (.cons ⟨trivial, rfl⟩ (.cons ⟨rfl, rfl⟩ (.cons ⟨rfl, rfl⟩
      (.nil _)))), ?_⟩
    rintro ⟨nodes, h⟩
    exact (h.inUse 0).mp rfl (h.cur_node 0 rfl)

end Pointers

end OSList
