import OssecHids.Lib.LinkedSearch
import OssecHids.Lib.StringOrder
import OssecHids.Lib.Transition

/-!
# Ordered stores

`store_op.c`: a doubly linked list of nodes in the order of their keys. The member `cur_node` is set
by each function before it is read; it is the argument of the loops here.

- `OSStore.Holds`, `OSStore.Ordered`: the nodes that the pointers lead to, in the order of keys;
- `OSStore.lookup_strcmp`: a search that stops at the first key that is not smaller;
- `OSStore.Ordered.put`: a node is put where its key belongs, unless the key is there;
- `OSStore.answers_of_run`: what a store answers after some calls of `OSStore_Put`.
-/

open CString DoublyLinked Transition List Option

/-- `OSStoreNode` -/
structure StoreNode (α : Type) where
  key : Bytes
  key_size : ℕ
  /-- The pointer to the data, which may be `NULL`. -/
  data : Option α

/-- `OSStore` with the memory of its nodes -/
structure OSStore (α : Type) where
  first_node : Option ℕ := none
  last_node : Option ℕ := none
  currently_size : ℕ := 0
  heap : Heap ℕ (StoreNode α) := fun _ => none

namespace OSStore

variable {α : Type}

/-! ## Functions -/

/-- `strcmp(node->key, key)` -/
def cmpKey (key : Bytes) (node : StoreNode α) : Ordering := strcmpSign node.key key

/-- `strncmp(node->key, key, node->key_size)` -/
def cmpPrefix (key : Bytes) (node : StoreNode α) : Ordering :=
  strncmpSign node.key_size node.key key

/-- The test of the loops that go through the nodes in the order of their keys. -/
def notBefore (cmp : StoreNode α → Ordering) (node : StoreNode α) : Bool := cmp node != .lt

/-- The loop of the functions that look for a key: the position of a node that compares equal, and
the node. -/
def lookup (list : OSStore α) (cmp : StoreNode α → Ordering) :
    Option (Option (ℕ × StoreNode α)) :=
  (seek list.heap (notBefore cmp) list.currently_size list.first_node).bind
    fun (passed, cur_node) =>
      match cur_node with
      | none => some none
      | some cur_node => (list.heap cur_node).map fun node =>
        if cmp node.data = .eq then some (passed + 1, node.data) else none

/-- `OSStore_GetPosition` -/
def getPosition (list : OSStore α) (key : Bytes) : Option ℕ :=
  (list.lookup (cmpKey key)).map fun found => found.elim 0 Prod.fst

/-- `OSStore_Get` -/
def get (list : OSStore α) (key : Bytes) : Option (Option α) :=
  (list.lookup (cmpKey key)).map fun found => found.bind fun found => found.2.data

/-- `OSStore_Check` -/
def check (list : OSStore α) (key : Bytes) : Option Bool :=
  (list.lookup (cmpKey key)).map Option.isSome

/-- `OSStore_NCheck` -/
def nCheck (list : OSStore α) (key : Bytes) : Option Bool :=
  (list.lookup (cmpPrefix key)).map Option.isSome

/-- How `OSStore_Put` puts a node in front of the one at `cur_node`. -/
def putBefore (list : OSStore α) (newnode cur_node : ℕ) (prev : Option ℕ) : Option (OSStore α) :=
  (setNextOf list.heap prev (some newnode)).bind fun heap =>
    (setPrev heap newnode prev).bind fun heap =>
      (setPrev heap cur_node (some newnode)).bind fun heap =>
        (setNext heap newnode (some cur_node)).map fun heap =>
          { list with
            heap
            first_node := if prev = none then some newnode else list.first_node
            currently_size := list.currently_size + 1 }

/-- How `OSStore_Put` puts a node behind the last one. -/
def putLast (list : OSStore α) (newnode : ℕ) : Option (OSStore α) :=
  list.last_node.bind fun last_node =>
    (setNext list.heap last_node (some newnode)).bind fun heap =>
      (setPrev heap newnode (some last_node)).map fun heap =>
        { list with
          heap
          last_node := some newnode
          currently_size := list.currently_size + 1 }

/-- `OSStore_Put`, with the memory for the node, if there is any. -/
def put (list : OSStore α) (key : Bytes) (data : Option α) : Option ℕ → Option (ℕ × OSStore α)
  | none => some (0, list)
  | some newnode =>
    let heap := Function.update list.heap newnode (some ⟨none, none, key, key.length, data⟩)
    match list.first_node with
    | none =>
      some (1, { list with
        heap
        first_node := some newnode
        last_node := some newnode
        currently_size := list.currently_size + 1 })
    | some first_node =>
      (seek heap (notBefore (cmpKey key)) list.currently_size (some first_node)).bind
        fun (_, cur_node) =>
          match cur_node with
          | none => (putLast { list with heap } newnode).map fun list => (1, list)
          | some cur_node => (heap cur_node).bind fun node =>
            -- a key that is there keeps its node
            if cmpKey key node.data = .eq then some (1, { list with heap := free heap newnode })
            else (putBefore { list with heap } newnode cur_node node.prev).map fun list => (1, list)

/-! ## Contents -/

/-- A store as a partial function from keys to pointers. -/
abbrev Contents (α : Type) := Bytes → Option (Option α)

/-- The first pointer that is stored for a key stays. -/
def Contents.put (contents : Contents α) (key : Bytes) (data : Option α) : Contents α := fun k =>
  if k = key then some ((contents k).getD data) else contents k

/-- The contents of some nodes. -/
def contentsOf (nodes : List (ℕ × StoreNode α)) : Contents α := fun key =>
  (nodes.find? fun c => c.2.key == key).map fun c => c.2.data

/-- A call of `OSStore_Put`, with the memory for the node, if there is any. -/
structure Put (α : Type) where
  key : Bytes
  data : Option α
  newnode : Option ℕ

/-- What some calls store. -/
def Put.contents : Contents α → List (Put α) → Contents α
  | contents, [] => contents
  | contents, call :: calls =>
    Put.contents (if call.newnode.isSome then contents.put call.key call.data else contents) calls

/-- New memory is not in use. -/
def Valid (list : OSStore α) (call : Put α) : Prop :=
  ∀ r, call.newnode = some r → list.heap r = none

def Step (list : OSStore α) (call : Put α) (list' : OSStore α) : Prop :=
  list.Valid call ∧
    ∃ ret, list.put call.key call.data call.newnode = some (ret, list')

/-! ## Nodes -/

/-- The pointers lead to these nodes, in both directions, and no other node is in use. -/
structure Holds (list : OSStore α) (nodes : List (ℕ × StoreNode α)) : Prop where
  linked : Linked list.heap none nodes none
  inUse : ∀ r, list.heap r = none ↔ r ∉ nodes.map Prod.fst
  first_node : list.first_node = firstOr nodes none
  last_node : list.last_node = lastOr nodes none
  currently_size : list.currently_size = nodes.length

/-- The keys of the nodes increase, and each node has the size of its key. -/
structure Ordered (list : OSStore α) (nodes : List (ℕ × StoreNode α)) : Prop extends
    Holds list nodes where
  keys : nodes.Pairwise fun c d => strcmpSign c.2.key d.2.key = .lt
  key_size : ∀ c ∈ nodes, c.2.key_size = c.2.key.length

variable {list list' : OSStore α} {nodes l₁ l₂ : List (ℕ × StoreNode α)} {key : Bytes}
  {c : ℕ × StoreNode α} {cmp : StoreNode α → Ordering}

theorem ordered_empty : ({} : OSStore α).Ordered [] :=
  ⟨⟨trivial, by simp, rfl, rfl, rfl⟩, .nil, by simp⟩

theorem Holds.lookup_eq (h : list.Holds nodes) (cmp : StoreNode α → Ordering) :
    list.lookup cmp = some (match reached (notBefore cmp) nodes with
      | [] => none
      | c :: _ => if cmp c.2 = .eq then
        some ((passed (notBefore cmp) nodes).length + 1, c.2) else none) := by
  rw [lookup, h.first_node, seek_eq h.linked.path (le_of_eq h.currently_size.symm), bind_some]
  have hsplit := passed_append_reached (notBefore cmp) nodes
  cases hreached : reached (notBefore cmp) nodes with
  | nil => rfl
  | cons c l =>
    obtain ⟨r, a⟩ := c
    have hlinked := h.linked
    rw [← hsplit, hreached] at hlinked
    have hcell := (linked_append.mp hlinked).2.1
    dsimp only [firstOr_cons]
    rw [hcell]
    rfl

/-! ## The order of the keys -/

theorem lt_of_passed (h : c ∈ passed (notBefore (cmpKey key)) nodes) :
    strcmpSign c.2.key key = .lt := by
  have hstop := not_stop_of_passed h
  simpa [notBefore, cmpKey] using hstop

theorem key_ne_of_lt {key key' : Bytes} (h : strcmpSign key key' = .lt) : key ≠ key' := by
  intro heq
  rw [heq, strcmpSign_eq_iff.mpr rfl] at h
  cases h

theorem le_of_reached (h : reached (notBefore (cmpKey key)) nodes = c :: l₂) :
    (strcmpSign key c.2.key).isLE = true := by
  have hstop := stop_of_reached h
  rw [notBefore, cmpKey, bne_iff_ne, Ne, ← strcmpSign_gt_iff] at hstop
  exact Ordering.isLE_iff_ne_gt.mpr hstop

theorem lt_of_behind (hkeys : nodes.Pairwise fun c d => strcmpSign c.2.key d.2.key = .lt)
    (h : reached (notBefore (cmpKey key)) nodes = c :: l₂) :
    ∀ d ∈ l₂, strcmpSign key d.2.key = .lt := by
  intro d hd
  rw [← passed_append_reached (notBefore (cmpKey key)) nodes, h] at hkeys
  have hcd := (pairwise_cons.mp (pairwise_append.mp hkeys).2.1).1 d hd
  exact Std.TransCmp.lt_of_isLE_of_lt (le_of_reached h) hcd

/-- The search for a key finds its node, or there is none. -/
theorem Ordered.lookup_strcmp (h : list.Ordered nodes) (key : Bytes) :
    (∀ c ∈ nodes, c.2.key ≠ key) ∧ list.lookup (cmpKey key) = some none ∨
      ∃ l₁ c l₂, nodes = l₁ ++ c :: l₂ ∧ c.2.key = key ∧
        list.lookup (cmpKey key) = some (some (l₁.length + 1, c.2)) := by
  have hsplit := passed_append_reached (notBefore (cmpKey key)) nodes
  have hpassed : ∀ c ∈ passed (notBefore (cmpKey key)) nodes, c.2.key ≠ key := fun c hc =>
    key_ne_of_lt (lt_of_passed hc)
  rw [h.lookup_eq]
  cases hreached : reached (notBefore (cmpKey key)) nodes with
  | nil =>
    rw [hreached, append_nil] at hsplit
    rw [hsplit] at hpassed
    exact .inl ⟨hpassed, rfl⟩
  | cons c l =>
    dsimp only
    by_cases hkey : cmpKey key c.2 = .eq
    · rw [hreached] at hsplit
      rw [if_pos hkey]
      exact .inr ⟨_, c, l, hsplit.symm, strcmpSign_eq_iff.mp hkey, rfl⟩
    · refine .inl ⟨?_, by rw [if_neg hkey]⟩
      rw [← hsplit, hreached]
      intro d hd heq
      rcases mem_append.mp hd with hd | hd
      · exact hpassed d hd heq
      · rcases mem_cons.mp hd with rfl | hd
        · exact hkey (strcmpSign_eq_iff.mpr heq)
        · exact key_ne_of_lt (lt_of_behind h.keys hreached d hd) heq.symm

/-- A search for a stored prefix may stop at the first node that is behind the key. -/
theorem Ordered.lookup_strncmp (h : list.Ordered nodes) (key : Bytes) :
    ∃ found, list.lookup (cmpPrefix key) = some found ∧
      (found.isSome = true ↔ ∃ c ∈ nodes, c.2.key <+: key) := by
  have hcmp : ∀ c ∈ nodes, cmpPrefix key c.2 = strncmpSign c.2.key.length c.2.key key :=
    fun c hc => by rw [cmpPrefix, h.key_size c hc]
  have hsplit := passed_append_reached (notBefore (cmpPrefix key)) nodes
  have hpassed : ∀ c ∈ passed (notBefore (cmpPrefix key)) nodes, ¬c.2.key <+: key := by
    intro c hc hprefix
    have hstop := not_stop_of_passed hc
    have hmem : c ∈ nodes := hsplit ▸ mem_append_left _ hc
    rw [notBefore, hcmp c hmem, strncmpSign_eq_iff.mpr hprefix] at hstop
    cases hstop
  rw [h.lookup_eq]
  cases hreached : reached (notBefore (cmpPrefix key)) nodes with
  | nil =>
    rw [hreached, append_nil] at hsplit
    rw [hsplit] at hpassed
    refine ⟨none, rfl, iff_of_false nofun ?_⟩
    rintro ⟨c, hc, hprefix⟩
    exact hpassed c hc hprefix
  | cons c l =>
    have hmem : c ∈ nodes := by
      rw [← hsplit, hreached]
      exact mem_append_right _ mem_cons_self
    dsimp only
    by_cases hfound : cmpPrefix key c.2 = .eq
    · rw [if_pos hfound]
      rw [hcmp c hmem] at hfound
      exact ⟨_, rfl, iff_of_true rfl ⟨c, hmem, strncmpSign_eq_iff.mp hfound⟩⟩
    · rw [if_neg hfound]
      refine ⟨none, rfl, iff_of_false nofun ?_⟩
      -- the node is behind the key, and so are the others
      have hgt : strcmpSign c.2.key key = .gt := by
        have hstop := stop_of_reached hreached
        rw [notBefore, bne_iff_ne] at hstop
        apply strcmpSign_of_strncmp
        rw [← hcmp c hmem]
        cases hord : cmpPrefix key c.2 with
        | lt => exact absurd hord hstop
        | eq => exact absurd hord hfound
        | gt => rfl
      rintro ⟨d, hd, hprefix⟩
      rw [← hsplit, hreached] at hd
      rcases mem_append.mp hd with hd | hd
      · exact hpassed d hd hprefix
      · rcases mem_cons.mp hd with rfl | hd
        · exact strcmpSign_of_prefix hprefix hgt
        · have hkeys := h.keys
          rw [← hsplit, hreached] at hkeys
          have hcd := (pairwise_cons.mp (pairwise_append.mp hkeys).2.1).1 d hd
          have hkd := strcmpSign_lt_trans (strcmpSign_gt_iff.mp hgt) hcd
          exact strcmpSign_of_prefix hprefix (strcmpSign_gt_iff.mpr hkd)

/-! ## `OSStore_Put` -/

theorem contentsOf_eq_none (h : ∀ c ∈ nodes, c.2.key ≠ key) : contentsOf nodes key = none := by
  rw [contentsOf, map_eq_none_iff, find?_eq_none]
  intro c hc
  simpa using h c hc

theorem contentsOf_cons :
    contentsOf (c :: nodes) key =
      if c.2.key = key then some c.2.data else contentsOf nodes key := by
  rw [contentsOf, find?_cons]
  by_cases hkey : c.2.key = key
  · rw [beq_iff_eq.mpr hkey, if_pos hkey]
    rfl
  · rw [beq_eq_false_iff_ne.mpr hkey, if_neg hkey]
    rfl

theorem contentsOf_append :
    contentsOf (l₁ ++ l₂) key = (contentsOf l₁ key).or (contentsOf l₂ key) := by
  rw [contentsOf, find?_append, map_or]
  rfl

theorem contentsOf_insert (h : ∀ d ∈ l₁ ++ l₂, d.2.key ≠ c.2.key) :
    contentsOf (l₁ ++ c :: l₂) = (contentsOf (l₁ ++ l₂)).put c.2.key c.2.data := by
  funext k
  have h₁ : contentsOf l₁ c.2.key = none :=
    contentsOf_eq_none fun d hd => h d (mem_append_left _ hd)
  rw [Contents.put, contentsOf_append, contentsOf_cons]
  split_ifs with hk hk' hk'
  · rw [← hk, h₁, contentsOf_eq_none h]
    rfl
  · exact absurd hk.symm hk'
  · exact absurd hk'.symm hk
  · rw [contentsOf_append]

theorem Contents.put_of_eq_some {contents : Contents α} {data data' : Option α}
    (h : contents key = some data') : contents.put key data = contents := by
  funext k
  rw [Contents.put]
  split_ifs with hk
  · rw [hk, h]
    rfl
  · rfl

/-- A new key stands behind the smaller ones and in front of the others. -/
theorem pairwise_insert (hkeys : nodes.Pairwise fun c d => strcmpSign c.2.key d.2.key = .lt)
    (hnew : ∀ d ∈ nodes, d.2.key ≠ c.2.key) :
    (passed (notBefore (cmpKey c.2.key)) nodes ++ c ::
      reached (notBefore (cmpKey c.2.key)) nodes).Pairwise
        fun c d => strcmpSign c.2.key d.2.key = .lt := by
  have hsplit := passed_append_reached (notBefore (cmpKey c.2.key)) nodes
  have hreached : ∀ d ∈ reached (notBefore (cmpKey c.2.key)) nodes,
      strcmpSign c.2.key d.2.key = .lt := by
    intro d hd
    have hmem : d ∈ nodes := hsplit ▸ mem_append_right _ hd
    cases hcases : reached (notBefore (cmpKey c.2.key)) nodes with
    | nil =>
      rw [hcases] at hd
      cases hd
    | cons e l =>
      rw [hcases] at hd
      rcases mem_cons.mp hd with rfl | hd
      · have hle := le_of_reached hcases
        cases hord : strcmpSign c.2.key d.2.key with
        | lt => rfl
        | eq => exact absurd (strcmpSign_eq_iff.mp hord).symm (hnew d hmem)
        | gt =>
          rw [hord] at hle
          cases hle
      · exact lt_of_behind hkeys hcases d hd
  rw [← hsplit] at hkeys
  obtain ⟨h₁, h₂, hcross⟩ := pairwise_append.mp hkeys
  refine pairwise_append.mpr ⟨h₁, pairwise_cons.mpr ⟨hreached, h₂⟩, fun d hd e he => ?_⟩
  rcases mem_cons.mp he with rfl | he
  · exact lt_of_passed hd
  · exact hcross d hd e he

/-- The new node is linked, and counted. -/
structure Placed (list list' : OSStore α) (newnode : ℕ) (node : StoreNode α)
    (l₁ l₂ : List (ℕ × StoreNode α)) : Prop where
  linked : Linked list'.heap none (l₁ ++ (newnode, node) :: l₂) none
  inUse : ∀ s, list'.heap s = none ↔ list.heap s = none
  first_node : list'.first_node = firstOr (l₁ ++ (newnode, node) :: l₂) none
  last_node : list'.last_node = lastOr (l₁ ++ (newnode, node) :: l₂) none
  currently_size : list'.currently_size = list.currently_size + 1

section Place

variable {newnode : ℕ} {node : StoreNode α} {b : StoreNode α} {cur_node : ℕ}

theorem putLast_spec (hlinked : Linked list.heap none nodes none)
    (hcell : list.heap newnode = some ⟨none, none, node⟩) (hfresh : newnode ∉ nodes.map Prod.fst)
    (hfirst : list.first_node = firstOr nodes none) (hlast : list.last_node = lastOr nodes none)
    (hne : nodes ≠ []) :
    ∃ list', list.putLast newnode = some list' ∧ Placed list list' newnode node nodes [] := by
  rcases eq_nil_or_concat' nodes with rfl | ⟨l, last, rfl⟩
  · exact absurd rfl hne
  have hlast' : lastOr (l ++ [last]) none = some last.1 := lastOr_concat
  obtain ⟨heap₁, heap₂, hset₁, hset₂, hnone, hlinked'⟩ := hlinked.linkLast hcell rfl hfresh hlast'
  refine ⟨{ list with
    heap := heap₂
    last_node := some newnode
    currently_size := list.currently_size + 1 }, ?_, hlinked', hnone, ?_, lastOr_concat.symm, rfl⟩
  · rw [putLast, hlast, hlast', bind_some, hset₁, bind_some, hset₂]
    rfl
  · dsimp only
    rw [hfirst, firstOr_append]
    cases l <;> rfl

theorem putBefore_spec (hlinked : Linked list.heap none (l₁ ++ (cur_node, b) :: l₂) none)
    (hcell : list.heap newnode = some ⟨none, none, node⟩)
    (hfresh : newnode ∉ (l₁ ++ (cur_node, b) :: l₂).map Prod.fst)
    (hfirst : list.first_node = firstOr (l₁ ++ (cur_node, b) :: l₂) none)
    (hlast : list.last_node = lastOr (l₁ ++ (cur_node, b) :: l₂) none) :
    ∃ list', list.putBefore newnode cur_node (lastOr l₁ none) = some list' ∧
      Placed list list' newnode node l₁ ((cur_node, b) :: l₂) := by
  obtain ⟨heap₁, heap₂, heap₃, heap₄, hset₁, hset₂, hset₃, hset₄, hnone, hlinked'⟩ :=
    hlinked.link hcell hfresh
  have hset₃ : setPrev heap₂ cur_node (some newnode) = some heap₃ := hset₃
  have hset₄ : setNext heap₃ newnode (some cur_node) = some heap₄ := hset₄
  refine ⟨{ list with
    heap := heap₄
    first_node := if lastOr l₁ none = none then some newnode else list.first_node
    currently_size := list.currently_size + 1 }, ?_, hlinked', hnone, ?_, ?_, rfl⟩
  · rw [putBefore, hset₁, bind_some, hset₂, bind_some, hset₃, bind_some, hset₄]
    rfl
  · dsimp only
    rw [hfirst, firstOr_append, firstOr_append]
    rcases eq_nil_or_concat' l₁ with rfl | ⟨l, ⟨s, a⟩, rfl⟩
    · rfl
    · rw [lastOr_concat, if_neg (some_ne_none _)]
      cases l <;> rfl
  · dsimp only
    rw [hlast, lastOr_append, lastOr_append, lastOr_cons, lastOr_cons, lastOr_cons]

/-- The memory of the new node was not in use before. -/
theorem Placed.ordered {list₀ : OSStore α} (hplaced : Placed list list' newnode node l₁ l₂)
    (h : list₀.Ordered (l₁ ++ l₂)) (hsize : list.currently_size = list₀.currently_size)
    (hinUse : ∀ s, list.heap s = none ↔ s ≠ newnode ∧ s ∉ (l₁ ++ l₂).map Prod.fst)
    (hnode : node.key_size = node.key.length)
    (hkeys : (l₁ ++ (newnode, node) :: l₂).Pairwise fun c d => strcmpSign c.2.key d.2.key = .lt) :
    list'.Ordered (l₁ ++ (newnode, node) :: l₂) := by
  refine ⟨⟨hplaced.linked, fun s => ?_, hplaced.first_node, hplaced.last_node, ?_⟩, hkeys, ?_⟩
  · rw [hplaced.inUse, hinUse]
    simp only [map_append, map_cons, mem_append, mem_cons, not_or]
    tauto
  · rw [hplaced.currently_size, hsize, h.currently_size, length_append, length_append,
      length_cons, add_assoc]
  · intro c hc
    rcases mem_append.mp hc with hc | hc
    · exact h.key_size c (mem_append_left _ hc)
    · rcases mem_cons.mp hc with rfl | hc
      · exact hnode
      · exact h.key_size c (mem_append_right _ hc)

end Place

/-- What a call of `OSStore_Put` with memory for the node leaves. -/
theorem Ordered.put (h : list.Ordered nodes) {newnode : ℕ} (hvalid : list.heap newnode = none)
    (key : Bytes) (data : Option α) :
    ∃ list' nodes', list.put key data (some newnode) = some (1, list') ∧ list'.Ordered nodes' ∧
      contentsOf nodes' = (contentsOf nodes).put key data := by
  have hfresh : newnode ∉ nodes.map Prod.fst := (h.inUse newnode).mp hvalid
  obtain ⟨first_node, last_node, currently_size, memory⟩ := list
  obtain rfl : currently_size = nodes.length := h.currently_size
  set node : StoreNode α := ⟨key, key.length, data⟩ with hnode
  set heap := Function.update memory newnode (some ⟨none, none, node⟩) with hheap
  have hcell : heap newnode = some ⟨none, none, node⟩ := Function.update_self ..
  have hlinked : Linked heap none nodes none := h.linked.update hfresh _
  have hinUse : ∀ s, heap s = none ↔ s ≠ newnode ∧ s ∉ nodes.map Prod.fst := by
    intro s
    by_cases hs : s = newnode
    · rw [hs, hcell]
      simp
    · rw [hheap, Function.update_of_ne hs, h.inUse]
      simp [hs]
  cases nodes with
  | nil =>
    obtain rfl : first_node = none := h.first_node
    refine ⟨_, [(newnode, node)], rfl, ⟨⟨⟨hcell, trivial⟩, fun s => ?_, rfl, rfl, rfl⟩,
      pairwise_singleton _ _, by simp [hnode]⟩, @contentsOf_insert _ [] [] _ (by simp)⟩
    rw [← hnode, ← hheap, hinUse]
    simp
  | cons first rest =>
    obtain rfl : first_node = some first.1 := h.first_node
    obtain rfl : last_node = lastOr (first :: rest) none := h.last_node
    have hsplit := passed_append_reached (notBefore (cmpKey key)) (first :: rest)
    have hseek : seek heap (notBefore (cmpKey key)) (first :: rest).length (some first.1) = _ :=
      seek_eq hlinked.path le_rfl
    rw [OSStore.put]
    dsimp only
    rw [← hnode, ← hheap, hseek, bind_some]
    -- a new key stands where the search has stopped
    have hinsert : ∀ list' : OSStore α, (∀ d ∈ first :: rest, d.2.key ≠ key) →
        Placed ⟨some first.1, lastOr (first :: rest) none, (first :: rest).length, heap⟩ list'
          newnode node (passed (notBefore (cmpKey key)) (first :: rest))
          (reached (notBefore (cmpKey key)) (first :: rest)) →
        ∃ nodes', list'.Ordered nodes' ∧
          contentsOf nodes' = (contentsOf (first :: rest)).put key data := by
      intro list' hnew hplaced
      have hbefore : Ordered ⟨some first.1, lastOr (first :: rest) none, (first :: rest).length,
          memory⟩ (passed (notBefore (cmpKey key)) (first :: rest) ++
            reached (notBefore (cmpKey key)) (first :: rest)) := by
        rw [hsplit]
        exact h
      refine ⟨_, hplaced.ordered hbefore rfl (hsplit.symm ▸ hinUse) rfl
        (@pairwise_insert _ _ (newnode, node) h.keys hnew), ?_⟩
      rw [contentsOf_insert (hsplit.symm ▸ hnew), hsplit]
    cases hreached : reached (notBefore (cmpKey key)) (first :: rest) with
    | nil =>
      -- the key is greater than all others
      rw [hreached] at hsplit hinsert
      rw [append_nil] at hsplit
      have hnew : ∀ d ∈ first :: rest, d.2.key ≠ key := fun d hd =>
        key_ne_of_lt (lt_of_passed (hsplit.symm ▸ hd))
      rw [hsplit] at hinsert
      obtain ⟨list', heq, hplaced⟩ := @putLast_spec _
        ⟨some first.1, lastOr (first :: rest) none, (first :: rest).length, heap⟩ (first :: rest)
        newnode node hlinked hcell hfresh rfl rfl (cons_ne_nil _ _)
      obtain ⟨nodes', hordered, hcontents⟩ := hinsert list' hnew hplaced
      refine ⟨list', nodes', ?_, hordered, hcontents⟩
      dsimp only [firstOr_nil]
      rw [heq]
      rfl
    | cons cur l =>
      obtain ⟨cur, b⟩ := cur
      rw [hreached] at hsplit hinsert
      have hlinked' := hlinked
      rw [← hsplit] at hlinked'
      have hcur : heap cur = some ⟨lastOr (passed (notBefore (cmpKey key)) (first :: rest)) none,
          firstOr l none, b⟩ := (linked_append.mp hlinked').2.1
      dsimp only [firstOr_cons]
      rw [hcur, bind_some]
      by_cases hkey : cmpKey key b = .eq
      · -- the memory is given back
        rw [if_pos hkey]
        have hfree : free heap newnode = memory := by
          rw [free, hheap, Function.update_idem, ← hvalid, Function.update_eq_self]
        have hbefore : contentsOf (passed (notBefore (cmpKey key)) (first :: rest)) key = none :=
          contentsOf_eq_none fun d hd => key_ne_of_lt (lt_of_passed hd)
        have hstored : contentsOf (first :: rest) key = some b.data := by
          rw [← hsplit, contentsOf_append, hbefore, contentsOf_cons,
            if_pos (strcmpSign_eq_iff.mp hkey), none_or]
        exact ⟨⟨some first.1, lastOr (first :: rest) none, (first :: rest).length, memory⟩,
          first :: rest, by rw [hfree], h, (Contents.put_of_eq_some hstored).symm⟩
      · rw [if_neg hkey]
        have hnew : ∀ d ∈ first :: rest, d.2.key ≠ key := by
          intro d hd
          rw [← hsplit] at hd
          rcases mem_append.mp hd with hd | hd
          · exact key_ne_of_lt (lt_of_passed hd)
          · rcases mem_cons.mp hd with rfl | hd
            · exact fun heq => hkey (strcmpSign_eq_iff.mpr heq)
            · exact Ne.symm (key_ne_of_lt (lt_of_behind h.keys hreached d hd))
        obtain ⟨list', heq, hplaced⟩ := @putBefore_spec _
          ⟨some first.1, lastOr (first :: rest) none, (first :: rest).length, heap⟩ _ _ newnode node
          b cur hlinked' hcell (hsplit.symm ▸ hfresh) (hsplit.symm ▸ rfl) (hsplit.symm ▸ rfl)
        obtain ⟨nodes', hordered, hcontents⟩ := hinsert list' hnew hplaced
        exact ⟨list', nodes', by rw [heq]; rfl, hordered, hcontents⟩

/-! ## Runs -/

/-- What a store answers that has these contents, with its keys in order. -/
structure Answers (list : OSStore α) (keys : List Bytes) (contents : Contents α) : Prop where
  get : ∀ key, list.get key = some (contents key).join
  check : ∀ key, list.check key = some (contents key).isSome
  getPosition : ∀ key,
    list.getPosition key = some (if (contents key).isSome then keys.idxOf key + 1 else 0)
  nCheck : ∀ key, ∃ found, list.nCheck key = some found ∧
    (found = true ↔ ∃ k, (contents k).isSome = true ∧ k <+: key)

theorem isSome_contentsOf_iff :
    (contentsOf nodes key).isSome = true ↔ ∃ c ∈ nodes, c.2.key = key := by
  rw [contentsOf, isSome_map, find?_isSome]
  simp

theorem Ordered.contentsOf_eq (h : list.Ordered (l₁ ++ c :: l₂)) :
    contentsOf (l₁ ++ c :: l₂) c.2.key = some c.2.data ∧
      ((l₁ ++ c :: l₂).map fun c => c.2.key).idxOf c.2.key = l₁.length := by
  have hbefore : ∀ d ∈ l₁, d.2.key ≠ c.2.key := fun d hd =>
    key_ne_of_lt ((pairwise_append.mp h.keys).2.2 d hd c mem_cons_self)
  constructor
  · rw [contentsOf_append, contentsOf_eq_none hbefore, contentsOf_cons, if_pos rfl, none_or]
  · have hnot : c.2.key ∉ l₁.map fun c => c.2.key := fun hmem => by
      obtain ⟨d, hd, heq⟩ := List.mem_map.mp hmem
      exact hbefore d hd heq
    rw [map_append, idxOf_append_of_notMem hnot, map_cons, idxOf_cons_self,
      length_map, add_zero]

theorem Ordered.answers (h : list.Ordered nodes) :
    list.Answers (nodes.map fun c => c.2.key) (contentsOf nodes) := by
  refine ⟨fun key => ?_, fun key => ?_, fun key => ?_, fun key => ?_⟩
  · rcases h.lookup_strcmp key with ⟨hnone, hlookup⟩ | ⟨l₁, c, l₂, rfl, rfl, hlookup⟩
    · rw [OSStore.get, hlookup, contentsOf_eq_none hnone]
      rfl
    · rw [OSStore.get, hlookup, h.contentsOf_eq.1]
      rfl
  · rcases h.lookup_strcmp key with ⟨hnone, hlookup⟩ | ⟨l₁, c, l₂, rfl, rfl, hlookup⟩
    · rw [OSStore.check, hlookup, contentsOf_eq_none hnone]
      rfl
    · rw [OSStore.check, hlookup, h.contentsOf_eq.1]
      rfl
  · rcases h.lookup_strcmp key with ⟨hnone, hlookup⟩ | ⟨l₁, c, l₂, rfl, rfl, hlookup⟩
    · rw [OSStore.getPosition, hlookup, contentsOf_eq_none hnone]
      rfl
    · rw [OSStore.getPosition, hlookup, h.contentsOf_eq.1, h.contentsOf_eq.2]
      rfl
  · obtain ⟨found, hlookup, hfound⟩ := h.lookup_strncmp key
    refine ⟨found.isSome, by rw [OSStore.nCheck, hlookup]; rfl, hfound.trans ?_⟩
    simp only [isSome_contentsOf_iff]
    constructor
    · rintro ⟨c, hc, hprefix⟩
      exact ⟨_, ⟨c, hc, rfl⟩, hprefix⟩
    · rintro ⟨k, ⟨c, hc, rfl⟩, hprefix⟩
      exact ⟨c, hc, hprefix⟩

theorem Ordered.step (h : list.Ordered nodes) {call : Put α} (hvalid : list.Valid call) :
    ∃ list' nodes', Step list call list' ∧ list'.Ordered nodes' ∧
      contentsOf nodes' = Put.contents (contentsOf nodes) [call] := by
  obtain ⟨key, data, newnode⟩ := call
  cases newnode with
  | none => exact ⟨list, nodes, ⟨hvalid, 0, rfl⟩, h, rfl⟩
  | some newnode =>
    obtain ⟨list', nodes', heq, hordered, hcontents⟩ := h.put (hvalid newnode rfl) key data
    exact ⟨list', nodes', ⟨hvalid, 1, heq⟩, hordered, hcontents⟩

theorem Step.unique {call : Put α} {list₁ list₂ : OSStore α} (h₁ : Step list call list₁)
    (h₂ : Step list call list₂) : list₁ = list₂ := by
  obtain ⟨-, ret₁, h₁⟩ := h₁
  obtain ⟨-, ret₂, h₂⟩ := h₂
  exact (Prod.mk.inj (some.inj (h₁.symm.trans h₂))).2

theorem Ordered.run {list₀ : OSStore α} {calls : List (Put α)} (h : list₀.Ordered nodes)
    (hrun : Run Step list₀ calls list) :
    ∃ nodes', list.Ordered nodes' ∧ contentsOf nodes' = Put.contents (contentsOf nodes) calls := by
  induction hrun generalizing nodes with
  | nil => exact ⟨nodes, h, rfl⟩
  | cons hstep _ ih =>
    obtain ⟨list₁, nodes₁, hstep₁, h₁, hcontents₁⟩ := h.step hstep.1
    obtain rfl := hstep₁.unique hstep
    obtain ⟨nodes', h', hcontents⟩ := ih h₁
    exact ⟨nodes', h', by rw [hcontents, hcontents₁]; rfl⟩

/-- After any calls of `OSStore_Put` the nodes are one list in the order of their keys, the next
call can be made, and the store answers for the keys that were put, each with the pointer that was
put first. -/
theorem answers_of_run {calls : List (Put α)} (hrun : Run Step ({} : OSStore α) calls list) :
    ∃ nodes, list.Ordered nodes ∧
      list.Answers (nodes.map fun c => c.2.key) (Put.contents (fun _ => none) calls) ∧
      (∀ key, key ∈ nodes.map (fun c => c.2.key) ↔
        (Put.contents (fun _ => none) calls key).isSome = true) ∧
      ∀ call, list.Valid call → ∃ list', Step list call list' := by
  obtain ⟨nodes, h, hcontents⟩ := ordered_empty.run hrun
  have hcontents : contentsOf nodes = Put.contents (fun _ => none) calls := hcontents
  refine ⟨nodes, h, hcontents ▸ h.answers, fun key => ?_, fun call hvalid => ?_⟩
  · rw [← hcontents, isSome_contentsOf_iff, List.mem_map]
  · obtain ⟨list', -, hstep, -⟩ := h.step hvalid
    exact ⟨list', hstep⟩

/-- A store with a prefix of `abc`, put behind a greater key. -/
theorem answers_of_run_two :
    ∃ list : OSStore ℕ, Run Step {} [⟨lit "b", some 1, some 0⟩, ⟨lit "ab", none, some 1⟩] list ∧
      ∃ nodes, list.Ordered nodes ∧ list.Answers (nodes.map fun c => c.2.key) (Put.contents
        (fun _ => none) [⟨lit "b", some 1, some 0⟩, ⟨lit "ab", none, some 1⟩]) := by
  have hrun : ∃ list : OSStore ℕ,
      Run Step {} [⟨lit "b", some 1, some 0⟩, ⟨lit "ab", none, some 1⟩] list := by
    refine ⟨_, .cons ⟨fun r _ => rfl, 1, rfl⟩ (.cons ⟨fun r hr => ?_, 1, rfl⟩ (.nil _))⟩
    obtain rfl := some.inj hr
    rfl
  obtain ⟨list, hrun⟩ := hrun
  obtain ⟨nodes, hordered, hanswers, -⟩ := answers_of_run hrun
  exact ⟨list, hrun, nodes, hordered, hanswers⟩

end OSStore
