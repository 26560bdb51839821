import OssecHids.Lib.DoublyLinked
import Mathlib.Data.Int.Notation
import Mathlib.Data.List.Induction

/-!
# The queue of mails

`mail_list.c`, with the pointers that it sets. The queue is kept newest-first; it is drained into a
batch, oldest-first along `next`, which may be put back. A function has no result where it follows
a pointer to a node that is not in use, or where its loop takes more turns than it is given.

- `MailList.Holds`: the nodes that the pointers lead to, newest first, and their number;
- `Holds.addMailtoList`, `Holds.drainMailList`, `Holds.requeueMailBatch`: what the calls do to them.
-/

open DoublyLinked List Option Function

namespace Maild

variable {α : Type}

theorem exists_fuel {m fuel : ℕ} (h : m < fuel) : ∃ n, fuel = n + 1 :=
  Nat.exists_eq_add_one_of_ne_zero (Nat.ne_zero_of_lt h)

/-- The variables of `mail_list.c`, and the memory of the nodes. -/
structure MailList (α : Type) where
  n_node : Option ℕ := none
  lastnode : Option ℕ := none
  memoryused : ℤ := 0
  memorymaxsize : ℤ
  heap : Heap ℕ α := fun _ => none

namespace MailList

/-! ## Functions -/

/-- `OS_CreateMailList` -/
def create (maxsize : ℤ) : MailList α := { memorymaxsize := maxsize }

/-- How `OS_AddMailtoList` and `OS_RequeueMailBatch` free the last node; the mail is lost. -/
def removeLast (list : MailList α) (oldlast : ℕ) : Option (MailList α × α) :=
  (list.heap oldlast).bind fun node =>
  (setNextOf list.heap node.prev none).bind fun heap =>
  (if list.n_node = some oldlast then
    (heap oldlast).bind fun node =>
      (setPrevOf heap node.next none).map fun heap => (heap, node.next)
  else some (heap, list.n_node)).map fun (heap, n_node) =>
    ({ list with
      heap := free heap oldlast
      n_node := n_node
      lastnode := node.prev
      memoryused := list.memoryused - 1 }, node.data)

/-- `OS_AddMailtoList`, with the memory for the node: the list, and the mails that are lost. -/
def addMailtoList (list : MailList α) (ml : α) (new_node : ℕ) : Option (MailList α × List α) :=
  match list.n_node with
  | some tmp_node =>
    let heap := Function.update list.heap new_node (some ⟨none, some tmp_node, ml⟩)
    (setPrev heap tmp_node (some new_node)).bind fun heap =>
      let list := { list with
        heap := heap
        n_node := some new_node
        memoryused := list.memoryused + 1 }
      if list.memoryused > list.memorymaxsize then
        list.lastnode.bind fun oldlast =>
          (list.removeLast oldlast).map fun (list, ml) => (list, [ml])
      else some (list, [])
  | none =>
    some ({ list with
      heap := Function.update list.heap new_node (some ⟨none, none, ml⟩)
      n_node := some new_node
      lastnode := some new_node
      memoryused := 1 }, [])

/-- `OS_PopLastMail` -/
def popLastMail (list : MailList α) : Option (MailList α × Option ℕ) :=
  match list.lastnode with
  | none => some ({ list with n_node := none }, none)
  | some oldlast =>
    (list.heap oldlast).map fun node =>
      ({ list with lastnode := node.prev, memoryused := list.memoryused - 1 }, some oldlast)

/-- The loop of `drain_list_oldest_first`. -/
def drainLoop : ℕ → MailList α → Option ℕ → Option ℕ → Option (MailList α × Option ℕ)
  | 0, _, _, _ => none
  | fuel + 1, list, head, tail =>
    match list.lastnode with
    | none => some ({ list with n_node := none }, head)
    | some n =>
      (list.heap n).bind fun node =>
      (modify list.heap n fun node => { node with prev := none, next := none }).bind fun heap =>
      let list := { list with
        heap := heap
        lastnode := node.prev
        memoryused := list.memoryused - 1 }
      match head with
      | none => drainLoop fuel list (some n) (some n)
      | some head =>
        tail.bind fun tail =>
        (setNext list.heap tail (some n)).bind fun heap =>
          drainLoop fuel { list with heap := heap } (some head) (some n)

/-- `OS_DrainMailList` -/
def drainMailList (fuel : ℕ) (list : MailList α) : Option (MailList α × Option ℕ) :=
  drainLoop fuel list none none

/-- The first loop of `OS_RequeueMailBatch`, which turns the links of a batch around. -/
def reverseLoop : ℕ → Heap ℕ α → Option ℕ → Option ℕ → ℤ → Option (Heap ℕ α × Option ℕ × ℤ)
  | 0, _, _, _, _ => none
  | fuel + 1, heap, cur, prev_next, count =>
    match cur with
    | none => some (heap, prev_next, count)
    | some cur =>
      (heap cur).bind fun node =>
      (setNext heap cur prev_next).bind fun heap =>
        reverseLoop fuel heap node.next (some cur) (count + 1)

/-- `while (node->next) node = node->next;` -/
def lastFrom : ℕ → Heap ℕ α → ℕ → Option ℕ
  | 0, _, _ => none
  | fuel + 1, heap, node =>
    (heap node).bind fun cell =>
      match cell.next with
      | none => some node
      | some next => lastFrom fuel heap next

/-- `for (n = n_node; n->next; n = n->next) n->next->prev = n;` -/
def relinkLoop : ℕ → Heap ℕ α → ℕ → Option (Heap ℕ α)
  | 0, _, _ => none
  | fuel + 1, heap, n =>
    (heap n).bind fun cell =>
      match cell.next with
      | none => some heap
      | some next => (setPrev heap next (some n)).bind fun heap => relinkLoop fuel heap next

/-- The last loop of `OS_RequeueMailBatch`, with the mails that are lost. -/
def trimLoop : ℕ → MailList α → List α → Option (MailList α × List α)
  | 0, _, _ => none
  | fuel + 1, list, lost =>
    if list.memoryused > list.memorymaxsize then
      match list.lastnode with
      | none => some (list, lost)
      | some oldlast =>
        (list.removeLast oldlast).bind fun (list, ml) => trimLoop fuel list (lost ++ [ml])
    else some (list, lost)

/-- How `OS_RequeueMailBatch` puts the nodes of a reversed batch in front of the queue. -/
def attach (fuel : ℕ) (heap : Heap ℕ α) (newest : ℕ) (n_node : Option ℕ) : Option (Heap ℕ α) :=
  match n_node with
  | none => some heap
  | some n_node =>
    (lastFrom fuel heap newest).bind fun oldest =>
    (setNext heap oldest (some n_node)).bind fun heap => setPrev heap n_node (some oldest)

/-- `OS_RequeueMailBatch`: the list, and the mails that are lost. -/
def requeueMailBatch (fuel : ℕ) (list : MailList α) (batch : Option ℕ) :
    Option (MailList α × List α) :=
  match batch with
  | none => some (list, [])
  | some batch =>
    (reverseLoop fuel list.heap (some batch) none 0).bind fun (heap, newest, count) =>
    newest.bind fun newest =>
    (attach fuel heap newest list.n_node).bind fun heap =>
    (lastFrom fuel heap newest).bind fun lastnode =>
    (setPrev heap newest none).bind fun heap =>
    (relinkLoop fuel heap newest).bind fun heap =>
      trimLoop fuel { list with
        heap := heap
        n_node := some newest
        lastnode := some lastnode
        memoryused := list.memoryused + count } []

/-! ## The nodes of the queue -/

/-- The pointers lead to these nodes, newest first, and their number is kept. -/
structure Holds (list : MailList α) (nodes : List (ℕ × α)) : Prop where
  linked : Linked list.heap none nodes none
  n_node : list.n_node = firstOr nodes none
  lastnode : list.lastnode = lastOr nodes none
  memoryused : list.memoryused = nodes.length

/-- The mails, in the order in which they are drained. -/
def queue (nodes : List (ℕ × α)) : List α := (nodes.map Prod.snd).reverse

variable {list list' : MailList α} {nodes l l' acc : List (ℕ × α)} {r : ℕ} {a ml : α}
  {heap : Heap ℕ α} {p q : Option ℕ}

theorem holds_create (maxsize : ℤ) : (create maxsize : MailList α).Holds [] :=
  ⟨trivial, rfl, rfl, rfl⟩

/-- The node that is freed is the oldest one. -/
theorem Holds.removeLast (h : list.Holds (l ++ [(r, a)])) :
    ∃ list', list.removeLast r = some (list', a) ∧ list'.Holds l ∧
      list'.memorymaxsize = list.memorymaxsize ∧
      Frame ((l ++ [(r, a)]).map Prod.fst) list.heap list'.heap := by
  obtain ⟨heap₁, heap₂, hset, hset', -, hlinked⟩ := h.linked.unlink
  obtain rfl : heap₁ = heap₂ := some.inj hset'
  have hset : setNextOf list.heap (lastOr l none) none = some heap₁ := hset
  have hcell : list.heap r = some ⟨lastOr l none, none, a⟩ := (linked_append.mp h.linked).2.1
  have hused : list.memoryused - 1 = l.length := by
    rw [h.memoryused, length_append, length_singleton]
    omega
  have hframe : Frame ((l ++ [(r, a)]).map Prod.fst) list.heap (free heap₁ r) := by
    refine (frame_setNextOf hset fun s hs => ?_).trans (frame_update (by simp) none)
    rw [map_append, mem_append]
    exact .inl (mem_of_lastOr hs)
  rw [append_nil] at hlinked
  rw [MailList.removeLast, hcell, bind_some]
  rw [hset, bind_some, h.n_node]
  cases l with
  | nil =>
    obtain rfl : list.heap = heap₁ := some.inj hset
    rw [nil_append, firstOr_cons, if_pos rfl, hcell]
    exact ⟨_, rfl, ⟨hlinked, rfl, rfl, hused⟩, rfl, hframe⟩
  | cons c l =>
    -- the first node is another one
    have hne : some c.1 ≠ some r := by
      intro heq
      have hnodup := h.linked.nodup
      rw [map_append, map_cons, cons_append, nodup_cons] at hnodup
      exact hnodup.1 (by simp [some.inj heq])
    rw [cons_append, firstOr_cons, if_neg hne]
    exact ⟨_, rfl, ⟨hlinked, rfl, rfl, hused⟩, rfl, hframe⟩

theorem queue_concat (l : List (ℕ × α)) (r : ℕ) (a : α) : queue (l ++ [(r, a)]) = a :: queue l := by
  simp [queue]

theorem length_queue (l : List (ℕ × α)) : (queue l).length = l.length := by
  simp [queue]

theorem queue_take (l : List (ℕ × α)) (n : ℕ) :
    queue (l.take n) = (queue l).drop (l.length - n) := by
  rw [queue, map_take, reverse_take, length_map, queue]

/-- Nodes are freed from the oldest one on, as long as there are too many. -/
theorem Holds.trimLoop (h : list.Holds l) (lost : List α) :
    ∃ list', (∀ fuel > l.length, trimLoop fuel list lost =
        some (list', lost ++ (queue l).take (l.length - list.memorymaxsize.toNat))) ∧
      list'.Holds (l.take list.memorymaxsize.toNat) ∧
      list'.memorymaxsize = list.memorymaxsize ∧ Frame (l.map Prod.fst) list.heap list'.heap := by
  induction l using List.reverseRecOn generalizing list lost with
  | nil =>
    refine ⟨list, fun fuel hfuel => ?_, by simpa using h, rfl, .refl _ _⟩
    obtain ⟨fuel, rfl⟩ := exists_fuel hfuel
    rw [MailList.trimLoop, h.lastnode]
    simp [queue]
  | append_singleton l c ih =>
    obtain ⟨r, a⟩ := c
    have hused := h.memoryused
    rw [length_append, length_singleton] at hused
    rw [length_append, length_singleton, queue_concat]
    by_cases hmany : list.memoryused > list.memorymaxsize
    case pos =>
      obtain ⟨list₁, hremove, hholds, hmax, hframe⟩ := h.removeLast
      obtain ⟨list', htrim, hholds', hmax', hframe'⟩ := ih hholds (lost ++ [a])
      have hle : list.memorymaxsize.toNat ≤ l.length := by omega
      rw [hmax] at htrim hholds' hmax'
      refine ⟨list', fun fuel hfuel => ?_, ?_, hmax', hframe.trans (hframe'.mono (by simp))⟩
      · obtain ⟨fuel, rfl⟩ := exists_fuel hfuel
        rw [MailList.trimLoop, if_pos hmany, h.lastnode, lastOr_concat]
        dsimp only
        rw [hremove, bind_some]
        rw [htrim fuel (Nat.lt_of_succ_lt_succ hfuel), Nat.sub_add_comm hle, take_succ_cons,
          append_assoc, singleton_append]
      · rwa [take_append_of_le_length hle]
    case neg =>
      have hle : l.length + 1 ≤ list.memorymaxsize.toNat := by omega
      rw [Nat.sub_eq_zero_of_le hle, take_zero, append_nil]
      refine ⟨list, fun fuel hfuel => ?_, ?_, rfl, .refl _ _⟩
      · obtain ⟨fuel, rfl⟩ := exists_fuel hfuel
        rw [MailList.trimLoop, if_neg hmany]
      · rwa [take_of_length_le (by simpa using hle)]

theorem Holds.notMem (h : list.Holds l) (hr : list.heap r = none) : r ∉ l.map Prod.fst := by
  intro hmem
  obtain ⟨c, hc, rfl⟩ := mem_map.mp hmem
  obtain ⟨prev, next, hcell⟩ := h.linked.cell c hc
  rw [hr] at hcell
  cases hcell

/-- A mail is added as the newest one; if there are too many then, the oldest one is freed. -/
theorem Holds.addMailtoList (h : list.Holds l) (hnew : list.heap r = none)
    (hmax : 1 ≤ list.memorymaxsize) (hlen : (l.length : ℤ) ≤ list.memorymaxsize) (ml : α) :
    ∃ list', list.addMailtoList ml r = some (list',
        (queue ((r, ml) :: l)).take (l.length + 1 - list.memorymaxsize.toNat)) ∧
      list'.Holds (((r, ml) :: l).take list.memorymaxsize.toNat) ∧
      list'.memorymaxsize = list.memorymaxsize ∧
      Frame (((r, ml) :: l).map Prod.fst) list.heap list'.heap := by
  have hr := h.notMem hnew
  have hupdate : Frame (((r, ml) :: l).map Prod.fst) list.heap
      (Function.update list.heap r (some ⟨none, firstOr l none, ml⟩)) :=
    frame_update mem_cons_self _
  rw [MailList.addMailtoList, h.n_node]
  cases l with
  | nil =>
    have hle : 1 ≤ list.memorymaxsize.toNat := by omega
    have htake : ([(r, ml)] : List (ℕ × α)).take list.memorymaxsize.toNat = [(r, ml)] :=
      take_of_length_le hle
    refine ⟨{ list with
      heap := Function.update list.heap r (some ⟨none, none, ml⟩)
      n_node := some r
      lastnode := some r
      memoryused := 1 }, ?_, ?_, rfl, hupdate⟩
    · rw [length_nil, Nat.sub_eq_zero_of_le hle]
      rfl
    · rw [htake]
      exact ⟨⟨update_self .., trivial⟩, rfl, rfl, rfl⟩
  | cons c l =>
    obtain ⟨s, b⟩ := c
    have hlinked := h.linked.update hr (some ⟨none, some s, ml⟩)
    have hs : s ∉ l.map Prod.fst := (nodup_cons.mp h.linked.nodup).1
    obtain ⟨heap', hset, hlinked'⟩ := hlinked.setPrev hs (some r)
    have hsr : r ≠ s := fun heq => hr (by simp [heq])
    have hcell : heap' r = some ⟨none, some s, ml⟩ :=
      (modify_of_ne hset hsr).trans (update_self ..)
    have hframe := hupdate.trans (frame_modify hset (by simp))
    -- the list with the new node
    let list₁ : MailList α :=
      { list with heap := heap', n_node := some r, memoryused := list.memoryused + 1 }
    have hholds : list₁.Holds ((r, ml) :: (s, b) :: l) := by
      refine ⟨⟨hcell, hlinked'⟩, rfl, ?_, ?_⟩
      · show list.lastnode = _
        rw [h.lastnode, lastOr_cons, lastOr_cons, lastOr_cons]
      · show list.memoryused + 1 = _
        rw [h.memoryused]
        rfl
    have hused : list.memoryused + 1 = l.length + 2 := hholds.memoryused
    rw [length_cons] at hlen
    rw [firstOr_cons]
    dsimp only
    rw [hset, bind_some]
    by_cases hmany : list.memoryused + 1 > list.memorymaxsize
    case neg =>
      have hle : l.length + 2 ≤ list.memorymaxsize.toNat := by omega
      refine ⟨list₁, ?_, ?_, rfl, hframe⟩
      · rw [if_neg hmany, length_cons, Nat.sub_eq_zero_of_le hle]
        rfl
      · rwa [take_of_length_le (by rw [length_cons, length_cons]; exact hle)]
    case pos =>
      have heq : list.memorymaxsize.toNat = l.length + 1 := by omega
      obtain hnil | ⟨l', ⟨t, m⟩, hl'⟩ := eq_nil_or_concat' ((r, ml) :: (s, b) :: l)
      · cases hnil
      have hlen' := congrArg List.length hl'
      rw [length_cons, length_cons, length_append, length_singleton] at hlen'
      rw [hl'] at hholds hframe ⊢
      obtain ⟨list', hremove, hholds', hmax', hframe'⟩ := hholds.removeLast
      have hlast : list₁.lastnode = some t := hholds.lastnode.trans lastOr_concat
      have hlost : (list₁.lastnode.bind fun oldlast =>
          (list₁.removeLast oldlast).map fun (list, ml) => (list, [ml])) = some (list', [m]) := by
        rw [hlast, bind_some, hremove]
        rfl
      refine ⟨list', (if_pos hmany).trans (hlost.trans ?_), ?_, hmax', hframe.trans hframe'⟩
      · rw [queue_concat, length_cons, heq]
        simp
      · rwa [heq, take_left' (by omega)]

/-- The drain takes the nodes of the queue from the oldest one on, and appends them to those that
it took before. The nodes that are left still lead to the one that was taken last. -/
theorem drainLoop_eq (hl : Linked list.heap none l q) (hacc : Path list.heap acc none)
    (hnodup : ((l ++ acc).map Prod.fst).Nodup) (hlast : list.lastnode = lastOr l none) :
    ∃ heap, (∀ fuel > l.length, drainLoop fuel list (firstOr acc none) (lastOr acc none) =
        some ({ list with
          heap := heap
          n_node := none
          lastnode := none
          memoryused := list.memoryused - l.length }, firstOr (acc ++ l.reverse) none)) ∧
      Path heap (acc ++ l.reverse) none ∧ Frame ((l ++ acc).map Prod.fst) list.heap heap := by
  induction l using List.reverseRecOn generalizing list acc q with
  | nil =>
    refine ⟨list.heap, fun fuel hfuel => ?_, by simpa using hacc, .refl _ _⟩
    obtain ⟨fuel, rfl⟩ := exists_fuel hfuel
    rw [drainLoop, hlast]
    simp
  | append_singleton l c ih =>
    obtain ⟨r, a⟩ := c
    obtain ⟨hl, hcell, -⟩ := linked_append.mp hl
    rw [append_assoc, map_append, nodup_append', map_append, nodup_append'] at hnodup
    obtain ⟨hnodupl, ⟨-, hnodupacc, hr⟩, hdisjoint⟩ := hnodup
    have hrl : r ∉ l.map Prod.fst := fun hmem => hdisjoint hmem (by simp)
    have hracc : r ∉ acc.map Prod.fst := fun hmem => hr (by simp) hmem
    have hnodup' : ((acc ++ [(r, a)]).map Prod.fst).Nodup := by
      rw [map_append, nodup_append']
      exact ⟨hnodupacc, nodup_singleton _, fun s hs hs' => hr hs' hs⟩
    -- the node is taken out of the queue, and its links are cleared
    let heap₁ := Function.update list.heap r (some ⟨none, none, a⟩)
    have hmodify : modify list.heap r (fun node => { node with prev := none, next := none }) =
      some heap₁ := modify_of_cell hcell _
    obtain ⟨heap₂, hset, hacc', hframe⟩ := (hacc.modify hracc hmodify).concat
      (update_self ..) hnodup'
    have hl₂ : Linked heap₂ none l (some r) := by
      refine (hl.modify hrl hmodify).frame hframe fun s hs hs' => hdisjoint hs ?_
      rw [mem_append]
      exact .inr hs'
    have hnodup₂ : ((l ++ (acc ++ [(r, a)])).map Prod.fst).Nodup := by
      rw [map_append, nodup_append']
      refine ⟨hnodupl, hnodup', fun s hs hs' => hdisjoint hs ?_⟩
      simpa [or_comm] using hs'
    let list₁ : MailList α := { list with
      heap := heap₂
      lastnode := lastOr l none
      memoryused := list.memoryused - 1 }
    have hlast₁ : list₁.lastnode = lastOr l none := rfl
    obtain ⟨heap', hdrain, hpath, hframe'⟩ := ih hl₂ hacc' hnodup₂ hlast₁
    have hlist : (acc ++ [(r, a)]) ++ l.reverse = acc ++ (l ++ [(r, a)]).reverse := by simp
    rw [hlist] at hdrain hpath
    refine ⟨heap', fun fuel hfuel => ?_, hpath, ?_⟩
    · rw [length_append, length_singleton] at hfuel
      obtain ⟨fuel, rfl⟩ := exists_fuel hfuel
      have hdrain := hdrain fuel (Nat.lt_of_succ_lt_succ hfuel)
      have hused : list.memoryused - 1 - l.length =
          list.memoryused - ((l ++ [(r, a)]).length : ℕ) := by
        rw [length_append, length_singleton]
        omega
      rw [drainLoop, hlast, lastOr_concat]
      dsimp only
      rw [hcell, bind_some, hmodify, bind_some, ← hused]
      cases acc with
      | nil =>
        obtain rfl : heap₁ = heap₂ := some.inj hset
        exact hdrain
      | cons c acc =>
        obtain ⟨t, ht⟩ : ∃ t, lastOr (c :: acc) none = some t := by
          rw [lastOr_none, getLast?_cons]
          exact ⟨_, rfl⟩
        rw [ht] at hset ⊢
        have hset : setNext heap₁ t (some r) = some heap₂ := hset
        rw [lastOr_concat] at hdrain
        rw [firstOr_cons]
        dsimp only
        rw [bind_some, hset]
        exact hdrain
    · refine (frame_modify hmodify (by simp)).trans ?_
      refine (hframe.mono ?_).trans (hframe'.mono ?_)
      · simp
      · intro s
        simp only [map_append, mem_append, map_singleton, mem_singleton]
        tauto

/-- The queue is drained into a batch of its nodes, oldest first. -/
theorem Holds.drainMailList (h : list.Holds l) :
    ∃ list', (∀ fuel > l.length,
        drainMailList fuel list = some (list', firstOr l.reverse none)) ∧
      list'.Holds [] ∧ list'.memorymaxsize = list.memorymaxsize ∧
      Path list'.heap l.reverse none ∧ Frame (l.map Prod.fst) list.heap list'.heap := by
  have hnodup : ((l ++ []).map Prod.fst).Nodup := by
    rw [append_nil]
    exact h.linked.nodup
  have hacc : Path list.heap [] none := trivial
  obtain ⟨heap, heq, hpath, hframe⟩ := drainLoop_eq h.linked hacc hnodup h.lastnode
  rw [append_nil] at hframe
  refine ⟨_, heq, ⟨trivial, rfl, rfl, ?_⟩, rfl, hpath, hframe⟩
  show list.memoryused - l.length = 0
  rw [h.memoryused]
  omega

/-! ## Putting a batch back -/

/-- The links of a batch are turned around, in front of the nodes that were turned before. -/
theorem reverseLoop_eq (hl : Path heap l none) (hacc : Path heap acc none)
    (hnodup : ((l ++ acc).map Prod.fst).Nodup) (count : ℤ) :
    ∃ heap', (∀ fuel > l.length, reverseLoop fuel heap (firstOr l none) (firstOr acc none) count =
        some (heap', firstOr (l.reverse ++ acc) none, count + l.length)) ∧
      Path heap' (l.reverse ++ acc) none ∧ Frame (l.map Prod.fst) heap heap' := by
  induction l generalizing heap acc count with
  | nil =>
    refine ⟨heap, fun fuel hfuel => ?_, hacc, .refl _ _⟩
    obtain ⟨fuel, rfl⟩ := exists_fuel hfuel
    rw [firstOr_nil, reverseLoop]
    simp
  | cons c l ih =>
    obtain ⟨r, a⟩ := c
    obtain ⟨⟨prev, hcell⟩, hl⟩ := hl
    rw [cons_append, map_cons, nodup_cons, map_append, mem_append, not_or] at hnodup
    obtain ⟨⟨hrl, hracc⟩, hnodup⟩ := hnodup
    have hset : setNext heap r (firstOr acc none) = _ := modify_of_cell hcell _
    have hacc' : Path _ ((r, a) :: acc) none :=
      ⟨⟨prev, update_self ..⟩, hacc.modify hracc hset⟩
    have hnodup' : ((l ++ (r, a) :: acc).map Prod.fst).Nodup := by
      rw [map_append, map_cons, nodup_middle, nodup_cons, mem_append, not_or]
      exact ⟨⟨hrl, hracc⟩, hnodup⟩
    obtain ⟨heap', hreverse, hpath, hframe⟩ := ih (hl.modify hrl hset) hacc' hnodup' (count + 1)
    have hcount : count + 1 + (l.length : ℕ) = count + ((l.length + 1 : ℕ) : ℤ) := by omega
    have hlist : (l.reverse ++ (r, a) :: acc) = ((r, a) :: l).reverse ++ acc := by simp
    rw [hlist, hcount] at hreverse
    rw [hlist] at hpath
    refine ⟨heap', fun fuel hfuel => ?_, hpath, (frame_modify hset mem_cons_self).trans
      (hframe.mono (subset_cons_self ..))⟩
    obtain ⟨fuel, rfl⟩ := exists_fuel hfuel
    rw [firstOr_cons, reverseLoop, hcell, bind_some, hset, bind_some]
    exact hreverse fuel (Nat.lt_of_succ_lt_succ hfuel)

theorem lastFrom_eq (h : Path heap ((r, a) :: l) none) {fuel : ℕ} (hfuel : l.length < fuel) :
    lastFrom fuel heap r = lastOr ((r, a) :: l) none := by
  induction l generalizing r a fuel with
  | nil =>
    obtain ⟨fuel, rfl⟩ := exists_fuel hfuel
    obtain ⟨⟨prev, hcell⟩, -⟩ := h
    rw [lastFrom, hcell]
    rfl
  | cons c l ih =>
    obtain ⟨fuel, rfl⟩ := exists_fuel hfuel
    obtain ⟨⟨prev, hcell⟩, hl⟩ := h
    rw [lastFrom, hcell, lastOr_cons, lastOr_cons, ← lastOr_cons]
    exact ih hl (Nat.lt_of_succ_lt_succ hfuel)

/-- The backward links are set along the forward ones. -/
theorem relinkLoop_eq (hcell : heap r = some ⟨p, firstOr l none, a⟩) (hl : Path heap l none)
    (hnodup : (((r, a) :: l).map Prod.fst).Nodup) :
    ∃ heap', (∀ fuel > l.length, relinkLoop fuel heap r = some heap') ∧
      Linked heap' p ((r, a) :: l) none ∧ Frame (l.map Prod.fst) heap heap' := by
  induction l generalizing heap r a p with
  | nil =>
    refine ⟨heap, fun fuel hfuel => ?_, ⟨hcell, trivial⟩, .refl _ _⟩
    obtain ⟨fuel, rfl⟩ := exists_fuel hfuel
    rw [relinkLoop, hcell]
    rfl
  | cons c l ih =>
    obtain ⟨s, b⟩ := c
    obtain ⟨⟨prev, hs⟩, hl⟩ := hl
    rw [map_cons, nodup_cons] at hnodup
    obtain ⟨hr, hnodup⟩ := hnodup
    have hsl : s ∉ l.map Prod.fst := (nodup_cons.mp hnodup).1
    have hset : setPrev heap s (some r) = _ := modify_of_cell hs _
    obtain ⟨heap', hrelink, hlinked, hframe⟩ := ih (update_self ..) (hl.modify hsl hset)
      hnodup
    have hrs : r ≠ s := fun heq => hr (by simp [heq])
    have hrl : r ∉ l.map Prod.fst := fun hmem => hr (mem_cons_of_mem _ hmem)
    refine ⟨heap', fun fuel hfuel => ?_, ⟨?_, hlinked⟩,
      (frame_modify hset mem_cons_self).trans (hframe.mono (subset_cons_self ..))⟩
    · obtain ⟨fuel, rfl⟩ := exists_fuel hfuel
      rw [relinkLoop, hcell, bind_some, firstOr_cons]
      dsimp only
      rw [hset, bind_some]
      exact hrelink fuel (Nat.lt_of_succ_lt_succ hfuel)
    · rw [hframe r hrl, modify_of_ne hset hrs, hcell]

theorem queue_reverse (l : List (ℕ × α)) : queue l.reverse = l.map Prod.snd := by
  rw [queue, map_reverse, reverse_reverse]

/-- A batch is put back into a queue that is empty. -/
theorem Holds.requeueMailBatch (h : list.Holds []) (hl : Path list.heap l none)
    (hnodup : (l.map Prod.fst).Nodup) :
    ∃ list', (∀ fuel > l.length, requeueMailBatch fuel list (firstOr l none) = some (list',
        (l.map Prod.snd).take (l.length - list.memorymaxsize.toNat))) ∧
      list'.Holds (l.reverse.take list.memorymaxsize.toNat) ∧
      list'.memorymaxsize = list.memorymaxsize ∧ Frame (l.map Prod.fst) list.heap list'.heap := by
  cases l with
  | nil => exact ⟨list, by simp [MailList.requeueMailBatch], by simpa using h, rfl, .refl _ _⟩
  | cons c l =>
    have hacc : Path list.heap [] none := trivial
    obtain ⟨heap₁, hreverse, hpath, hframe₁⟩ :=
      reverseLoop_eq hl hacc (by rwa [append_nil]) 0
    rw [append_nil] at hpath hreverse
    -- the batch, newest first
    obtain ⟨⟨r, a⟩, l', hl'⟩ := exists_cons_of_ne_nil (reverse_ne_nil_iff.mpr (cons_ne_nil c l))
    have hlen : (c :: l).length = l'.length + 1 := by
      rw [← length_reverse, hl', length_cons]
    have hmem : ∀ s, s ∈ (c :: l).map Prod.fst ↔ s ∈ ((r, a) :: l').map Prod.fst := by
      intro s
      rw [← hl', map_reverse, mem_reverse]
    have hnodup' : (((r, a) :: l').map Prod.fst).Nodup := by
      rw [← hl', map_reverse, nodup_reverse]
      exact hnodup
    rw [hl'] at hpath
    rw [hl', firstOr_cons] at hreverse
    have hr : r ∉ l'.map Prod.fst := (nodup_cons.mp hnodup').1
    have hlast := fun fuel (hfuel : l'.length < fuel) => lastFrom_eq hpath hfuel
    obtain ⟨⟨prev, hcell⟩, hpath'⟩ := hpath
    have hset : setPrev heap₁ r none = _ := modify_of_cell hcell _
    obtain ⟨heap₂, hrelink, hlinked, hframe₂⟩ := relinkLoop_eq (update_self ..)
      (hpath'.modify hr hset) hnodup'
    obtain ⟨t, ht⟩ : ∃ t, lastOr ((r, a) :: l') none = some t := by
      rw [lastOr_none, getLast?_cons]
      exact ⟨_, rfl⟩
    let list₁ : MailList α := { list with
      heap := heap₂
      n_node := some r
      lastnode := some t
      memoryused := list.memoryused + (0 + ((c :: l).length : ℕ)) }
    have hholds : list₁.Holds ((r, a) :: l') := by
      refine ⟨hlinked, rfl, ht.symm, ?_⟩
      show list.memoryused + (0 + ((c :: l).length : ℕ)) = _
      rw [h.memoryused, hlen, length_nil, length_cons]
      omega
    obtain ⟨list', htrim, hholds', hmax, hframe₃⟩ := hholds.trimLoop []
    have hqueue : queue ((r, a) :: l') = (c :: l).map Prod.snd := by rw [← hl', queue_reverse]
    rw [hqueue, nil_append, length_cons, ← hlen] at htrim
    refine ⟨list', fun fuel hfuel => ?_, by rwa [hl'], hmax, ?_⟩
    · have hfuel' : l'.length < fuel := by omega
      rw [firstOr_cons, firstOr_nil] at hreverse
      rw [firstOr_cons, MailList.requeueMailBatch, hreverse fuel hfuel, bind_some]
      dsimp only
      rw [bind_some, h.n_node, firstOr_nil, attach, bind_some, hlast fuel hfuel', ht,
        bind_some, hset, bind_some, hrelink fuel hfuel', bind_some]
      exact htrim fuel hfuel
    · refine hframe₁.trans ((frame_modify hset ((hmem r).mpr mem_cons_self)).trans ?_)
      refine (hframe₂.mono fun s hs => (hmem s).mpr (mem_cons_of_mem _ hs)).trans ?_
      exact hframe₃.mono fun s hs => (hmem s).mpr hs

theorem Holds.eq_nil (h : list.Holds l) (hempty : list.n_node = none ∨ list.lastnode = none) :
    l = [] := by
  rw [h.n_node, h.lastnode, firstOr_none, lastOr_none] at hempty
  simpa using hempty

theorem Holds.popLastMail (h : list.Holds l) (hempty : list.lastnode = none) :
    list.popLastMail = some (list, none) := by
  obtain rfl := h.eq_nil (.inr hempty)
  have hnode : list.n_node = none := h.n_node
  obtain ⟨n_node, lastnode, memoryused, memorymaxsize, heap⟩ := list
  obtain rfl : n_node = none := hnode
  obtain rfl : lastnode = none := hempty
  rfl

end MailList

end Maild
