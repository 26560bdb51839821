import Mathlib.Data.List.DropRight
import OssecHids.Lib.DoublyLinked
import OssecHids.Lib.Transition

/-!
# The list of events

`OS_AddEvent_List`, with the pointers that it sets. The list is kept newest-first; a call that takes
it over its limit moves nodes from its end to a chain, and frees the chain. A function has no result
where it follows a pointer to a node that is not in use, or where its loop takes more turns than
there are nodes.

- `EventList.Holds`: the nodes that the pointers lead to, newest first, and their number;
- `EventList.retained`: which events are left when an event has come in;
- `EventList.Holds.evictLoop`, `EventList.Holds.addEvent`: what a call takes off the end;
- `EventList.evicted_of_run`: a list that has been filled from empty, and its next call.
-/

open DoublyLinked Transition List Option Function

namespace Analysisd

/-- An `Eventinfo`, as far as the list looks at it. -/
structure ListEvent (α : Type) where
  time : ℤ
  /-- The flag `EF_LIST_RETAINED`. -/
  retained : Bool
  data : α
deriving DecidableEq

/-- `EventList`, with the memory of its nodes -/
structure EventList (α : Type) where
  first : Option ℕ := none
  last : Option ℕ := none
  memoryused : ℤ := 0
  memorymaxsize : ℤ
  heap : Heap ℕ (ListEvent α) := fun _ => none

namespace EventList

variable {α : Type}

/-! ## Functions -/

/-- `os_eventlist_init` -/
def init (maxsize : ℤ) : EventList α := { memorymaxsize := maxsize }

/-- The loop that takes nodes off the end of the list; `victims` is the chain of these nodes. -/
def evictLoop (max_freq time : ℤ) :
    ℕ → ℕ → EventList α → Option ℕ → Option (EventList α × Option ℕ)
  | 0, _, _, _ => none
  | fuel + 1, i, list, victims =>
    match list.last with
    | none => some (list, victims)
    | some oldlast =>
      (list.heap oldlast).bind fun node =>
      if i < 10 ∨ time - node.data.time > max_freq then
        (setNextOf list.heap node.prev none).bind fun heap =>
        (setPrev heap oldlast none).bind fun heap =>
        (setNext heap oldlast victims).bind fun heap =>
          evictLoop max_freq time fuel (i + 1)
            { list with
              heap := heap
              first := if node.prev = none then none else list.first
              last := node.prev
              memoryused := list.memoryused - 1 } (some oldlast)
      else some (list, victims)

/-- The loop that frees the nodes of a chain, with their events. -/
def freeVictims : ℕ → Heap ℕ (ListEvent α) → Option ℕ →
    Option (Heap ℕ (ListEvent α) × List (ListEvent α))
  | _, heap, none => some (heap, [])
  | 0, _, some _ => none
  | fuel + 1, heap, some node =>
    (heap node).bind fun cell =>
      (freeVictims fuel (free heap node) cell.next).map fun (heap, events) =>
        (heap, cell.data :: events)

/-- `OS_AddEvent_List`, with the memory for the node: the list, and the events that are freed. -/
def addEvent (max_freq : ℤ) (list : EventList α) (lf : ListEvent α) (new_node : ℕ) :
    Option (EventList α × List (ListEvent α)) :=
  let lf := { lf with retained := true }
  match list.first with
  | some tmp_node =>
    let heap := Function.update list.heap new_node (some ⟨none, some tmp_node, lf⟩)
    (setPrev heap tmp_node (some new_node)).bind fun heap =>
      let list := { list with
        heap := heap
        first := some new_node
        memoryused := list.memoryused + 1 }
      if list.memoryused > list.memorymaxsize then
        let nodes := list.memoryused.toNat
        (evictLoop max_freq lf.time (nodes + 1) 0 list none).bind fun (list, victims) =>
          (freeVictims nodes list.heap victims).map fun (heap, freed) =>
            ({ list with heap := heap }, freed)
      else some (list, [])
  | none =>
    -- the limit is not looked at here
    some ({ list with
      heap := Function.update list.heap new_node (some ⟨none, none, lf⟩)
      first := some new_node
      last := some new_node
      memoryused := 1 }, [])

/-! ## Contents -/

/-- The nodes that the pointers lead to, newest first, and their number. -/
structure Holds (list : EventList α) (nodes : List (ℕ × ListEvent α)) : Prop where
  linked : Linked list.heap none nodes none
  first_eq : list.first = firstOr nodes none
  last_eq : list.last = lastOr nodes none
  memoryused_eq : list.memoryused = nodes.length

/-- The events of some nodes. -/
def eventsOf (nodes : List (ℕ × ListEvent α)) : List (ListEvent α) := nodes.map Prod.snd

/-- The event is too old for the time that is reached. -/
def outdated (max_freq time : ℤ) (lf : ListEvent α) : Bool := time - lf.time > max_freq

/-- What the loop leaves of some events after `i` turns. -/
def leftFrom (max_freq time : ℤ) (i : ℕ) (events : List (ListEvent α)) : List (ListEvent α) :=
  (events.rdrop (10 - i)).rdropWhile (outdated max_freq time)

/-- Which events are left when an event has come in: all of them, up to the limit; beyond it, the
ten oldest ones go and with them those that are outdated. -/
def retained (max_freq memorymaxsize : ℤ) (events : List (ListEvent α)) (lf : ListEvent α) :
    List (ListEvent α) :=
  let lf := { lf with retained := true }
  if events = [] ∨ (events.length + 1 : ℤ) ≤ memorymaxsize then lf :: events
  else leftFrom max_freq lf.time 0 (lf :: events)

variable {max_freq time memorymaxsize : ℤ} {list : EventList α}
  {nodes victims : List (ℕ × ListEvent α)} {events : List (ListEvent α)} {lf : ListEvent α}

@[simp]
theorem eventsOf_append (l₁ l₂ : List (ℕ × ListEvent α)) :
    eventsOf (l₁ ++ l₂) = eventsOf l₁ ++ eventsOf l₂ := map_append

theorem leftFrom_nil (i : ℕ) : leftFrom max_freq time i ([] : List (ListEvent α)) = [] := by
  simp [leftFrom]

theorem leftFrom_concat (i : ℕ) (events : List (ListEvent α)) (lf : ListEvent α) :
    leftFrom max_freq time i (events ++ [lf]) =
      if i < 10 ∨ time - lf.time > max_freq then leftFrom max_freq time (i + 1) events
      else events ++ [lf] := by
  by_cases hi : i < 10
  · obtain ⟨k, hk⟩ : ∃ k, 10 - i = k + 1 := ⟨9 - i, by omega⟩
    have hk' : 10 - (i + 1) = k := by omega
    rw [if_pos (.inl hi), leftFrom, leftFrom, hk, hk', rdrop_concat_succ]
  · have hzero : 10 - i = 0 := by omega
    have hzero' : 10 - (i + 1) = 0 := by omega
    rw [leftFrom, leftFrom, hzero, hzero', rdrop_zero, rdrop_zero, rdropWhile_concat]
    by_cases hold : time - lf.time > max_freq
    · rw [if_pos (Or.inr hold), if_pos (by simpa [outdated] using hold)]
    · rw [if_neg (by simpa [outdated] using hold), if_neg (not_or.mpr ⟨hi, hold⟩)]

theorem retained_nil :
    retained max_freq memorymaxsize [] lf = [{ lf with retained := true }] := by
  rw [retained, if_pos (.inl rfl)]

theorem retained_of_le (h : (events.length + 1 : ℤ) ≤ memorymaxsize) :
    retained max_freq memorymaxsize events lf = { lf with retained := true } :: events := by
  rw [retained, if_pos (.inr h)]

theorem retained_of_lt (hne : events ≠ []) (h : memorymaxsize < (events.length + 1 : ℤ)) :
    retained max_freq memorymaxsize events lf =
      leftFrom max_freq lf.time 0 ({ lf with retained := true } :: events) := by
  rw [retained, if_neg (not_or.mpr ⟨hne, Int.not_le.mpr h⟩)]

theorem isPrefix_leftFrom (i : ℕ) (events : List (ListEvent α)) :
    leftFrom max_freq time i events <+: events :=
  (List.rdropWhile_prefix _ _).trans (List.take_prefix ..)

/-! ## One call -/

/-- A node that is taken off the end becomes the first one of the chain. -/
theorem Holds.evict {oldlast : ℕ} (h : list.Holds (nodes ++ [(oldlast, lf)]))
    (hvictims : Path list.heap victims none)
    (hnodup : ((nodes ++ (oldlast, lf) :: victims).map Prod.fst).Nodup) :
    ∃ heap₁ heap₂ heap₃, setNextOf list.heap (lastOr nodes none) none = some heap₁ ∧
      setPrev heap₁ oldlast none = some heap₂ ∧
      setNext heap₂ oldlast (firstOr victims none) = some heap₃ ∧
      Frame ((nodes ++ (oldlast, lf) :: victims).map Prod.fst) list.heap heap₃ ∧
      Linked heap₃ none nodes none ∧ Path heap₃ ((oldlast, lf) :: victims) none := by
  rw [map_append, map_cons, nodup_append', nodup_cons] at hnodup
  obtain ⟨hnodes, ⟨hfresh, -⟩, hdisjoint⟩ := hnodup
  have hlast : oldlast ∉ nodes.map Prod.fst := fun hmem => hdisjoint hmem mem_cons_self
  obtain ⟨hlinked, hcell⟩ := linked_append.mp h.linked
  have hdisjoint' : ∀ s ∈ nodes.map Prod.fst, s ∉ [oldlast] := by
    intro s hs hmem
    rw [mem_singleton.mp hmem] at hs
    exact hlast hs
  obtain ⟨heap₁, hset₁, -, hlinked₁, hcell₁, -⟩ := hlinked.setNextOf hcell hnodes hdisjoint' none
  have hframe₁ : Frame (nodes.map Prod.fst) list.heap heap₁ :=
    frame_setNextOf hset₁ fun _ hs => mem_of_lastOr hs
  have hvictims₁ : Path heap₁ victims none := hvictims.frame hframe₁ fun s hs hmem =>
    hdisjoint hmem (mem_cons_of_mem _ hs)
  obtain ⟨heap₂, hset₂, hcell₂⟩ : ∃ heap₂, setPrev heap₁ oldlast none = some heap₂ ∧
      heap₂ oldlast = some ⟨none, none, lf⟩ :=
    ⟨_, modify_of_cell hcell₁ _, update_self ..⟩
  obtain ⟨heap₃, hset₃, hcell₃⟩ : ∃ heap₃,
      setNext heap₂ oldlast (firstOr victims none) = some heap₃ ∧
      heap₃ oldlast = some ⟨none, firstOr victims none, lf⟩ :=
    ⟨_, modify_of_cell hcell₂ _, update_self ..⟩
  refine ⟨heap₁, heap₂, heap₃, hset₁, hset₂, hset₃, ?_, ?_, ⟨none, hcell₃⟩, ?_⟩
  · refine (hframe₁.mono ?_).trans ((frame_modify hset₂ ?_).trans (frame_modify hset₃ ?_))
    · exact fun s hs => by simp only [map_append, mem_append, hs, true_or]
    · simp
    · simp
  · exact (hlinked₁.modify hlast hset₂).modify hlast hset₃
  · exact (hvictims₁.modify hfresh hset₂).modify hfresh hset₃

/-- The loop moves the nodes from the end of the list to the front of the chain. -/
theorem Holds.evictLoop (h : list.Holds nodes) (hvictims : Path list.heap victims none)
    (hnodup : ((nodes ++ victims).map Prod.fst).Nodup) {fuel : ℕ} (hfuel : nodes.length < fuel)
    (max_freq time : ℤ) (i : ℕ) :
    ∃ kept gone list', nodes = kept ++ gone ∧
      list.evictLoop max_freq time fuel i (firstOr victims none) =
        some (list', firstOr (gone ++ victims) none) ∧
      list'.Holds kept ∧ list'.memorymaxsize = list.memorymaxsize ∧
      Path list'.heap (gone ++ victims) none ∧
      Frame ((nodes ++ victims).map Prod.fst) list.heap list'.heap ∧
      eventsOf kept = leftFrom max_freq time i (eventsOf nodes) := by
  induction nodes using List.reverseRecOn generalizing list victims fuel i with
  | nil =>
    refine ⟨[], [], list, rfl, ?_, h, rfl, hvictims, .refl _ _, (leftFrom_nil i).symm⟩
    obtain ⟨fuel, rfl⟩ := Nat.exists_eq_add_one.mpr hfuel
    rw [EventList.evictLoop, h.last_eq]
    rfl
  | append_singleton nodes node ih =>
    obtain ⟨oldlast, lf⟩ := node
    obtain ⟨fuel, rfl⟩ := Nat.exists_eq_add_one.mpr (Nat.zero_lt_of_lt hfuel)
    have hcell := (linked_append.mp h.linked).2.1
    rw [append_assoc, singleton_append] at hnodup
    rw [EventList.evictLoop, h.last_eq, lastOr_concat]
    simp only [hcell, bind_some]
    rw [eventsOf_append, show eventsOf [(oldlast, lf)] = [lf] from rfl, leftFrom_concat]
    by_cases hgoes : i < 10 ∨ time - lf.time > max_freq
    · obtain ⟨heap₁, heap₂, heap₃, hset₁, hset₂, hset₃, hframe, hlinked, hpath⟩ :=
        h.evict hvictims hnodup
      have hfirst : (if lastOr nodes none = none then none else list.first) =
          firstOr nodes none := by
        rcases eq_nil_or_concat' nodes with rfl | ⟨l, ⟨s, b⟩, rfl⟩
        · rfl
        · rw [lastOr_concat, if_neg (some_ne_none s), h.first_eq]
          cases l <;> rfl
      have hcount := h.memoryused_eq
      rw [length_append, length_singleton] at hfuel hcount
      simp only [if_pos hgoes, hset₁, hset₂, hset₃, bind_some, hfirst]
      have hshorter : Holds { list with
          heap := heap₃
          first := firstOr nodes none
          last := lastOr nodes none
          memoryused := list.memoryused - 1 } nodes := ⟨hlinked, rfl, rfl, by simp [hcount]⟩
      obtain ⟨kept, gone, list', rfl, heq, hholds, hmax, hchain, hframe', hleft⟩ :=
        ih hshorter hpath hnodup (Nat.lt_of_succ_lt_succ hfuel) (i + 1)
      refine ⟨kept, gone ++ [(oldlast, lf)], list', append_assoc .., ?_, hholds, hmax, ?_, ?_,
        hleft⟩
      · rw [append_assoc]
        exact heq
      · rwa [append_assoc]
      · rw [append_assoc _ _ victims]
        exact hframe.trans hframe'
    · rw [if_neg hgoes, if_neg hgoes]
      refine ⟨nodes ++ [(oldlast, lf)], [], list, (append_nil _).symm, rfl, h, rfl, hvictims,
        .refl _ _, eventsOf_append ..⟩

/-- The nodes of the chain are freed, and no others. -/
theorem freeVictims_eq {heap : Heap ℕ (ListEvent α)} (h : Path heap victims none) {fuel : ℕ}
    (hfuel : victims.length ≤ fuel) :
    ∃ heap', freeVictims fuel heap (firstOr victims none) = some (heap', eventsOf victims) ∧
      Frame (victims.map Prod.fst) heap heap' ∧ ∀ s ∈ victims.map Prod.fst, heap' s = none := by
  have hnodup := h.nodup
  induction victims generalizing heap fuel with
  | nil =>
    refine ⟨heap, ?_, .refl _ _, fun s hs => absurd hs not_mem_nil⟩
    cases fuel <;> rfl
  | cons node victims ih =>
    obtain ⟨r, lf⟩ := node
    obtain ⟨fuel, rfl⟩ := Nat.exists_eq_add_one.mpr (Nat.zero_lt_of_lt hfuel)
    obtain ⟨⟨prev, hcell⟩, hrest⟩ := h
    rw [map_cons, nodup_cons] at hnodup
    have hframe : Frame [r] heap (free heap r) := frame_update mem_cons_self none
    have hrest' : Path (free heap r) victims none := by
      apply hrest.frame hframe
      intro s hs hmem
      rw [mem_singleton.mp hmem] at hs
      exact hnodup.1 hs
    obtain ⟨heap', heq, hframe, hnone⟩ := ih hrest' (Nat.le_of_succ_le_succ hfuel) hnodup.2
    refine ⟨heap', ?_, ?_, ?_⟩
    · rw [firstOr_cons, freeVictims, hcell, bind_some]
      rw [heq]
      rfl
    · refine (frame_update ?_ none).trans (hframe.mono (subset_cons_self ..))
      exact mem_cons_self
    · rw [map_cons, forall_mem_cons]
      refine ⟨?_, hnone⟩
      rw [hframe r hnodup.1]
      exact update_self ..

/-- A new node in front of the others. -/
theorem Holds.push {tmp_node new_node : ℕ} (h : list.Holds nodes)
    (hfirst : list.first = some tmp_node) (hfresh : list.heap new_node = none)
    (lf : ListEvent α) :
    ∃ heap, setPrev (Function.update list.heap new_node (some ⟨none, some tmp_node, lf⟩)) tmp_node
        (some new_node) = some heap ∧
      Frame (((new_node, lf) :: nodes).map Prod.fst) list.heap heap ∧
      Holds { list with
        heap := heap
        first := some new_node
        memoryused := list.memoryused + 1 } ((new_node, lf) :: nodes) := by
  have hnew : new_node ∉ nodes.map Prod.fst := fun hmem => h.linked.path.ne_none _ hmem hfresh
  cases nodes with
  | nil => exact absurd (hfirst.symm.trans h.first_eq) (some_ne_none _)
  | cons node nodes =>
    obtain ⟨r, a⟩ := node
    obtain rfl : tmp_node = r := some.inj (hfirst.symm.trans h.first_eq)
    have hnodup := h.linked.nodup
    rw [map_cons, nodup_cons] at hnodup
    have hne : new_node ≠ tmp_node := fun heq => hnew (heq ▸ mem_cons_self)
    obtain ⟨heap, hset, hlinked⟩ := (h.linked.update hnew
      (some ⟨none, some tmp_node, lf⟩)).setPrev hnodup.1 (some new_node)
    refine ⟨heap, hset, ?_, ⟨⟨?_, hlinked⟩, rfl, ?_, ?_⟩⟩
    · refine (frame_update ?_ _).trans (frame_modify hset ?_)
      · exact mem_cons_self
      · exact mem_cons_of_mem _ mem_cons_self
    · exact (modify_of_ne hset hne).trans (update_self ..)
    · rw [h.last_eq, lastOr_cons, lastOr_cons, lastOr_cons]
    · rw [length_cons, Int.natCast_succ, ← h.memoryused_eq]

/-- What a call does to the nodes. -/
theorem Holds.addEvent (h : list.Holds nodes) {new_node : ℕ} (hfresh : list.heap new_node = none)
    (max_freq : ℤ) (lf : ListEvent α) :
    ∃ kept gone list', (new_node, { lf with retained := true }) :: nodes = kept ++ gone ∧
      list.addEvent max_freq lf new_node = some (list', eventsOf gone) ∧
      list'.Holds kept ∧ list'.memorymaxsize = list.memorymaxsize ∧
      Frame (((new_node, { lf with retained := true }) :: nodes).map Prod.fst)
        list.heap list'.heap ∧
      (∀ s ∈ gone.map Prod.fst, list'.heap s = none) ∧
      eventsOf kept = EventList.retained max_freq list.memorymaxsize (eventsOf nodes) lf := by
  have hlength : list.memoryused = (eventsOf nodes).length := by
    rw [h.memoryused_eq, eventsOf, length_map]
  rw [EventList.addEvent]
  cases hfirst : list.first with
  | none =>
    obtain rfl : nodes = [] := by
      cases nodes with
      | nil => rfl
      | cons node nodes => exact absurd (h.first_eq.symm.trans hfirst) (some_ne_none _)
    exact ⟨[_], [], _, rfl, rfl, ⟨⟨update_self .., trivial⟩, rfl, rfl, rfl⟩, rfl,
      frame_update mem_cons_self _, fun _ hs => absurd hs not_mem_nil, retained_nil.symm⟩
  | some tmp_node =>
    have hne : eventsOf nodes ≠ [] := by
      intro hnil
      obtain rfl := map_eq_nil_iff.mp hnil
      exact some_ne_none _ (hfirst.symm.trans h.first_eq)
    obtain ⟨heap, hset, hframe, hpushed⟩ := h.push hfirst hfresh { lf with retained := true }
    simp only [hset, bind_some]
    by_cases hover : list.memoryused + 1 > list.memorymaxsize
    · rw [if_pos hover, retained_of_lt hne (by rwa [← hlength])]
      have hnodes : (list.memoryused + 1).toNat =
          ((new_node, { lf with retained := true }) :: nodes).length := by
        rw [h.memoryused_eq]
        rfl
      have hchain : Path heap ([] : List (ℕ × ListEvent α)) none := trivial
      rw [hnodes]
      obtain ⟨kept, gone, list', hsplit, heq, hholds, hmax, hchain, hframe', hleft⟩ :=
        hpushed.evictLoop hchain (by simpa using hpushed.linked.nodup) (Nat.lt_add_one _) max_freq
          lf.time 0
      rw [append_nil] at heq hchain
      have hgone : gone.length ≤ (kept ++ gone).length := by simp
      obtain ⟨heap', hfreed, hframe'', hnone⟩ := freeVictims_eq hchain (hsplit ▸ hgone)
      have hnodup := hpushed.linked.nodup
      rw [hsplit, map_append, nodup_append'] at hnodup
      rw [firstOr_nil] at heq
      rw [heq, bind_some]
      simp only [hfreed, map_some]
      refine ⟨kept, gone, _, hsplit, rfl, ⟨?_, hholds.first_eq, hholds.last_eq,
        hholds.memoryused_eq⟩, hmax, ?_, hnone, hleft⟩
      · exact hholds.linked.frame hframe'' fun s hs => hnodup.2.2 hs
      · refine hframe.trans (.trans ?_ (hframe''.mono ?_))
        · simpa using hframe'
        · rw [hsplit, map_append]
          exact subset_append_right ..
    · rw [if_neg hover, retained_of_le (by omega)]
      exact ⟨_, [], _, (append_nil _).symm, rfl, hpushed, rfl, hframe,
        fun _ hs => absurd hs not_mem_nil, rfl⟩

/-! ## Runs -/

/-- The events of a list, newest first, without a later one in front of an earlier one. -/
def Newest (events : List (ListEvent α)) : Prop := events.Pairwise fun a b => b.time ≤ a.time

/-- What goes with the oldest events: those in front of them that are outdated. -/
theorem exists_leftFrom (h : Newest events) (max_freq time : ℤ) (i : ℕ) :
    ∃ older oldest, events = leftFrom max_freq time i events ++ older ++ oldest ∧
      oldest.length = min (10 - i) events.length ∧
      (∀ e ∈ older, max_freq < time - e.time) ∧
      ∀ e ∈ leftFrom max_freq time i events, time - e.time ≤ max_freq := by
  refine ⟨(events.rdrop (10 - i)).rtakeWhile (outdated max_freq time),
    events.drop (events.length - (10 - i)), ?_, ?_, ?_, ?_⟩
  · rw [leftFrom, rdropWhile_append_rtakeWhile]
    exact (take_append_drop ..).symm
  · rw [length_drop]
    omega
  · intro e he
    simpa [outdated] using mem_rtakeWhile_imp he
  · intro e he
    have hne := ne_nil_of_mem he
    -- the oldest event that is left is not outdated, and no other one is older
    have hlast : time - ((leftFrom max_freq time i events).getLast hne).time ≤ max_freq := by
      have hnot := rdropWhile_last_not (outdated max_freq time) _ hne
      simpa [outdated, leftFrom] using hnot
    have holder : Newest (leftFrom max_freq time i events) :=
      h.sublist (isPrefix_leftFrom i events).sublist
    have hle := holder.rel_getLast he
    omega

/-- A call of `OS_AddEvent_List`, with the memory for the node. -/
structure AddEvent (α : Type) where
  lf : ListEvent α
  new_node : ℕ

/-- A call, and the events that it frees. -/
def Step (max_freq : ℤ) (list : EventList α) (l : AddEvent α × List (ListEvent α))
    (list' : EventList α) : Prop :=
  list.heap l.1.new_node = none ∧
    list.addEvent max_freq l.1.lf l.1.new_node = some (list', l.2)

/-- The nodes that are in use are those of the list. -/
def Owned (list : EventList α) (nodes : List (ℕ × ListEvent α)) : Prop :=
  ∀ s, list.heap s ≠ none ↔ s ∈ nodes.map Prod.fst

/-- The events that some calls have brought, newest first. -/
def brought (calls : List (AddEvent α × List (ListEvent α))) : List (ListEvent α) :=
  (calls.map fun call => { call.1.lf with retained := true }).reverse

theorem brought_append (calls : List (AddEvent α × List (ListEvent α)))
    (call : AddEvent α × List (ListEvent α)) :
    brought (calls ++ [call]) = { call.1.lf with retained := true } :: brought calls := by
  simp [brought]

theorem holds_init (maxsize : ℤ) : (init maxsize : EventList α).Holds [] :=
  ⟨trivial, rfl, rfl, rfl⟩

/-- One call, from a list that owns its nodes. -/
theorem Holds.step (h : list.Holds nodes) (howned : list.Owned nodes) {new_node : ℕ}
    (hfresh : list.heap new_node = none) (max_freq : ℤ) (lf : ListEvent α) :
    ∃ kept gone list', (new_node, { lf with retained := true }) :: nodes = kept ++ gone ∧
      Step max_freq list (⟨lf, new_node⟩, eventsOf gone) list' ∧
      list'.Holds kept ∧ list'.Owned kept ∧ list'.memorymaxsize = list.memorymaxsize ∧
      eventsOf kept = EventList.retained max_freq list.memorymaxsize (eventsOf nodes) lf := by
  obtain ⟨kept, gone, list', hsplit, heq, hholds, hmax, hframe, hnone, hleft⟩ :=
    h.addEvent hfresh max_freq lf
  refine ⟨kept, gone, list', hsplit, ⟨hfresh, heq⟩, hholds, fun s => ⟨fun hs => ?_, ?_⟩, hmax,
    hleft⟩
  · by_contra hkept
    by_cases hgone : s ∈ gone.map Prod.fst
    · exact hs (hnone s hgone)
    · have hout : s ∉ ((new_node, { lf with retained := true }) :: nodes).map Prod.fst := by
        rw [hsplit, map_append, mem_append]
        exact not_or.mpr ⟨hkept, hgone⟩
      rw [hframe s hout] at hs
      exact hout (mem_cons_of_mem _ ((howned s).mp hs))
  · exact hholds.linked.path.ne_none s

/-- What calls with times that do not go back keep of the list. -/
structure Reached (maxsize : ℤ) (calls : List (AddEvent α × List (ListEvent α)))
    (list : EventList α) (nodes : List (ℕ × ListEvent α)) : Prop where
  holds : list.Holds nodes
  owned : list.Owned nodes
  memorymaxsize_eq : list.memorymaxsize = maxsize
  newest : eventsOf nodes <+: brought calls

theorem reached_of_run {maxsize : ℤ} {calls : List (AddEvent α × List (ListEvent α))}
    (h : Run (Step max_freq) (init maxsize) calls list) :
    ∃ nodes, Reached maxsize calls list nodes := by
  refine @Run.history _ _ _ (fun calls list => ∃ nodes, Reached maxsize calls list nodes) ?_ _ _ _ h
    ?_
  · rintro calls list ⟨⟨lf, new_node⟩, freed⟩ list' ⟨nodes, hreached⟩ ⟨hfresh, heq⟩
    obtain ⟨kept, gone, list'', hsplit, ⟨-, heq'⟩, hholds, howned, hmax, -⟩ :=
      hreached.holds.step hreached.owned hfresh max_freq lf
    obtain ⟨rfl, hfreed⟩ := Prod.mk.inj (some.inj (heq.symm.trans heq'))
    refine ⟨kept, hholds, howned, hmax.trans hreached.memorymaxsize_eq, ?_⟩
    have hall : eventsOf kept <+: { lf with retained := true } :: eventsOf nodes := by
      refine ⟨eventsOf gone, ?_⟩
      rw [← eventsOf_append, ← hsplit]
      rfl
    rw [brought_append]
    exact hall.trans (prefix_cons_inj _ |>.mpr hreached.newest)
  · exact ⟨[], holds_init maxsize, by simp [Owned, init], rfl, List.nil_prefix⟩

/-- In a list that events have come to in the order of their times, the pointers lead to the latest
of them, newest first, as many as are counted. The next call frees events only when it takes the
list over its limit; it takes them off the end: the ten oldest events, or all, and in front of these
just the ones that are outdated. -/
theorem evicted_of_run {maxsize : ℤ} {calls : List (AddEvent α × List (ListEvent α))}
    (h : Run (Step max_freq) (init maxsize) calls list)
    (htimes : calls.Pairwise fun a b => a.1.lf.time ≤ b.1.lf.time)
    (hlf : ∀ call ∈ calls, call.1.lf.time ≤ lf.time) {new_node : ℕ}
    (hfresh : list.heap new_node = none) :
    ∃ nodes, list.Holds nodes ∧ list.Owned nodes ∧ Newest (eventsOf nodes) ∧
      eventsOf nodes <+: brought calls ∧
      ∃ kept gone list', Step max_freq list (⟨lf, new_node⟩, eventsOf gone) list' ∧
        list'.Holds kept ∧ list'.Owned kept ∧
        (new_node, { lf with retained := true }) :: nodes = kept ++ gone ∧
        (gone = [] ↔ nodes = [] ∨ (nodes.length + 1 : ℤ) ≤ maxsize) ∧
        (gone ≠ [] → ∃ older oldest, eventsOf gone = older ++ oldest ∧
          oldest.length = min 10 (nodes.length + 1) ∧
          (∀ e ∈ older, max_freq < lf.time - e.time) ∧
          ∀ e ∈ eventsOf kept, lf.time - e.time ≤ max_freq) := by
  obtain ⟨nodes, hholds, howned, hmax, hprefix⟩ := reached_of_run h
  obtain ⟨kept, gone, list', hsplit, hstep, hholds', howned', -, hleft⟩ :=
    hholds.step howned hfresh max_freq lf
  have hbrought : Newest (brought calls) := by
    rw [Newest, brought, pairwise_reverse, pairwise_map]
    exact htimes
  have hnewest := hbrought.sublist hprefix.sublist
  have hnewer : Newest ({ lf with retained := true } :: eventsOf nodes) := by
    refine pairwise_cons.mpr ⟨fun e he => ?_, hnewest⟩
    have hmem := hprefix.mem he
    rw [brought, mem_reverse, List.mem_map] at hmem
    obtain ⟨call, hcall, rfl⟩ := hmem
    exact hlf call hcall
  have hevents : { lf with retained := true } :: eventsOf nodes =
      eventsOf kept ++ eventsOf gone := by
    rw [← eventsOf_append, ← hsplit]
    rfl
  have hlength : nodes.length = (eventsOf nodes).length := (length_map _).symm
  have hgone : eventsOf gone = [] ↔ gone = [] := map_eq_nil_iff
  refine ⟨nodes, hholds, howned, hnewest, hprefix, kept, gone, list', hstep, hholds', howned',
    hsplit, ?_⟩
  rw [hmax] at hleft
  by_cases hroom : nodes = [] ∨ (nodes.length + 1 : ℤ) ≤ maxsize
  · have hkept : eventsOf kept = { lf with retained := true } :: eventsOf nodes := by
      rcases hroom with rfl | hle
      · exact hleft.trans retained_nil
      · exact hleft.trans (retained_of_le (hlength ▸ hle))
    have hnil : gone = [] := by
      rw [hkept] at hevents
      exact hgone.mp (self_eq_append_right.mp hevents)
    exact ⟨iff_of_true hnil hroom, fun hne => absurd hnil hne⟩
  · obtain ⟨hne, hlt⟩ := not_or.mp hroom
    have hne' : eventsOf nodes ≠ [] := fun h => hne (map_eq_nil_iff.mp h)
    rw [retained_of_lt hne' (by rw [← hlength]; exact Int.not_le.mp hlt)] at hleft
    obtain ⟨older, oldest, hsplit', hlen, holder, hkept⟩ :=
      exists_leftFrom hnewer max_freq lf.time 0
    rw [← hleft, hevents, append_assoc] at hsplit'
    have hgone' := append_cancel_left hsplit'
    rw [length_cons, ← hlength] at hlen
    refine ⟨iff_of_false (fun hnil => ?_) hroom, fun _ =>
      ⟨older, oldest, hgone', hlen, holder, fun e he => hkept e (hleft ▸ he)⟩⟩
    rw [hgone.mpr hnil] at hgone'
    obtain ⟨-, rfl⟩ := append_eq_nil_iff.mp hgone'.symm
    rw [length_nil] at hlen
    omega

/-- A list of two events, and a third one in the same second: the call frees all three of them,
though the limit forces one event out and none is outside the timeframe. -/
theorem freed_within_timeframe :
    ∃ calls list call freed list', Run (Step 360) (init 2 : EventList ℕ) calls list ∧
      Step 360 list (call, freed) list' ∧
      (∀ e ∈ call.lf :: brought calls, e.time = 0) ∧
      list.memoryused = 2 ∧ freed.map ListEvent.data = [2, 1, 0] ∧ list'.memoryused = 0 := by
  obtain ⟨list, hrun, hfresh, hcount, hcall⟩ : ∃ list, Run (Step 360) (init 2 : EventList ℕ)
      [(⟨⟨0, false, 0⟩, 10⟩, []), (⟨⟨0, false, 1⟩, 11⟩, [])] list ∧
      list.heap 12 = none ∧ list.memoryused = 2 ∧
      ((list.addEvent 360 ⟨0, false, 2⟩ 12).map fun (list, freed) =>
        (freed.map ListEvent.data, list.memoryused)) = some ([2, 1, 0], 0) :=
    ⟨_, .cons ⟨rfl, rfl⟩ (.cons ⟨rfl, rfl⟩ (.nil _)), rfl, rfl, rfl⟩
  obtain ⟨⟨list', freed⟩, hstep, hfreed⟩ := map_eq_some_iff.mp hcall
  obtain ⟨hdata, hempty⟩ := Prod.mk.inj hfreed
  refine ⟨_, list, ⟨⟨0, false, 2⟩, 12⟩, freed, list', hrun, ⟨hfresh, hstep⟩, ?_, hcount, hdata,
    hempty⟩
  simp [brought]

/-- With a limit of two events, the third one empties a list. -/
theorem evicted_of_run_two :
    ∃ list : EventList ℕ, ∃ nodes, list.Holds nodes ∧ list.Owned nodes ∧ Newest (eventsOf nodes) ∧
      eventsOf nodes <+: [⟨50, true, 1⟩, ⟨0, true, 0⟩] ∧
      ∃ kept gone list', Step 360 list (⟨⟨400, false, 2⟩, 12⟩, eventsOf gone) list' ∧
        list'.Holds kept ∧ list'.Owned kept ∧
        (12, ⟨400, true, 2⟩) :: nodes = kept ++ gone ∧
        (gone = [] ↔ nodes = [] ∨ (nodes.length + 1 : ℤ) ≤ 2) ∧
        (gone ≠ [] → ∃ older oldest, eventsOf gone = older ++ oldest ∧
          oldest.length = min 10 (nodes.length + 1) ∧
          (∀ e ∈ older, (360 : ℤ) < 400 - e.time) ∧
          ∀ e ∈ eventsOf kept, (400 : ℤ) - e.time ≤ 360) :=
  have hrun : ∃ list, Run (Step 360) (init 2 : EventList ℕ)
      [(⟨⟨0, false, 0⟩, 10⟩, []), (⟨⟨50, false, 1⟩, 11⟩, [])] list ∧ list.heap 12 = none :=
    ⟨_, .cons ⟨rfl, rfl⟩ (.cons ⟨rfl, rfl⟩ (.nil _)), rfl⟩
  hrun.imp fun _ h => evicted_of_run h.1 (by simp) (by simp) h.2

end EventList

end Analysisd
