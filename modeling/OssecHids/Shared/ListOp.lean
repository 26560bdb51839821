import OssecHids.Lib.CString
import OssecHids.Lib.Retained

/-!
# Lists

`list_op.c`. A list is its nodes from the first to the last, each with its address; the counter of
the nodes is their number.

- `addData_room`, `addData_full`: a full list drops its oldest node, with whose data the callback
  is called.
-/

open Retained List

/-- `OSList` -/
structure OSList (α : Type) where
  /-- The nodes, with their addresses. -/
  nodes : List (ℕ × α) := []
  max_size : ℕ := 0
  /-- The address that the next node gets. -/
  fresh : ℕ := 0

namespace OSList

variable {α σ : Type}

/-- The data of the nodes. -/
def data (list : OSList α) : List α := list.nodes.map Prod.snd

/-- `currently_size` -/
def currentlySize (list : OSList α) : ℕ := list.nodes.length

/-- `OSList_SetMaxSize` -/
def setMaxSize (list : OSList α) (max_size : ℕ) : ℕ × OSList α :=
  if max_size ≤ 1 then (0, list) else (1, { list with max_size := max_size })

/-- `last_node` -/
def lastNode (list : OSList α) : Option ℕ := list.nodes.getLast?.map Prod.fst

/-- `OSList_DeleteThisNode` -/
def deleteThisNode (list : OSList α) : Option ℕ → OSList α
  | none => list
  | some node => { list with nodes := list.nodes.filter fun n => n.1 != node }

/-- `OSList_AddData`, with whether there is memory for the node. The callback works on `s`. -/
def addData (free_data_function : α → σ → σ) (list : OSList α) (data : α) (calloc : Bool) (s : σ) :
    ℕ × OSList α × σ :=
  if !calloc then (0, list, s)
  else
    let list :=
      { list with nodes := list.nodes ++ [(list.fresh, data)], fresh := list.fresh + 1 }
    if list.max_size ≠ 0 ∧ list.currentlySize > list.max_size then
      match list.nodes with
      | first_node :: next :: rest =>
        (1, { list with nodes := next :: rest }, free_data_function first_node.2 s)
      | _ => (1, list, s)
    else (1, list, s)

/-- A list with a maximum of at least two nodes that has not more than these. -/
structure Bounded (list : OSList α) : Prop where
  two_le : 2 ≤ list.max_size
  size_le : list.currentlySize ≤ list.max_size

theorem length_data (list : OSList α) : list.data.length = list.currentlySize :=
  length_map _

variable {list : OSList α} {f : α → σ → σ}

theorem addData_of_no_memory (data : α) (s : σ) :
    addData f list data false s = (0, list, s) := rfl

/-- A list with room takes the node in. -/
theorem Bounded.addData_room (h : list.Bounded) (hroom : list.currentlySize < list.max_size)
    (a : α) (s : σ) :
    ∃ list', addData f list a true s = (1, list', s) ∧ list'.Bounded ∧
      list'.max_size = list.max_size ∧ list'.data = list.data ++ [a] := by
  refine ⟨{ list with nodes := list.nodes ++ [(list.fresh, a)], fresh := list.fresh + 1 },
    ?_, ⟨h.two_le, ?_⟩, rfl, ?_⟩
  · rw [addData]
    simp only [Bool.not_true, Bool.false_eq_true, if_false]
    rw [if_neg]
    rintro ⟨-, hover⟩
    rw [currentlySize] at *
    simp only [length_append, length_singleton] at hover
    omega
  · rw [currentlySize] at *
    simp only [length_append, length_singleton]
    omega
  · simp [data]

/-- A full list drops its oldest node, whose data goes to the callback. -/
theorem Bounded.addData_full (h : list.Bounded) (hfull : list.currentlySize = list.max_size)
    (a : α) (s : σ) :
    ∃ old list', addData f list a true s = (1, list', f old s) ∧ list'.Bounded ∧
      list'.max_size = list.max_size ∧ list.data.head? = some old ∧
      list'.data = (list.data ++ [a]).tail := by
  have htwo := h.two_le
  rw [currentlySize] at hfull
  -- there is a first node, and another one behind it
  match hnodes : list.nodes with
  | [] | [_] =>
    simp only [hnodes, length_nil, length_singleton] at hfull
    omega
  | first :: second :: rest =>
    rw [hnodes] at hfull
    have hover : list.max_size < (first :: second :: rest ++ [(list.fresh, a)]).length := by
      rw [length_append, hfull]
      exact Nat.lt_succ_self _
    refine ⟨first.2,
      { list with nodes := second :: (rest ++ [(list.fresh, a)]), fresh := list.fresh + 1 },
      ?_, ⟨htwo, ?_⟩, rfl, ?_, ?_⟩
    · rw [addData]
      simp only [Bool.not_true, Bool.false_eq_true, if_false, hnodes]
      rw [if_pos ⟨by omega, hover⟩]
      rfl
    · simp only [currentlySize, length_cons, length_append, length_nil] at *
      omega
    · simp [data, hnodes]
    · simp [data, hnodes]

theorem Bounded.data_eq_newest (h : list.Bounded) (a : α) :
    newest list.max_size (list.data ++ [a]) =
      if list.currentlySize = list.max_size then (list.data ++ [a]).tail else list.data ++ [a] := by
  have hsize := h.size_le
  have hlen := list.length_data
  split_ifs with hfull
  · rw [newest, length_append, hlen, hfull, length_singleton, Nat.add_sub_cancel_left, drop_one]
  · apply newest_of_length_le
    rw [length_append, hlen, length_singleton]
    omega

end OSList
