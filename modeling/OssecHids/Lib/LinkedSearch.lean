import Mathlib.Data.List.DropRight
import OssecHids.Lib.DoublyLinked

/-!
# Searching and linking cells

A walk along the forward links up to the first cell that it stops at, and a new cell put between two
parts of a list.

- `seek_eq`: where the walk stops;
- `Linked.link`: the four writes that put a cell into a list;
- `Linked.detach`, `Linked.relink`: the writes that move a cell.
-/

open List Option Function

namespace DoublyLinked

variable {R A : Type*}

/-- The walk from an address: how many cells it has passed, and the address that it stops at; there
is no result at an address that is not in use, or when there is no fuel left. -/
def seek (heap : Heap R A) (stop : A → Bool) : ℕ → Option R → Option (ℕ × Option R)
  | _, none => some (0, none)
  | 0, some _ => none
  | fuel + 1, some r =>
    (heap r).bind fun c =>
      if stop c.data then some (0, some r)
      else (seek heap stop fuel c.next).map fun (passed, r) => (passed + 1, r)

variable {heap heap' : Heap R A} {stop : A → Bool} {fuel : ℕ} {p q : Option R} {r : R} {a : A}
  {l l₁ l₂ : List (R × A)}

/-- The cells that a walk passes. -/
def passed (stop : A → Bool) (l : List (R × A)) : List (R × A) := l.takeWhile fun c => !stop c.2

/-- The cells from the one on that a walk stops at. -/
def reached (stop : A → Bool) (l : List (R × A)) : List (R × A) := l.dropWhile fun c => !stop c.2

theorem passed_append_reached (stop : A → Bool) (l : List (R × A)) :
    passed stop l ++ reached stop l = l := takeWhile_append_dropWhile

theorem not_stop_of_passed {c : R × A} (h : c ∈ passed stop l) : stop c.2 = false := by
  simpa using (mem_takeWhile_imp h)

theorem stop_of_reached (h : reached stop l = (r, a) :: l₂) : stop a = true := by
  have hne : reached stop l ≠ [] := by
    rw [h]
    exact cons_ne_nil _ _
  have hhead : (!stop ((reached stop l).head hne).2) = false :=
    head_dropWhile_not (fun c : R × A => !stop c.2) hne
  simp only [h, head_cons] at hhead
  simpa using hhead

theorem seek_eq (h : Path heap l none) (hfuel : l.length ≤ fuel) :
    seek heap stop fuel (firstOr l none) =
      some ((passed stop l).length, firstOr (reached stop l) none) := by
  induction l generalizing fuel with
  | nil => cases fuel <;> rfl
  | cons c l ih =>
    obtain ⟨r, a⟩ := c
    obtain ⟨⟨prev, hcell⟩, hl⟩ := h
    obtain ⟨fuel, rfl⟩ := Nat.exists_eq_add_one.mpr (Nat.zero_lt_of_lt hfuel)
    rw [firstOr_cons, seek, hcell, bind_some]
    cases hstop : stop a with
    | true => simp [passed, reached, hstop]
    | false =>
      have hrest := ih hl (Nat.le_of_succ_le_succ hfuel)
      simp only [hrest, Bool.false_eq_true, if_false, map_some]
      simp [passed, reached, hstop]

/-- The walk along the backward links, up to the first cell that it stops at. -/
def seekBack (heap : Heap R A) (stop : A → Bool) : ℕ → Option R → Option (Option R)
  | _, none => some none
  | 0, some _ => none
  | fuel + 1, some r =>
    (heap r).bind fun c => if stop c.data then some (some r) else seekBack heap stop fuel c.prev

theorem Linked.next_of_lastOr (h : Linked heap p (l₁ ++ l₂) q) (hlast : lastOr l₁ none = some r) :
    ∃ prev a, heap r = some ⟨prev, firstOr l₂ q, a⟩ := by
  rcases eq_nil_or_concat' l₁ with rfl | ⟨l, ⟨s, b⟩, rfl⟩
  · exact nomatch hlast
  · rw [lastOr_concat] at hlast
    cases hlast
    exact ⟨_, b, (linked_append.mp (linked_append.mp h).1).2.1⟩

theorem seekBack_eq (h : Linked heap none l q) (hfuel : l.length ≤ fuel) :
    seekBack heap stop fuel (lastOr l none) =
      some (lastOr (l.rdropWhile fun c => !stop c.2) none) := by
  induction l using List.reverseRecOn generalizing fuel q with
  | nil => cases fuel <;> rfl
  | append_singleton l c ih =>
    obtain ⟨r, a⟩ := c
    obtain ⟨hl, hcell, -⟩ := linked_append.mp h
    rw [length_append, length_singleton] at hfuel
    obtain ⟨fuel, rfl⟩ := Nat.exists_eq_add_one.mpr (Nat.zero_lt_of_lt hfuel)
    rw [lastOr_concat, seekBack, hcell, bind_some, rdropWhile_concat]
    cases stop a with
    | true =>
      rw [if_pos rfl, Bool.not_true, if_neg Bool.false_ne_true, lastOr_concat]
    | false =>
      rw [if_neg Bool.false_ne_true, Bool.not_false, if_pos rfl]
      exact ih hl (Nat.le_of_succ_le_succ hfuel)

/-! ## A new cell -/

variable [DecidableEq R]

theorem cell_setNextOf (h : DoublyLinked.setNextOf heap (lastOr l none) q = some heap')
    (hr : r ∉ l.map Prod.fst) : heap' r = heap r :=
  frame_setNextOf h (fun _ hs => mem_of_lastOr hs) r hr

theorem cell_setPrevOf (h : DoublyLinked.setPrevOf heap (firstOr l none) q = some heap')
    (hr : r ∉ l.map Prod.fst) : heap' r = heap r :=
  frame_setPrevOf h (fun _ hs => mem_of_firstOr hs) r hr

/-- The neighbours of a new cell are told of it, and it is told of them. -/
theorem Linked.link (h : Linked heap none (l₁ ++ l₂) none) {c : Cell R A} (hcell : heap r = some c)
    (hr : r ∉ (l₁ ++ l₂).map Prod.fst) :
    ∃ heap₁ heap₂ heap₃ heap₄,
      DoublyLinked.setNextOf heap (lastOr l₁ none) (some r) = some heap₁ ∧
      DoublyLinked.setPrev heap₁ r (lastOr l₁ none) = some heap₂ ∧
      DoublyLinked.setPrevOf heap₂ (firstOr l₂ none) (some r) = some heap₃ ∧
      DoublyLinked.setNext heap₃ r (firstOr l₂ none) = some heap₄ ∧
      (∀ s, heap₄ s = none ↔ heap s = none) ∧
      Linked heap₄ none (l₁ ++ (r, c.data) :: l₂) none := by
  have hnodup := h.nodup
  rw [map_append, mem_append, not_or] at hr
  obtain ⟨hr₁, hr₂⟩ := hr
  rw [map_append, nodup_append'] at hnodup
  obtain ⟨hnodup₁, -, hdisjoint⟩ := hnodup
  obtain ⟨h₁, h₂⟩ := linked_append.mp h
  obtain ⟨heap₁, hset₁, hnone₁, h₁, h₂⟩ := h₁.setNextOf h₂ hnodup₁ hdisjoint (some r)
  have hcell₁ : heap₁ r = some c := (cell_setNextOf hset₁ hr₁).trans hcell
  have hset₂ : DoublyLinked.setPrev heap₁ r (lastOr l₁ none) = _ := modify_of_cell hcell₁ _
  have hnone₂ := modify_eq_none_iff hset₂
  obtain ⟨heap₃, hset₃, hnone₃, h₁, h₂⟩ :=
    (h₁.update hr₁ _).setPrevOf (h₂.update hr₂ _) hdisjoint (some r)
  have hcell₃ : heap₃ r = some { c with prev := lastOr l₁ none } :=
    (cell_setPrevOf hset₃ hr₂).trans (update_self ..)
  have hset₄ : DoublyLinked.setNext heap₃ r (firstOr l₂ none) = _ := modify_of_cell hcell₃ _
  have hnone₄ := modify_eq_none_iff hset₄
  refine ⟨heap₁, _, heap₃, _, hset₁, hset₂, hset₃, hset₄, fun s => ?_,
    linked_append.mpr ⟨?_, ?_, ?_⟩⟩
  · rw [hnone₄, hnone₃, hnone₂, hnone₁]
  · exact h₁.update hr₁ _
  · exact update_self ..
  · exact h₂.update hr₂ _

/-- A new cell behind the last one. -/
theorem Linked.linkLast {last : R} (h : Linked heap none l none) {c : Cell R A}
    (hcell : heap r = some c) (hnext : c.next = none) (hr : r ∉ l.map Prod.fst)
    (hlast : lastOr l none = some last) :
    ∃ heap₁ heap₂, DoublyLinked.setNext heap last (some r) = some heap₁ ∧
      DoublyLinked.setPrev heap₁ r (some last) = some heap₂ ∧
      (∀ s, heap₂ s = none ↔ heap s = none) ∧ Linked heap₂ none (l ++ [(r, c.data)]) none := by
  rcases eq_nil_or_concat' l with rfl | ⟨l, ⟨s, b⟩, rfl⟩
  · exact nomatch hlast
  have hnodup := h.nodup
  rw [map_append, map_singleton, ← concat_eq_append, nodup_concat] at hnodup
  rw [lastOr_concat] at hlast
  obtain rfl := some.inj hlast
  have hne : r ≠ s := fun heq => hr (by simp [heq])
  obtain ⟨heap₁, hset₁, h₁⟩ := h.setNext hnodup.1 (some r)
  have hcell₁ : heap₁ r = some c := (modify_of_ne hset₁ hne).trans hcell
  have hset₂ : DoublyLinked.setPrev heap₁ r (some s) = _ := modify_of_cell hcell₁ _
  refine ⟨heap₁, _, hset₁, hset₂, fun s => ?_, linked_append.mpr ⟨h₁.update hr _, ?_, trivial⟩⟩
  · rw [modify_eq_none_iff hset₂, modify_eq_none_iff hset₁]
  · rw [update_self, lastOr_concat, firstOr_nil, hnext]

/-! ## Moving a cell -/

/-- The neighbours of a cell are told of each other; the cell keeps what it has. -/
theorem Linked.detach (h : Linked heap none (l₁ ++ (r, a) :: l₂) none) :
    ∃ heap₁ heap₂, DoublyLinked.setNextOf heap (lastOr l₁ none) (firstOr l₂ none) = some heap₁ ∧
      DoublyLinked.setPrevOf heap₁ (firstOr l₂ none) (lastOr l₁ none) = some heap₂ ∧
      (∀ s, heap₂ s = none ↔ heap s = none) ∧ heap₂ r = heap r ∧
      Linked heap₂ none (l₁ ++ l₂) none := by
  obtain ⟨hr₁, hr₂, -⟩ := h.notMem
  obtain ⟨heap₁, heap₂, hset₁, hset₂, hnone, hlinked⟩ := h.unlink
  refine ⟨heap₁, heap₂, hset₁, hset₂, hnone, ?_, hlinked.congr fun c hc => ?_⟩
  · exact (cell_setPrevOf hset₂ hr₂).trans (cell_setNextOf hset₁ hr₁)
  · rw [free, update_of_ne]
    rintro rfl
    have hmem := mem_map_of_mem (f := Prod.fst) hc
    rw [map_append, mem_append] at hmem
    exact hmem.elim hr₁ hr₂

/-- A cell is put into a list; its neighbours are told last. -/
theorem Linked.relink (h : Linked heap none (l₁ ++ l₂) none) {c : Cell R A}
    (hcell : heap r = some c) (hr : r ∉ (l₁ ++ l₂).map Prod.fst) :
    ∃ heap₁ heap₂ heap₃ heap₄,
      DoublyLinked.setNext heap r (firstOr l₂ none) = some heap₁ ∧
      DoublyLinked.setPrev heap₁ r (lastOr l₁ none) = some heap₂ ∧
      DoublyLinked.setPrevOf heap₂ (firstOr l₂ none) (some r) = some heap₃ ∧
      DoublyLinked.setNextOf heap₃ (lastOr l₁ none) (some r) = some heap₄ ∧
      (∀ s, heap₄ s = none ↔ heap s = none) ∧
      Linked heap₄ none (l₁ ++ (r, c.data) :: l₂) none := by
  have hnodup := h.nodup
  rw [map_append, mem_append, not_or] at hr
  obtain ⟨hr₁, hr₂⟩ := hr
  rw [map_append, nodup_append'] at hnodup
  obtain ⟨hnodup₁, -, hdisjoint⟩ := hnodup
  obtain ⟨h₁, h₂⟩ := linked_append.mp h
  have hset₁ : DoublyLinked.setNext heap r (firstOr l₂ none) = _ := modify_of_cell hcell _
  have hcell₁ := @Function.update_self _ _ _ r (some { c with next := firstOr l₂ none }) heap
  have hset₂ : DoublyLinked.setPrev _ r (lastOr l₁ none) = _ := modify_of_cell hcell₁ _
  obtain ⟨heap₃, hset₃, hnone₃, h₁, h₂⟩ := ((h₁.update hr₁ _).update hr₁ _).setPrevOf
    ((h₂.update hr₂ _).update hr₂ _) hdisjoint (some r)
  obtain ⟨heap₄, hset₄, hnone₄, h₁, h₂⟩ := h₁.setNextOf h₂ hnodup₁ hdisjoint (some r)
  refine ⟨_, _, heap₃, heap₄, hset₁, hset₂, hset₃, hset₄, fun s => ?_,
    linked_append.mpr ⟨h₁, ?_, h₂⟩⟩
  · rw [hnone₄, hnone₃, modify_eq_none_iff hset₂, modify_eq_none_iff hset₁]
  · rw [cell_setNextOf hset₄ hr₁, cell_setPrevOf hset₃ hr₂]
    exact update_self ..

/-- A cell is put in front of a list. -/
theorem Linked.relinkFirst {s : R} {b : A} (h : Linked heap none ((s, b) :: l) none) {c : Cell R A}
    (hcell : heap r = some c) (hr : r ∉ ((s, b) :: l).map Prod.fst) :
    ∃ heap₁ heap₂ heap₃,
      DoublyLinked.setPrev heap r none = some heap₁ ∧
      DoublyLinked.setNext heap₁ r (some s) = some heap₂ ∧
      DoublyLinked.setPrev heap₂ s (some r) = some heap₃ ∧
      (∀ s, heap₃ s = none ↔ heap s = none) ∧
      Linked heap₃ none ((r, c.data) :: (s, b) :: l) none := by
  have hset₁ : DoublyLinked.setPrev heap r none = _ := modify_of_cell hcell _
  have hcell₁ := @Function.update_self _ _ _ r (some { c with prev := none }) heap
  have hset₂ : DoublyLinked.setNext _ r (some s) = _ := modify_of_cell hcell₁ _
  have hs := h.nodup
  rw [map_cons, nodup_cons] at hs
  obtain ⟨heap₃, hset₃, h'⟩ := ((h.update hr _).update hr _).setPrev hs.1 (some r)
  have hne : r ≠ s := fun heq => hr (heq ▸ mem_cons_self)
  refine ⟨_, _, heap₃, hset₁, hset₂, hset₃, fun t => ?_, ?_, h'⟩
  · rw [modify_eq_none_iff hset₃, modify_eq_none_iff hset₂, modify_eq_none_iff hset₁]
  · rw [modify_of_ne hset₃ hne]
    exact update_self ..

end DoublyLinked
