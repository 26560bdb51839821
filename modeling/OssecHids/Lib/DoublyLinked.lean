import Mathlib.Data.List.Nodup

/-!
# Doubly linked lists in a heap

A heap is a partial function from addresses to cells; a cell holds the addresses of its two
neighbours. Writing through an address that is not in use is not possible.

- `Linked`: the cells that stand between two addresses, in order;
- `Linked.unique`: the heap decides what stands behind an address;
- `Linked.setNext`, `Linked.setPrev`: what stands behind the last cell, and in front of the first;
- `Linked.unlink`: a cell taken out;
- `Path`: the cells along the forward links, whatever the backward links are.
-/

open List Option Function

namespace DoublyLinked

variable {R A : Type*}

structure Cell (R A : Type*) where
  prev : Option R
  next : Option R
  data : A

abbrev Heap (R A : Type*) := R → Option (Cell R A)

/-- The address of the first cell, or what stands behind the cells. -/
def firstOr (l : List (R × A)) (next : Option R) : Option R := (l.head?.map Prod.fst).or next

/-- The address of the last cell, or what stands in front of the cells. -/
def lastOr (l : List (R × A)) (prev : Option R) : Option R := (l.getLast?.map Prod.fst).or prev

/-- The cells between `prev` and `next`: each one has its neighbours' addresses. -/
def Linked (heap : Heap R A) : Option R → List (R × A) → Option R → Prop
  | _, [], _ => True
  | prev, (r, a) :: l, next =>
    heap r = some ⟨prev, firstOr l next, a⟩ ∧ Linked heap (some r) l next

variable {heap heap' : Heap R A} {p q p' q' : Option R} {r : R} {a : A} {l l' l₁ l₂ : List (R × A)}

@[simp]
theorem firstOr_nil : firstOr ([] : List (R × A)) q = q := rfl

@[simp]
theorem firstOr_cons : firstOr ((r, a) :: l) q = some r := rfl

@[simp]
theorem lastOr_nil : lastOr ([] : List (R × A)) p = p := rfl

@[simp]
theorem lastOr_concat : lastOr (l ++ [(r, a)]) p = some r := by
  simp [lastOr]

theorem firstOr_append : firstOr (l₁ ++ l₂) q = firstOr l₁ (firstOr l₂ q) := by
  cases l₁ <;> rfl

theorem lastOr_append : lastOr (l₁ ++ l₂) p = lastOr l₂ (lastOr l₁ p) := by
  rw [lastOr, lastOr, lastOr, getLast?_append]
  cases l₂.getLast? <;> rfl

theorem lastOr_cons : lastOr ((r, a) :: l) p = lastOr l (some r) := by
  rw [lastOr, lastOr, getLast?_cons]
  cases l.getLast? <;> rfl

theorem firstOr_none : firstOr l none = l.head?.map Prod.fst := or_none

theorem lastOr_none : lastOr l none = l.getLast?.map Prod.fst := or_none

theorem mem_of_firstOr (h : firstOr l none = some r) : r ∈ l.map Prod.fst := by
  rw [firstOr_none, ← head?_map] at h
  exact mem_of_mem_head? h

theorem mem_of_lastOr (h : lastOr l none = some r) : r ∈ l.map Prod.fst := by
  rw [lastOr_none, ← getLast?_map] at h
  exact mem_of_getLast? h

/-! ## Lists -/

theorem linked_append :
    Linked heap p (l₁ ++ l₂) q ↔
      Linked heap p l₁ (firstOr l₂ q) ∧ Linked heap (lastOr l₁ p) l₂ q := by
  induction l₁ generalizing p with
  | nil => simp [Linked]
  | cons c l₁ ih =>
    obtain ⟨r, a⟩ := c
    rw [cons_append, Linked, Linked, ih, firstOr_append, lastOr_cons, and_assoc]

theorem Linked.congr (h : Linked heap p l q) (hsame : ∀ c ∈ l, heap' c.1 = heap c.1) :
    Linked heap' p l q := by
  induction l generalizing p with
  | nil => trivial
  | cons c l ih =>
    obtain ⟨r, a⟩ := c
    obtain ⟨hhead, hrest⟩ := forall_mem_cons.mp hsame
    exact ⟨hhead.trans h.1, ih h.2 hrest⟩

/-! ## Forward links -/

/-- The cells up to `next`, each with the address of the one behind it. -/
def Path (heap : Heap R A) : List (R × A) → Option R → Prop
  | [], _ => True
  | (r, a) :: l, next => (∃ prev, heap r = some ⟨prev, firstOr l next, a⟩) ∧ Path heap l next

theorem Linked.path (h : Linked heap p l q) : Path heap l q := by
  induction l generalizing p with
  | nil => trivial
  | cons c l ih => exact ⟨⟨_, h.1⟩, ih h.2⟩

theorem path_append :
    Path heap (l₁ ++ l₂) q ↔ Path heap l₁ (firstOr l₂ q) ∧ Path heap l₂ q := by
  induction l₁ with
  | nil => simp [Path]
  | cons c l₁ ih =>
    obtain ⟨r, a⟩ := c
    rw [cons_append, Path, Path, ih, firstOr_append, and_assoc]

theorem Path.congr (h : Path heap l q) (hsame : ∀ c ∈ l, heap' c.1 = heap c.1) :
    Path heap' l q := by
  induction l with
  | nil => trivial
  | cons c l ih =>
    obtain ⟨r, a⟩ := c
    obtain ⟨hhead, hrest⟩ := forall_mem_cons.mp hsame
    obtain ⟨⟨prev, hcell⟩, hl⟩ := h
    exact ⟨⟨prev, hhead.trans hcell⟩, ih hl hrest⟩

theorem Path.cell (h : Path heap l q) :
    ∀ c ∈ l, ∃ prev next, heap c.1 = some ⟨prev, next, c.2⟩ := by
  induction l with
  | nil => simp
  | cons c l ih =>
    obtain ⟨⟨prev, hcell⟩, hl⟩ := h
    exact forall_mem_cons.mpr ⟨⟨prev, _, hcell⟩, ih hl⟩

theorem Path.ne_none (h : Path heap l q) : ∀ s ∈ l.map Prod.fst, heap s ≠ none := by
  intro s hs
  obtain ⟨c, hc, rfl⟩ := mem_map.mp hs
  obtain ⟨prev, next, hcell⟩ := h.cell c hc
  rw [hcell]
  exact some_ne_none _

/-- The heap decides which cells lie behind an address. -/
theorem Path.unique (h : Path heap l none) (h' : Path heap l' none)
    (hfirst : firstOr l none = firstOr l' none) : l = l' := by
  induction l generalizing l' with
  | nil =>
    cases l' with
    | nil => rfl
    | cons c l' => cases hfirst
  | cons c l ih =>
    obtain ⟨r, a⟩ := c
    cases l' with
    | nil => cases hfirst
    | cons c' l' =>
      obtain ⟨r', a'⟩ := c'
      obtain rfl : r = r' := some.inj hfirst
      obtain ⟨⟨_, hcell⟩, hl⟩ := h
      obtain ⟨⟨_, hcell'⟩, hl'⟩ := h'
      have heq := some.inj (hcell.symm.trans hcell')
      simp only [Cell.mk.injEq] at heq
      obtain ⟨-, hnext, rfl⟩ := heq
      rw [ih hl hl' hnext]

theorem Path.nodup (h : Path heap l none) : (l.map Prod.fst).Nodup := by
  induction l with
  | nil => exact nodup_nil
  | cons c l ih =>
    obtain ⟨r, a⟩ := c
    refine nodup_cons.mpr ⟨fun hmem => ?_, ih h.2⟩
    -- what stands behind the second way through the cell would be as long as the first
    obtain ⟨⟨r', a'⟩, hc, hr⟩ := mem_map.mp hmem
    obtain rfl : r' = r := hr
    obtain ⟨l₁, l₂, rfl⟩ := append_of_mem hc
    have hlater := (path_append.mp h.2).2
    have heq := congrArg List.length (h.unique hlater rfl)
    simp only [length_cons, length_append] at heq
    omega

theorem Linked.unique (h : Linked heap p l none) (h' : Linked heap p' l' none)
    (hfirst : firstOr l none = firstOr l' none) : l = l' :=
  h.path.unique h'.path hfirst

theorem Linked.nodup (h : Linked heap p l none) : (l.map Prod.fst).Nodup := h.path.nodup

theorem Linked.cell (h : Linked heap p l q) :
    ∀ c ∈ l, ∃ prev next, heap c.1 = some ⟨prev, next, c.2⟩ := h.path.cell

theorem Linked.notMem {c : R × A} (h : Linked heap p (l₁ ++ c :: l₂) none) :
    c.1 ∉ l₁.map Prod.fst ∧ c.1 ∉ l₂.map Prod.fst ∧
      ∀ s ∈ l₁.map Prod.fst, s ∉ l₂.map Prod.fst := by
  have hnodup := h.nodup
  rw [map_append, map_cons, nodup_append', nodup_cons] at hnodup
  obtain ⟨-, ⟨hr, -⟩, hdisjoint⟩ := hnodup
  exact ⟨fun hmem => hdisjoint hmem mem_cons_self, hr,
    fun s hs hmem => hdisjoint hs (mem_cons_of_mem _ hmem)⟩

/-- The heaps differ at the given addresses only. -/
def Frame (refs : List R) (heap heap' : Heap R A) : Prop := ∀ s ∉ refs, heap' s = heap s

section Frame

variable {refs refs' : List R} {heap'' : Heap R A}

theorem Frame.refl (refs : List R) (heap : Heap R A) : Frame refs heap heap := fun _ _ => rfl

theorem Frame.trans (h : Frame refs heap heap') (h' : Frame refs heap' heap'') :
    Frame refs heap heap'' := fun s hs => (h' s hs).trans (h s hs)

theorem Frame.mono (h : Frame refs heap heap') (hsub : refs ⊆ refs') : Frame refs' heap heap' :=
  fun s hs => h s fun hmem => hs (hsub hmem)

theorem Path.frame (h : Path heap l q) (hframe : Frame refs heap heap')
    (hdisjoint : ∀ s ∈ l.map Prod.fst, s ∉ refs) : Path heap' l q :=
  h.congr fun _ hc => hframe _ (hdisjoint _ (mem_map_of_mem hc))

theorem Linked.frame (h : Linked heap p l q) (hframe : Frame refs heap heap')
    (hdisjoint : ∀ s ∈ l.map Prod.fst, s ∉ refs) : Linked heap' p l q :=
  h.congr fun _ hc => hframe _ (hdisjoint _ (mem_map_of_mem hc))

end Frame

/-! ## Writes -/

variable [DecidableEq R]

/-- A write to the cell at `r`, which has to be in use. -/
def modify (heap : Heap R A) (r : R) (f : Cell R A → Cell R A) : Option (Heap R A) :=
  (heap r).map fun c => Function.update heap r (some (f c))

/-- `r->next = next` -/
def setNext (heap : Heap R A) (r : R) (next : Option R) : Option (Heap R A) :=
  modify heap r fun c => { c with next }

/-- `r->prev = prev` -/
def setPrev (heap : Heap R A) (r : R) (prev : Option R) : Option (Heap R A) :=
  modify heap r fun c => { c with prev }

/-- `free(r)` -/
def free (heap : Heap R A) (r : R) : Heap R A := Function.update heap r none

theorem modify_of_cell {c : Cell R A} (hc : heap r = some c) (f : Cell R A → Cell R A) :
    modify heap r f = some (Function.update heap r (some (f c))) := by
  rw [modify, hc]
  rfl

theorem modify_eq_none_iff {f : Cell R A → Cell R A} (h : modify heap r f = some heap') (s : R) :
    heap' s = none ↔ heap s = none := by
  obtain ⟨c, hc, rfl⟩ := map_eq_some_iff.mp h
  by_cases hs : s = r
  · subst hs
    simp [hc]
  · rw [update_of_ne hs]

theorem modify_of_ne {f : Cell R A → Cell R A} (h : modify heap r f = some heap') {s : R}
    (hs : s ≠ r) : heap' s = heap s := by
  obtain ⟨c, -, rfl⟩ := map_eq_some_iff.mp h
  exact update_of_ne hs ..

theorem frame_modify {f : Cell R A → Cell R A} {refs : List R} (h : modify heap r f = some heap')
    (hr : r ∈ refs) : Frame refs heap heap' := by
  intro s hs
  apply modify_of_ne h
  rintro rfl
  exact hs hr

theorem frame_update {refs : List R} (hr : r ∈ refs) (c : Option (Cell R A)) :
    Frame refs heap (Function.update heap r c) := by
  intro s hs
  apply update_of_ne
  rintro rfl
  exact hs hr

theorem Linked.update (h : Linked heap p l q) (hr : r ∉ l.map Prod.fst) (c : Option (Cell R A)) :
    Linked (Function.update heap r c) p l q := by
  apply h.congr
  intro c' hc'
  rw [update_of_ne]
  rintro rfl
  exact hr (mem_map_of_mem hc')

theorem Linked.modify (h : Linked heap p l q) (hr : r ∉ l.map Prod.fst)
    {f : Cell R A → Cell R A} (hmodify : modify heap r f = some heap') : Linked heap' p l q := by
  obtain ⟨c, -, rfl⟩ := map_eq_some_iff.mp hmodify
  exact h.update hr _

theorem Linked.setNext (h : Linked heap p (l ++ [(r, a)]) q) (hr : r ∉ l.map Prod.fst)
    (q' : Option R) :
    ∃ heap', setNext heap r q' = some heap' ∧ Linked heap' p (l ++ [(r, a)]) q' := by
  obtain ⟨hl, hcell, -⟩ := linked_append.mp h
  refine ⟨_, modify_of_cell hcell _, linked_append.mpr ⟨hl.update hr _, ?_, trivial⟩⟩
  exact update_self ..

theorem Path.modify (h : Path heap l q) (hr : r ∉ l.map Prod.fst) {f : Cell R A → Cell R A}
    (hmodify : modify heap r f = some heap') : Path heap' l q :=
  h.congr fun _ hc => modify_of_ne hmodify fun heq => hr (heq ▸ mem_map_of_mem hc)

theorem Path.setNext (h : Path heap (l ++ [(r, a)]) q) (hr : r ∉ l.map Prod.fst)
    (q' : Option R) :
    ∃ heap', setNext heap r q' = some heap' ∧ Path heap' (l ++ [(r, a)]) q' := by
  obtain ⟨hl, ⟨prev, hcell⟩, -⟩ := path_append.mp h
  have hset : DoublyLinked.setNext heap r q' = _ := modify_of_cell hcell _
  exact ⟨_, hset, path_append.mpr ⟨hl.modify hr hset, ⟨prev, update_self ..⟩, trivial⟩⟩

theorem Linked.setPrev (h : Linked heap p ((r, a) :: l) q) (hr : r ∉ l.map Prod.fst)
    (p' : Option R) :
    ∃ heap', setPrev heap r p' = some heap' ∧ Linked heap' p' ((r, a) :: l) q := by
  obtain ⟨hcell, hl⟩ := h
  exact ⟨_, modify_of_cell hcell _, update_self .., hl.update hr _⟩

/-- `next` becomes what stands behind some cells, if there are any. -/
def setNextOf (heap : Heap R A) (prev next : Option R) : Option (Heap R A) :=
  match prev with
  | some p => DoublyLinked.setNext heap p next
  | none => some heap

/-- `prev` becomes what stands in front of some cells, if there are any. -/
def setPrevOf (heap : Heap R A) (next prev : Option R) : Option (Heap R A) :=
  match next with
  | some n => DoublyLinked.setPrev heap n prev
  | none => some heap

theorem frame_setNextOf {refs : List R} (h : setNextOf heap p q = some heap')
    (hp : ∀ r, p = some r → r ∈ refs) : Frame refs heap heap' := by
  cases p with
  | none =>
    obtain rfl : heap = heap' := some.inj h
    exact .refl _ _
  | some r => exact frame_modify h (hp r rfl)

theorem frame_setPrevOf {refs : List R} (h : setPrevOf heap p q = some heap')
    (hp : ∀ r, p = some r → r ∈ refs) : Frame refs heap heap' := by
  cases p with
  | none =>
    obtain rfl : heap = heap' := some.inj h
    exact .refl _ _
  | some r => exact frame_modify h (hp r rfl)

theorem Path.endAt (h : Path heap l q) (hnodup : (l.map Prod.fst).Nodup) (q' : Option R) :
    ∃ heap', setNextOf heap (lastOr l none) q' = some heap' ∧ Path heap' l q' ∧
      Frame (l.map Prod.fst) heap heap' := by
  rcases eq_nil_or_concat' l with rfl | ⟨l, ⟨s, b⟩, rfl⟩
  · exact ⟨heap, rfl, trivial, .refl _ _⟩
  · rw [map_append, map_singleton, ← concat_eq_append, nodup_concat] at hnodup
    obtain ⟨heap', hset, hpath⟩ := h.setNext hnodup.1 q'
    exact ⟨heap', by rwa [lastOr_concat], hpath, frame_modify hset (by simp)⟩

/-- A cell is put behind the last one of a path. -/
theorem Path.concat (h : Path heap l q') (hcell : heap r = some ⟨p, q, a⟩)
    (hnodup : ((l ++ [(r, a)]).map Prod.fst).Nodup) :
    ∃ heap', setNextOf heap (lastOr l none) (some r) = some heap' ∧
      Path heap' (l ++ [(r, a)]) q ∧ Frame (l.map Prod.fst) heap heap' := by
  rcases eq_nil_or_concat' l with rfl | ⟨l, ⟨s, b⟩, rfl⟩
  · exact ⟨heap, rfl, ⟨⟨p, hcell⟩, trivial⟩, .refl _ _⟩
  · rw [map_append, nodup_append', map_append, nodup_append'] at hnodup
    obtain ⟨⟨-, -, hs⟩, -, hr⟩ := hnodup
    have hsl : s ∉ l.map Prod.fst := fun hmem => hs hmem (by simp)
    have hrs : r ≠ s := by
      rintro rfl
      exact hr (show r ∈ _ by simp) (by simp)
    obtain ⟨heap', hset, hpath⟩ := h.setNext hsl (some r)
    refine ⟨heap', by rwa [lastOr_concat], path_append.mpr ⟨hpath, ⟨p, ?_⟩, trivial⟩,
      frame_modify hset (by simp)⟩
    rw [modify_of_ne hset hrs, hcell]
    rfl

theorem Linked.setNextOf (h₁ : Linked heap none l₁ q) (h₂ : Linked heap p l₂ none)
    (hnodup : (l₁.map Prod.fst).Nodup)
    (hdisjoint : ∀ s ∈ l₁.map Prod.fst, s ∉ l₂.map Prod.fst) (q' : Option R) :
    ∃ heap', setNextOf heap (lastOr l₁ none) q' = some heap' ∧
      (∀ s, heap' s = none ↔ heap s = none) ∧ Linked heap' none l₁ q' ∧
      Linked heap' p l₂ none := by
  rcases eq_nil_or_concat' l₁ with rfl | ⟨l, ⟨s, b⟩, rfl⟩
  · exact ⟨heap, rfl, fun s => Iff.rfl, trivial, h₂⟩
  · rw [map_append, map_singleton, ← concat_eq_append, nodup_concat] at hnodup
    obtain ⟨heap', hset, h₁⟩ := h₁.setNext hnodup.1 q'
    refine ⟨heap', ?_, modify_eq_none_iff hset, h₁, h₂.modify (hdisjoint s (by simp)) hset⟩
    rw [lastOr_concat]
    exact hset

theorem Linked.setPrevOf (h₁ : Linked heap none l₁ q) (h₂ : Linked heap p l₂ none)
    (hdisjoint : ∀ s ∈ l₁.map Prod.fst, s ∉ l₂.map Prod.fst) (p' : Option R) :
    ∃ heap', setPrevOf heap (firstOr l₂ none) p' = some heap' ∧
      (∀ s, heap' s = none ↔ heap s = none) ∧ Linked heap' none l₁ q ∧
      Linked heap' p' l₂ none := by
  cases l₂ with
  | nil => exact ⟨heap, rfl, fun s => Iff.rfl, h₁, trivial⟩
  | cons c l₂ =>
    obtain ⟨s, b⟩ := c
    have hnodup := h₂.nodup
    rw [map_cons, nodup_cons] at hnodup
    have hs : s ∉ l₁.map Prod.fst := fun hmem => hdisjoint s hmem mem_cons_self
    obtain ⟨heap', hset, h₂⟩ := h₂.setPrev hnodup.1 p'
    exact ⟨heap', hset, modify_eq_none_iff hset, h₁.modify hs hset, h₂⟩

/-- The neighbours of a cell are told of each other, and the cell is out of the list. -/
theorem Linked.unlink (h : Linked heap none (l₁ ++ (r, a) :: l₂) none) :
    ∃ heap₁ heap₂, DoublyLinked.setNextOf heap (lastOr l₁ none) (firstOr l₂ none) = some heap₁ ∧
      DoublyLinked.setPrevOf heap₁ (firstOr l₂ none) (lastOr l₁ none) = some heap₂ ∧
      (∀ s, heap₂ s = none ↔ heap s = none) ∧ Linked (free heap₂ r) none (l₁ ++ l₂) none := by
  obtain ⟨hr₁, hr₂, hdisjoint⟩ := h.notMem
  obtain ⟨h₁, -, h₂⟩ := linked_append.mp h
  have hnodup : (l₁.map Prod.fst).Nodup := by
    have hnodup := h.nodup
    rw [map_append] at hnodup
    exact (nodup_append'.mp hnodup).1
  obtain ⟨heap₁, hset₁, hnone₁, h₁, h₂⟩ := h₁.setNextOf h₂ hnodup hdisjoint (firstOr l₂ none)
  obtain ⟨heap₂, hset₂, hnone₂, h₁, h₂⟩ := h₁.setPrevOf h₂ hdisjoint (lastOr l₁ none)
  refine ⟨heap₁, heap₂, hset₁, hset₂, fun s => (hnone₂ s).trans (hnone₁ s), ?_⟩
  exact linked_append.mpr ⟨h₁.update hr₁ _, h₂.update hr₂ _⟩

end DoublyLinked
