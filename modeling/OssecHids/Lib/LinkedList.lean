import Mathlib.Data.Finset.Card

/-!
# Singly linked lists in a heap

A heap is a partial function from addresses to cells, and `next` the link of a cell.

- `Chain`: the cells that a pointer leads to, down to the null pointer;
- `walk_eq`, `walkFrom_eq`: what a loop over the list finds, and which cell it came from;
- `Chain.congr`, `Chain.unlink_head`, `Chain.unlink`: chains after a write to the heap.
-/

open List Function

namespace LinkedList

variable {R N : Type*}

/-- The cells from a pointer down to the end of the list, in order. -/
inductive Chain (heap : R → Option N) (next : N → Option R) : Option R → List (R × N) → Prop
  | nil : Chain heap next none []
  | cons {r : R} {n : N} {l : List (R × N)} :
      heap r = some n → Chain heap next (next n) l → Chain heap next (some r) ((r, n) :: l)

/-- A loop that stops at the first cell with `p`. -/
def walk (heap : R → Option N) (next : N → Option R) (p : N → Bool) :
    ℕ → Option R → Option (R × N)
  | 0, _ => none
  | _ + 1, none => none
  | fuel + 1, some r =>
    match heap r with
    | none => none
    | some n => if p n then some (r, n) else walk heap next p fuel (next n)

/-- The loop, together with the address of the cell before (`prev`, when there is none). -/
def walkFrom (heap : R → Option N) (next : N → Option R) (p : N → Bool) :
    ℕ → Option R → Option R → Option (Option R × R × N)
  | 0, _, _ => none
  | _ + 1, _, none => none
  | fuel + 1, prev, some r =>
    match heap r with
    | none => none
    | some n => if p n then some (prev, r, n) else walkFrom heap next p fuel (some r) (next n)

variable {heap heap' : R → Option N} {next : N → Option R} {p : N → Bool}
  {q : Option R} {r : R} {n : N} {l l' : List (R × N)}

/-! ## Chains -/

theorem Chain.cell (h : Chain heap next q l) : ∀ c ∈ l, heap c.1 = some c.2 := by
  induction h with
  | nil => simp
  | cons hr _ ih =>
    intro c hc
    rcases mem_cons.mp hc with rfl | hc
    · exact hr
    · exact ih c hc

theorem Chain.unique (h : Chain heap next q l) (h' : Chain heap next q l') : l = l' := by
  induction h generalizing l' with
  | nil =>
    cases h'
    rfl
  | cons hr _ ih =>
    cases h' with
    | cons hr' hl' =>
      obtain rfl := Option.some.inj (hr.symm.trans hr')
      rw [ih hl']

theorem Chain.drop {l₁ l₂ : List (R × N)} (h : Chain heap next q (l₁ ++ l₂)) :
    ∃ q', Chain heap next q' l₂ := by
  induction l₁ generalizing q with
  | nil => exact ⟨q, h⟩
  | cons c l₁ ih =>
    cases h with
    | cons _ hl => exact ih hl

theorem Chain.head {c : R × N} (h : Chain heap next q (c :: l)) : q = some c.1 := by
  cases h
  rfl

theorem Chain.pointer_eq {q' : Option R} (h : Chain heap next q l) (h' : Chain heap' next q' l) :
    q = q' := by
  cases h with
  | nil =>
    cases h'
    rfl
  | cons _ _ => exact h'.head.symm

theorem Chain.eq_none_iff (h : Chain heap next q l) : q = none ↔ l = [] := by
  cases h with
  | nil => exact iff_of_true rfl rfl
  | cons => exact iff_of_false (Option.some_ne_none _) (cons_ne_nil _ _)

theorem Chain.tail (h : Chain heap next q ((r, n) :: l)) : Chain heap next (next n) l := by
  cases h with
  | cons _ hl => exact hl

/-- Only the last cell of a list has no link. -/
theorem Chain.next_eq_none (h : Chain heap next q (l ++ [(r, n)])) :
    next n = none ∧ ∀ c ∈ l, next c.2 ≠ none := by
  induction l generalizing q with
  | nil =>
    cases h with
    | cons _ hl =>
      generalize hq : next n = q' at hl
      cases hl
      exact ⟨rfl, fun c hc => absurd hc not_mem_nil⟩
  | cons c l ih =>
    cases h with
    | cons _ hl =>
      obtain ⟨hlast, hinit⟩ := ih hl
      refine ⟨hlast, forall_mem_cons.mpr ⟨?_, hinit⟩⟩
      obtain ⟨d, rest, hrest⟩ := exists_cons_of_ne_nil (concat_ne_nil (r, n) l)
      have hl' : Chain heap next _ (l ++ [(r, n)]) := hl
      rw [hrest] at hl'
      rw [hl'.head]
      exact Option.some_ne_none _

/-- A list that ends does not come back to a cell. -/
theorem Chain.nodup (h : Chain heap next q l) : (l.map Prod.fst).Nodup := by
  induction h with
  | nil => exact nodup_nil
  | @cons r n l hr hl ih =>
    refine nodup_cons.mpr ⟨fun hmem => ?_, ih⟩
    -- a second way through the cell would be as long as the first
    obtain ⟨⟨r', n'⟩, hc, hrr⟩ := mem_map.mp hmem
    obtain rfl : r' = r := hrr
    obtain ⟨l₁, l₂, rfl⟩ := append_of_mem hc
    obtain ⟨q', hq'⟩ := hl.drop
    obtain rfl := hq'.head
    have hlong : Chain heap next (some r') ((r', n) :: (l₁ ++ (r', n') :: l₂)) := .cons hr hl
    have heq := congrArg List.length (hlong.unique hq')
    simp only [length_cons, length_append] at heq
    omega

theorem Chain.length_le {heap : ℕ → Option N} {next : N → Option ℕ} {q : Option ℕ}
    {l : List (ℕ × N)} (h : Chain heap next q l) {k : ℕ} (hk : ∀ c ∈ l, c.1 < k) :
    l.length ≤ k := by
  have hsub : (l.map Prod.fst).toFinset ⊆ Finset.range k := by
    intro r hr
    obtain ⟨c, hc, rfl⟩ := mem_map.mp (mem_toFinset.mp hr)
    exact Finset.mem_range.mpr (hk c hc)
  have hcard := Finset.card_le_card hsub
  rwa [toFinset_card_of_nodup h.nodup, length_map, Finset.card_range] at hcard

/-! ## Loops -/

theorem walk_eq (h : Chain heap next q l) {fuel : ℕ} (hfuel : l.length ≤ fuel) :
    walk heap next p fuel q = l.find? fun c => p c.2 := by
  induction h generalizing fuel with
  | nil => cases fuel <;> rfl
  | @cons r n l hr _ ih =>
    obtain ⟨fuel, rfl⟩ := Nat.exists_eq_add_one.mpr (lt_of_lt_of_le (Nat.succ_pos _) hfuel)
    simp only [walk, hr, find?_cons]
    cases p n with
    | true => rfl
    | false => exact ih (Nat.le_of_succ_le_succ hfuel)

/-- What the loop finds is the first cell with `p`, and the cell before it is the last of those
without. -/
theorem walkFrom_eq (prev : Option R) (h : Chain heap next q l) {fuel : ℕ}
    (hfuel : l.length ≤ fuel) :
    (walkFrom heap next p fuel prev q = none ∧ ∀ c ∈ l, p c.2 = false) ∨
      ∃ l₁ r n l₂, l = l₁ ++ (r, n) :: l₂ ∧ (∀ c ∈ l₁, p c.2 = false) ∧ p n = true ∧
        walkFrom heap next p fuel prev q = some ((l₁.getLast?.map Prod.fst).or prev, r, n) := by
  induction h generalizing fuel prev with
  | nil =>
    left
    refine ⟨?_, by simp⟩
    cases fuel <;> rfl
  | @cons r n l hr _ ih =>
    obtain ⟨fuel, rfl⟩ := Nat.exists_eq_add_one.mpr (lt_of_lt_of_le (Nat.succ_pos _) hfuel)
    simp only [walkFrom, hr]
    by_cases hp : p n
    · right
      refine ⟨[], r, n, l, rfl, by simp, hp, ?_⟩
      rw [if_pos hp]
      rfl
    · rw [if_neg hp]
      have hp' : p n = false := by simpa using hp
      rcases ih (some r) (Nat.le_of_succ_le_succ hfuel) with
        ⟨hnone, hall⟩ | ⟨l₁, r', n', l₂, rfl, hall, hp₂, hsome⟩
      · left
        exact ⟨hnone, forall_mem_cons.mpr ⟨hp', hall⟩⟩
      · right
        refine ⟨(r, n) :: l₁, r', n', l₂, rfl, forall_mem_cons.mpr ⟨hp', hall⟩, hp₂, ?_⟩
        rw [hsome]
        cases l₁ with
        | nil => rfl
        | cons c l₁ => simp [getLast?_cons]

/-- The loop stops at the first cell with `p`. -/
theorem walkFrom_split {prev : Option R} (h : Chain heap next q l) {fuel : ℕ}
    (hfuel : l.length ≤ fuel) {l₁ l₂ : List (R × N)} (hsplit : l = l₁ ++ (r, n) :: l₂)
    (hl₁ : ∀ c ∈ l₁, p c.2 = false) (hn : p n = true) :
    walkFrom heap next p fuel prev q = some ((l₁.getLast?.map Prod.fst).or prev, r, n) := by
  induction l₁ generalizing q fuel prev l with
  | nil =>
    subst hsplit
    obtain ⟨fuel, rfl⟩ := Nat.exists_eq_add_one.mpr (lt_of_lt_of_le (Nat.succ_pos _) hfuel)
    cases h with
    | cons hr _ => simp [walkFrom, hr, hn]
  | cons c l₁ ih =>
    subst hsplit
    obtain ⟨fuel, rfl⟩ := Nat.exists_eq_add_one.mpr (lt_of_lt_of_le (Nat.succ_pos _) hfuel)
    obtain ⟨hc, hrest⟩ := forall_mem_cons.mp hl₁
    cases h with
    | cons hr hl =>
      simp only [walkFrom, hr, hc, Bool.false_eq_true, if_false]
      rw [ih hl (Nat.le_of_succ_le_succ hfuel) rfl hrest]
      cases l₁ with
      | nil => rfl
      | cons d l₁ => simp [getLast?_cons]

/-! ## Writes -/

theorem Chain.congr (h : Chain heap next q l) (hsame : ∀ c ∈ l, heap' c.1 = heap c.1) :
    Chain heap' next q l := by
  induction h with
  | nil => exact .nil
  | cons hr _ ih =>
    obtain ⟨hhead, hrest⟩ := forall_mem_cons.mp hsame
    exact .cons (hhead.trans hr) (ih hrest)

variable [DecidableEq R]

theorem Chain.update (h : Chain heap next q l) (hr : r ∉ l.map Prod.fst) (v : Option N) :
    Chain (Function.update heap r v) next q l := by
  apply h.congr
  intro c hc
  rw [update_of_ne]
  rintro rfl
  exact hr (mem_map_of_mem hc)

/-- A cell whose contents change but not its link. -/
theorem Chain.set {l₁ l₂ : List (R × N)} {n' : N} (h : Chain heap next q (l₁ ++ (r, n) :: l₂))
    (hnext : next n' = next n) :
    Chain (Function.update heap r (some n')) next q (l₁ ++ (r, n') :: l₂) := by
  induction l₁ generalizing q with
  | nil =>
    obtain ⟨hr, -⟩ := nodup_cons.mp h.nodup
    cases h with
    | cons _ hl =>
      refine .cons (update_self ..) ?_
      rw [hnext]
      exact hl.update hr _
  | cons c l₁ ih =>
    obtain ⟨hc, -⟩ := nodup_cons.mp h.nodup
    cases h with
    | cons hcell hl =>
      refine .cons ?_ (ih hl)
      rw [update_of_ne, hcell]
      rintro rfl
      exact hc (by simp)

/-- A new cell behind the last one, which is linked to it. -/
theorem Chain.concat {s : R} {m m' : N} (h : Chain heap next q (l ++ [(s, m)]))
    (hr : r ∉ (l ++ [(s, m)]).map Prod.fst) (hnext : next m' = some r) (hlast : next n = none) :
    Chain (Function.update (Function.update heap r (some n)) s (some m')) next q
      (l ++ [(s, m'), (r, n)]) := by
  induction l generalizing q with
  | nil =>
    have hrs : r ≠ s := by simpa using hr
    cases h with
    | cons _ _ =>
      refine .cons (update_self ..) ?_
      rw [hnext]
      refine .cons ?_ ?_
      · rw [update_of_ne hrs, update_self]
      · rw [hlast]
        exact .nil
  | cons c l ih =>
    obtain ⟨hc, -⟩ := nodup_cons.mp h.nodup
    rw [cons_append, map_cons, mem_cons, not_or] at hr
    cases h with
    | cons hcell hl =>
      refine .cons ?_ (ih hl hr.2)
      rw [update_of_ne, update_of_ne (Ne.symm hr.1), hcell]
      rintro rfl
      exact hc (by simp)

theorem Chain.unlink_head (h : Chain heap next q ((r, n) :: l)) :
    Chain (Function.update heap r none) next (next n) l := by
  obtain ⟨hr, -⟩ := nodup_cons.mp h.nodup
  cases h with
  | cons _ hl => exact hl.update hr _

/-- A later cell is taken out: the one before it leads to the next. -/
theorem Chain.unlink {l₁ l₂ : List (R × N)} {s : R} {m m' : N}
    (h : Chain heap next q (l₁ ++ (s, m) :: (r, n) :: l₂)) (hnext : next m' = next n) :
    Chain (Function.update (Function.update heap s (some m')) r none) next q
      (l₁ ++ (s, m') :: l₂) := by
  induction l₁ generalizing q with
  | nil =>
    have hnodup := h.nodup
    simp only [nil_append, map_cons, nodup_cons, mem_cons, not_or] at hnodup
    obtain ⟨⟨hsr, hs⟩, hr, -⟩ := hnodup
    cases h with
    | cons _ hl =>
      have hrest : Chain heap next (next n) l₂ := hl.tail
      refine .cons ?_ ?_
      · rw [update_of_ne hsr, update_self]
      · rw [hnext]
        exact (hrest.update hs _).update hr _
  | cons c l₁ ih =>
    have hnodup := h.nodup
    simp only [cons_append, map_cons, map_append, nodup_cons,
      mem_append, mem_cons, not_or] at hnodup
    obtain ⟨⟨-, hs, hr, -⟩, -⟩ := hnodup
    cases h with
    | cons hcell hl =>
      refine .cons ?_ (ih hl)
      rw [update_of_ne hr, update_of_ne hs, hcell]

end LinkedList
