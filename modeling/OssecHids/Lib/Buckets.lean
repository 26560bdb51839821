import Mathlib.Data.List.Basic

/-!
# Buckets

Values are put into the bucket of their key, one after the other; a bucket is made for its first
value. The buckets stand in the order in which they were made.

- `put_of_mem`, `put_of_notMem`: the bucket is there, or it is made;
- `named_filed`: in the end each key has one bucket with all its values, or none.
-/

open List

namespace Buckets

variable {κ α : Type*} [DecidableEq κ]

/-- Putting a value into the bucket of a key. -/
def put (k : κ) (a : α) : List (κ × List α) → List (κ × List α)
  | [] => [(k, [a])]
  | (k', as) :: bs => if k' = k then (k', as ++ [a]) :: bs else (k', as) :: put k a bs

/-- The buckets after some values are put into them. -/
def fill (bs : List (κ × List α)) (entries : List (κ × α)) : List (κ × List α) :=
  entries.foldl (fun bs e => put e.1 e.2 bs) bs

/-- The buckets of a key. -/
def named {β : Type*} (k : κ) (items : List (κ × β)) : List β :=
  (items.filter (·.1 = k)).map Prod.snd

/-- The values of a key. -/
def valuesOf (k : κ) (entries : List (κ × α)) : List α := named k entries

variable {k k' : κ} {a : α} {as : List α} {bs l r : List (κ × List α)}

theorem fill_nil (bs : List (κ × List α)) : fill bs [] = bs := rfl

theorem fill_cons (bs : List (κ × List α)) (e : κ × α) (entries : List (κ × α)) :
    fill bs (e :: entries) = fill (put e.1 e.2 bs) entries := rfl

section

variable {β : Type*} {v : β} {items items' : List (κ × β)}

@[simp]
theorem named_nil (k : κ) : named k ([] : List (κ × β)) = [] := rfl

theorem named_append (k : κ) (items items' : List (κ × β)) :
    named k (items ++ items') = named k items ++ named k items' := by
  rw [named, filter_append, map_append, named, named]

theorem named_cons_self (k : κ) (v : β) (items : List (κ × β)) :
    named k ((k, v) :: items) = v :: named k items := by
  rw [named, filter_cons_of_pos (by simp), map_cons, named]

theorem named_cons_of_ne (h : k' ≠ k) (v : β) (items : List (κ × β)) :
    named k ((k', v) :: items) = named k items := by
  rw [named, filter_cons_of_neg (by simpa using h), named]

theorem named_eq_nil_iff : named k items = [] ↔ k ∉ items.map Prod.fst := by
  rw [named, map_eq_nil_iff, filter_eq_nil_iff, mem_map, not_exists]
  simp only [decide_eq_true_eq, not_and]

theorem named_map {γ : Type*} (f : β → γ) (k : κ) (items : List (κ × β)) :
    named k (items.map fun item => (item.1, f item.2)) = (named k items).map f := by
  induction items with
  | nil => rfl
  | cons item items ih =>
    obtain ⟨k', v⟩ := item
    rw [map_cons]
    by_cases h : k' = k
    · subst h
      rw [named_cons_self, named_cons_self, ih, map_cons]
    · rw [named_cons_of_ne h, named_cons_of_ne h, ih]

end

theorem put_of_notMem (h : k ∉ bs.map Prod.fst) (a : α) : put k a bs = bs ++ [(k, [a])] := by
  induction bs with
  | nil => rfl
  | cons b bs ih =>
    rw [map_cons, mem_cons, not_or] at h
    rw [put, if_neg (Ne.symm h.1), ih h.2, cons_append]

/-- The first bucket of the key takes the value. -/
theorem put_of_mem (h : k ∈ bs.map Prod.fst) :
    ∃ l as r, bs = l ++ (k, as) :: r ∧ k ∉ l.map Prod.fst ∧
      ∀ a, put k a bs = l ++ (k, as ++ [a]) :: r := by
  induction bs with
  | nil => cases h
  | cons b bs ih =>
    obtain ⟨k', as'⟩ := b
    by_cases hk : k' = k
    case pos =>
      subst hk
      exact ⟨[], as', bs, rfl, not_mem_nil, fun a => if_pos rfl⟩
    case neg =>
      have hmem : k ∈ bs.map Prod.fst := (mem_cons.mp h).resolve_left (Ne.symm hk)
      obtain ⟨l, as, r, rfl, hl, hput⟩ := ih hmem
      refine ⟨(k', as') :: l, as, r, rfl, ?_, fun a => ?_⟩
      · exact fun hmem => hl ((mem_cons.mp hmem).resolve_left (Ne.symm hk))
      · rw [put, if_neg hk, hput, cons_append]

theorem mem_keys_put : k' ∈ (put k a bs).map Prod.fst ↔ k' ∈ bs.map Prod.fst ∨ k' = k := by
  by_cases h : k ∈ bs.map Prod.fst
  case neg => simp [put_of_notMem h]
  case pos =>
    obtain ⟨l, as, r, rfl, -, hput⟩ := put_of_mem h
    rw [hput]
    simp only [map_append, map_cons, mem_append, mem_cons]
    tauto

/-- The buckets of a key: none as long as it has no values. -/
def single (as : List α) : List (List α) := if as = [] then [] else [as]

theorem single_append_singleton (as : List α) (a : α) : single (as ++ [a]) = [as ++ [a]] :=
  if_neg (append_ne_nil_of_right_ne_nil as (cons_ne_nil a []))

theorem named_put (h : named k bs = single as) : named k (put k a bs) = single (as ++ [a]) := by
  rw [single_append_singleton]
  by_cases hk : k ∈ bs.map Prod.fst
  case neg =>
    rw [named_eq_nil_iff.mpr hk] at h
    have has : as = [] := by
      by_contra hne
      rw [single, if_neg hne] at h
      cases h
    rw [put_of_notMem hk, named_append, named_eq_nil_iff.mpr hk, named_cons_self, has]
    rfl
  case pos =>
    obtain ⟨l, as', r, rfl, hl, hput⟩ := put_of_mem hk
    rw [named_append, named_eq_nil_iff.mpr hl, named_cons_self, nil_append] at h
    -- there is no second bucket
    have has : single as = [as] := by
      rw [single] at h ⊢
      split_ifs at h ⊢
      rfl
    obtain ⟨rfl, hr⟩ := List.cons.inj (h.trans has)
    rw [hput, named_append, named_eq_nil_iff.mpr hl, named_cons_self, hr]
    rfl

theorem named_put_of_ne (hne : k' ≠ k) (a : α) (bs : List (κ × List α)) :
    named k (put k' a bs) = named k bs := by
  induction bs with
  | nil => exact named_cons_of_ne hne _ _
  | cons b bs ih =>
    obtain ⟨k'', as⟩ := b
    rw [put]
    split
    case isTrue h =>
      subst h
      rw [named_cons_of_ne hne, named_cons_of_ne hne]
    case isFalse =>
      by_cases h : k'' = k
      · subst h
        rw [named_cons_self, named_cons_self, ih]
      · rw [named_cons_of_ne h, named_cons_of_ne h, ih]

theorem named_fill (h : named k bs = single as) (entries : List (κ × α)) :
    named k (fill bs entries) = single (as ++ valuesOf k entries) := by
  induction entries generalizing bs as with
  | nil => rw [fill_nil, h, valuesOf, named_nil, append_nil]
  | cons e entries ih =>
    obtain ⟨k', a⟩ := e
    rw [fill_cons]
    by_cases hk : k' = k
    case pos =>
      subst hk
      rw [ih (named_put h), valuesOf, valuesOf, named_cons_self, append_assoc]
      rfl
    case neg =>
      have hrest : named k (put k' a bs) = single as := by rw [named_put_of_ne hk, h]
      rw [ih hrest, valuesOf, valuesOf, named_cons_of_ne hk]

theorem named_filed (k : κ) (entries : List (κ × α)) :
    named k (fill [] entries) = single (valuesOf k entries) := by
  have hempty : named k ([] : List (κ × List α)) = single [] := rfl
  rw [named_fill hempty, nil_append]

end Buckets
