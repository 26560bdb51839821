import Mathlib.Data.List.Perm.Basic

/-!
# Grouping a list by a key

The elements of a list that have one key are a group; the groups stand in the order of the keys'
first occurrences.

- `groups_cons`: the first group, and the groups of the rest;
- `groups_perm`: every element is in one group;
- `heads_sublist`: the groups stand in the order of their first elements;
- `filter_groups`: choosing whole groups is choosing elements.
-/

open List

namespace Grouping

variable {α κ : Type*} [DecidableEq κ] {key : α → κ} {l g : List α} {a b : α}

/-- The groups of a list. -/
def groups (key : α → κ) (l : List α) : List (List α) :=
  (l.map key).eraseDups.map fun k => l.filter (key · = k)

theorem groups_nil (key : α → κ) : groups key [] = [] := rfl

theorem mem_groups : g ∈ groups key l ↔ ∃ a ∈ l, g = l.filter (key · = key a) := by
  simp only [groups, mem_map, mem_eraseDups]
  constructor
  · rintro ⟨_, ⟨a, ha, rfl⟩, rfl⟩
    exact ⟨a, ha, rfl⟩
  · rintro ⟨a, ha, rfl⟩
    exact ⟨key a, ⟨a, ha, rfl⟩, rfl⟩

theorem ne_nil_of_mem_groups (h : g ∈ groups key l) : g ≠ [] := by
  obtain ⟨a, ha, rfl⟩ := mem_groups.mp h
  exact ne_nil_of_mem (mem_filter.mpr ⟨ha, decide_eq_true rfl⟩)

theorem key_eq_of_mem (h : g ∈ groups key l) (ha : a ∈ g) (hb : b ∈ g) : key a = key b := by
  obtain ⟨c, -, rfl⟩ := mem_groups.mp h
  have ha := of_decide_eq_true (mem_filter.mp ha).2
  have hb := of_decide_eq_true (mem_filter.mp hb).2
  exact ha.trans hb.symm

theorem sublist_of_mem_groups (h : g ∈ groups key l) : g.Sublist l := by
  obtain ⟨a, -, rfl⟩ := mem_groups.mp h
  exact filter_sublist

theorem exists_group (ha : a ∈ l) (hb : b ∈ l) (hkey : key a = key b) :
    ∃ g ∈ groups key l, a ∈ g ∧ b ∈ g :=
  ⟨_, mem_groups.mpr ⟨a, ha, rfl⟩, mem_filter.mpr ⟨ha, decide_eq_true rfl⟩,
    mem_filter.mpr ⟨hb, decide_eq_true hkey.symm⟩⟩

/-- The first group is that of the first element; the others are the groups of the rest. -/
theorem groups_cons (key : α → κ) (a : α) (l : List α) :
    groups key (a :: l) =
      (a :: l.filter (key · = key a)) :: groups key (l.filter (key · ≠ key a)) := by
  have hkeys : (l.map key).filter (fun k => !k == key a) =
      (l.filter (key · ≠ key a)).map key := by
    rw [filter_map]
    refine congrArg _ (filter_congr fun b _ => ?_)
    by_cases hb : key b = key a <;> simp [hb]
  have hfirst : (a :: l).filter (key · = key a) = a :: l.filter (key · = key a) :=
    filter_cons_of_pos (decide_eq_true rfl)
  rw [groups, map_cons, eraseDups_cons, hkeys, map_cons, groups, hfirst]
  refine congrArg _ (map_congr_left fun k hk => ?_)
  rw [mem_eraseDups, mem_map] at hk
  obtain ⟨b, hb, rfl⟩ := hk
  have hne : key b ≠ key a := of_decide_eq_true (mem_filter.mp hb).2
  rw [filter_cons_of_neg (by simpa using hne.symm), filter_filter]
  refine filter_congr fun c _ => ?_
  by_cases hc : key c = key b <;> simp [hc, hne]

@[elab_as_elim]
theorem groupsRec {motive : List α → Prop} (key : α → κ) (nil : motive [])
    (cons : ∀ a l, motive (l.filter (key · ≠ key a)) → motive (a :: l)) (l : List α) :
    motive l := by
  induction h : l.length using Nat.strongRecOn generalizing l with
  | _ n ih =>
    cases l with
    | nil => exact nil
    | cons a l =>
      refine cons a l (ih _ ?_ _ rfl)
      rw [← h]
      exact Nat.lt_succ_of_le (length_filter_le ..)

theorem filter_append_perm (key : α → κ) (a : α) (l : List α) :
    (l.filter (key · = key a) ++ l.filter (key · ≠ key a)).Perm l := by
  have h := List.filter_append_perm (fun b => decide (key b = key a)) l
  simpa using h

theorem groups_perm (key : α → κ) (l : List α) : (groups key l).flatten.Perm l := by
  induction l using groupsRec key with
  | nil => exact .refl _
  | cons a l ih =>
    rw [groups_cons, flatten_cons, cons_append]
    exact ((ih.append_left _).trans (filter_append_perm key a l)).cons a

theorem heads_sublist (key : α → κ) (l : List α) :
    ((groups key l).filterMap List.head?).Sublist l := by
  induction l using groupsRec key with
  | nil => exact nil_sublist _
  | cons a l ih =>
    rw [groups_cons, filterMap_cons, head?_cons]
    exact (ih.trans filter_sublist).cons_cons a

/-- Groups are chosen by their first elements, if what decides is the key. -/
theorem filter_groups {p : α → Bool} (hp : ∀ a b, key a = key b → p a = p b) (l : List α) :
    ((groups key l).filter fun g => g.head?.any p).flatten.Perm (l.filter p) := by
  induction l using groupsRec key with
  | nil => exact .refl _
  | cons a l ih =>
    have hrest : (l.filter (key · = key a)).filter p ++ (l.filter (key · ≠ key a)).filter p
        |>.Perm (l.filter p) := by
      rw [← filter_append]
      exact (filter_append_perm key a l).filter p
    rw [groups_cons]
    by_cases ha : p a = true
    case pos =>
      have hall : (l.filter (key · = key a)).filter p = l.filter (key · = key a) := by
        refine filter_eq_self.mpr fun b hb => ?_
        rw [hp b a (of_decide_eq_true (mem_filter.mp hb).2), ha]
      rw [filter_cons_of_pos (by simpa using ha), filter_cons_of_pos ha, flatten_cons, cons_append]
      rw [hall] at hrest
      exact ((ih.append_left _).trans hrest).cons a
    case neg =>
      have hnone : (l.filter (key · = key a)).filter p = [] := by
        refine filter_eq_nil_iff.mpr fun b hb => ?_
        rwa [hp b a (of_decide_eq_true (mem_filter.mp hb).2)]
      rw [filter_cons_of_neg (by simpa using ha), filter_cons_of_neg ha]
      rw [hnone, nil_append] at hrest
      exact ih.trans hrest

end Grouping
