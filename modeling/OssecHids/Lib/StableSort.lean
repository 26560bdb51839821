import Mathlib.Data.List.DropRight
import Mathlib.Data.List.Perm.Basic

/-!
# Insertion from the back

A sort that takes the elements one by one and moves each of them to the front, past those that it is
less than.

- `insertBack`, `sortBack`: the sort;
- `perm_sortBack`, `pairwise_sortBack`: the elements stay, and are ordered;
- `filter_sortBack`: equal elements keep their order.
-/

open List

namespace StableSort

variable {A : Type*} (lt : A → A → Bool)

/-- `c` moves in front of the last elements that it is less than. -/
def insertBack (l : List A) (c : A) : List A := l.rdropWhile (lt c) ++ c :: l.rtakeWhile (lt c)

/-- The elements of a list are put behind those that are in order. -/
def sortBack (l : List A) : List A := l.foldl (insertBack lt) []

/-- Neither is less than the other. -/
def Equal (c d : A) : Bool := !lt c d && !lt d c

variable {lt} {l : List A} {c d e : A}

theorem perm_insertBack (l : List A) (c : A) : (insertBack lt l c).Perm (c :: l) := by
  have hsplit : l.rdropWhile (lt c) ++ l.rtakeWhile (lt c) = l :=
    rdropWhile_append_rtakeWhile
  have hmiddle := @perm_middle _ c (l.rdropWhile (lt c)) (l.rtakeWhile (lt c))
  rw [hsplit] at hmiddle
  exact hmiddle

theorem perm_foldl_insertBack (l sorted : List A) :
    (l.foldl (insertBack lt) sorted).Perm (sorted ++ l) := by
  induction l generalizing sorted with
  | nil => rw [foldl_nil, append_nil]
  | cons c l ih =>
    refine (ih _).trans (((perm_insertBack sorted c).append_right l).trans ?_)
    exact perm_middle.symm

theorem perm_sortBack (l : List A) : (sortBack lt l).Perm l := perm_foldl_insertBack l []

section Order

variable [IsStrictWeakOrder A fun c d => lt c d = true]

theorem not_lt_trans (h : lt c d = false) (h' : lt d e = false) : lt c e = false := by
  have htrans : ∀ {a b c : A}, lt a b = true → lt b c = true → lt a c = true := fun h h' =>
    trans_of (fun c d => lt c d = true) h h'
  have hincomp := @IsStrictWeakOrder.incomp_trans A (fun c d => lt c d = true) _ c d e
  simp only [Bool.not_eq_true] at hincomp
  by_contra hce
  rw [Bool.not_eq_false] at hce
  cases hdc : lt d c with
  | true => exact Bool.false_ne_true (h'.symm.trans (htrans hdc hce))
  | false =>
    cases hed : lt e d with
    | true => exact Bool.false_ne_true (h.symm.trans (htrans hce hed))
    | false => exact Bool.false_ne_true ((hincomp ⟨h, hdc⟩ ⟨h', hed⟩).1.symm.trans hce)

theorem not_lt_of_lt (h : lt c d = true) : lt d c = false := by
  by_contra hdc
  rw [Bool.not_eq_false] at hdc
  exact asymm_of (fun c d => lt c d = true) h hdc

/-- What is in order stays so. -/
theorem pairwise_insertBack (h : l.Pairwise fun c d => lt d c = false) (c : A) :
    (insertBack lt l c).Pairwise fun c d => lt d c = false := by
  have hsplit : l.rdropWhile (lt c) ++ l.rtakeWhile (lt c) = l :=
    rdropWhile_append_rtakeWhile
  have hbehind : ∀ d ∈ l.rtakeWhile (lt c), lt d c = false := fun d hd =>
    not_lt_of_lt (mem_rtakeWhile_imp hd)
  -- the element that stops `c` is not greater, and those in front of it are not greater than it
  have hfront : ∀ d ∈ l.rdropWhile (lt c), lt c d = false := by
    rcases eq_nil_or_concat' (l.rdropWhile (lt c)) with hnil | ⟨front, last, hconcat⟩
    · rw [hnil]
      exact fun d hd => absurd hd not_mem_nil
    · have hlast : lt c last = false := by
        have hne : l.rdropWhile (lt c) ≠ [] := by simp [hconcat]
        have hnot := rdropWhile_last_not (lt c) l hne
        simp only [hconcat, getLast_append_singleton] at hnot
        simpa using hnot
      rw [← hsplit, hconcat] at h
      have hordered := (pairwise_append.mp (pairwise_append.mp h).1).2.2
      intro d hd
      rw [hconcat] at hd
      rcases mem_append.mp hd with hd | hd
      · exact not_lt_trans hlast (hordered d hd last mem_cons_self)
      · rw [mem_singleton.mp hd]
        exact hlast
  rw [← hsplit] at h
  obtain ⟨h₁, h₂, hcross⟩ := pairwise_append.mp h
  refine pairwise_append.mpr ⟨h₁, pairwise_cons.mpr ⟨hbehind, h₂⟩, fun d hd e he => ?_⟩
  rcases mem_cons.mp he with rfl | he
  · exact hfront d hd
  · exact hcross d hd e he

theorem pairwise_sortBack (l : List A) :
    (sortBack lt l).Pairwise fun c d => lt d c = false := by
  have hfold : ∀ sorted : List A, sorted.Pairwise (fun c d => lt d c = false) →
      (l.foldl (insertBack lt) sorted).Pairwise fun c d => lt d c = false := by
    induction l with
    | nil => exact fun _ h => h
    | cons c l ih => exact fun sorted h => ih _ (pairwise_insertBack h c)
  exact hfold [] .nil

/-- An element does not move past an equal one. -/
theorem filter_insertBack (l : List A) (c e : A) :
    (insertBack lt l c).filter (Equal lt e) = (l ++ [c]).filter (Equal lt e) := by
  have hsplit : l.rdropWhile (lt c) ++ l.rtakeWhile (lt c) = l :=
    rdropWhile_append_rtakeWhile
  have hfilter : (c :: l.rtakeWhile (lt c)).filter (Equal lt e) =
      (l.rtakeWhile (lt c) ++ [c]).filter (Equal lt e) := by
    cases hc : Equal lt e c with
    | false => simp [filter_append, hc]
    | true =>
      rw [Equal, Bool.and_eq_true, Bool.not_eq_true', Bool.not_eq_true'] at hc
      -- what is equal to `e` is not greater than `c`
      have hnone : (l.rtakeWhile (lt c)).filter (Equal lt e) = [] := by
        rw [filter_eq_nil_iff]
        intro d hd hed
        rw [Equal, Bool.and_eq_true, Bool.not_eq_true', Bool.not_eq_true'] at hed
        have hcd := not_lt_trans hc.2 hed.1
        exact Bool.false_ne_true (hcd.symm.trans (mem_rtakeWhile_imp hd))
      rw [filter_append, filter_cons, hnone, nil_append, filter_cons, filter_nil]
  rw [insertBack, filter_append, hfilter, ← filter_append, ← append_assoc, hsplit]

theorem filter_sortBack (l : List A) (e : A) :
    (sortBack lt l).filter (Equal lt e) = l.filter (Equal lt e) := by
  have hfold : ∀ sorted : List A, (l.foldl (insertBack lt) sorted).filter (Equal lt e) =
      (sorted ++ l).filter (Equal lt e) := by
    induction l with
    | nil =>
      intro sorted
      rw [foldl_nil, append_nil]
    | cons c l ih =>
      intro sorted
      rw [foldl_cons, ih, filter_append, filter_insertBack, ← filter_append, ← append_cons]
  exact hfold []

end Order

end StableSort
