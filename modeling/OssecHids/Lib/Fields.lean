import Mathlib.Data.List.TakeWhile

/-!
# Fields behind separators

A list that is split at a separator into a bounded number of fields, the last of which holds what
is left. `List.intercalate` is the way back.

- `intercalate_splitMax`, `splitMax_intercalate`: splitting and joining are inverse to each other.
-/

open List

namespace Fields

variable {α : Type*} [BEq α] [LawfulBEq α]

/-- The fields of a list between separators `c`, at most `n` of them. -/
def splitMax (c : α) : ℕ → List α → List (List α)
  | 0, _ => []
  | 1, s => [s]
  | n + 2, s =>
    match s.dropWhile (· != c) with
    | [] => [s]
    | _ :: rest => s.takeWhile (· != c) :: splitMax c (n + 1) rest

variable {c : α} {n : ℕ} {s f : List α} {fs : List (List α)}

theorem splitMax_of_notMem (h : c ∉ s) : splitMax c (n + 1) s = [s] := by
  cases n with
  | zero => rfl
  | succ n =>
    have hdrop : s.dropWhile (· != c) = [] := by
      rw [dropWhile_eq_nil_iff]
      intro b hb
      rw [bne_iff_ne]
      rintro rfl
      exact h hb
    rw [splitMax, hdrop]

theorem splitMax_append_cons (h : c ∉ f) :
    splitMax c (n + 2) (f ++ c :: s) = f :: splitMax c (n + 1) s := by
  have hf : ∀ b ∈ f, (b != c) = true := fun b hb => by
    rw [bne_iff_ne]
    rintro rfl
    exact h hb
  have hdrop : (f ++ c :: s).dropWhile (· != c) = c :: s := by
    rw [dropWhile_append_of_pos hf]
    simp
  have htake : (f ++ c :: s).takeWhile (· != c) = f := by
    rw [takeWhile_append_of_pos hf]
    simp
  rw [splitMax, hdrop, htake]

/-- A list is a single field, or a field in front of a separator and other fields. -/
theorem splitMax_cases (c : α) (n : ℕ) (s : List α) :
    (splitMax c (n + 1) s = [s] ∧ (c ∉ s ∨ n = 0)) ∨
      ∃ m f r, n = m + 1 ∧ c ∉ f ∧ s = f ++ c :: r ∧
        splitMax c (n + 1) s = f :: splitMax c (m + 1) r := by
  cases n with
  | zero => exact .inl ⟨rfl, .inr rfl⟩
  | succ m =>
    by_cases hc : c ∈ s
    · obtain ⟨f, r, rfl, hf⟩ := eq_append_cons_of_mem hc
      exact .inr ⟨m, f, r, rfl, hf, rfl, splitMax_append_cons hf⟩
    · exact .inl ⟨splitMax_of_notMem hc, .inl hc⟩

theorem splitMax_ne_nil (c : α) (n : ℕ) (s : List α) : splitMax c (n + 1) s ≠ [] := by
  rcases splitMax_cases c n s with ⟨h, -⟩ | ⟨m, f, r, -, -, -, h⟩
  · rw [h]
    exact cons_ne_nil _ _
  · rw [h]
    exact cons_ne_nil _ _

theorem length_splitMax_le (c : α) (n : ℕ) (s : List α) :
    (splitMax c (n + 1) s).length ≤ n + 1 := by
  induction n generalizing s with
  | zero => exact le_rfl
  | succ n ih =>
    rcases splitMax_cases c (n + 1) s with ⟨h, -⟩ | ⟨m, f, r, hm, -, -, h⟩
    · rw [h]
      exact Nat.le_add_left _ _
    · obtain rfl := Nat.succ.inj hm
      rw [h]
      exact Nat.succ_le_succ (ih r)

theorem length_splitMax (c : α) (n : ℕ) (s : List α) :
    (splitMax c (n + 1) s).length = min (s.count c) n + 1 := by
  induction n generalizing s with
  | zero => rw [Nat.min_zero]; rfl
  | succ n ih =>
    rcases splitMax_cases c (n + 1) s with ⟨h, hc⟩ | ⟨m, f, r, hm, hf, hs, h⟩
    · have hzero : s.count c = 0 := count_eq_zero.mpr (hc.resolve_right (Nat.succ_ne_zero n))
      rw [h, hzero, Nat.zero_min]
      rfl
    · obtain rfl := Nat.succ.inj hm
      rw [h, length_cons, ih, hs, count_append, count_cons_self, count_eq_zero.mpr hf]
      omega

theorem intercalate_splitMax (c : α) (n : ℕ) (s : List α) :
    [c].intercalate (splitMax c (n + 1) s) = s := by
  induction n generalizing s with
  | zero => exact intercalate_singleton
  | succ n ih =>
    rcases splitMax_cases c (n + 1) s with ⟨h, -⟩ | ⟨m, f, r, hm, -, hs, h⟩
    · rw [h, intercalate_singleton]
    · obtain rfl := Nat.succ.inj hm
      rw [h, intercalate_cons_of_ne_nil (splitMax_ne_nil _ _ _), ih, hs]
      simp

/-- The fields before the last possible one have no separator. -/
theorem notMem_of_getElem?_splitMax {i : ℕ} (h : (splitMax c (n + 1) s)[i]? = some f)
    (hi : i < n) : c ∉ f := by
  induction n generalizing s i with
  | zero => cases hi
  | succ n ih =>
    rcases splitMax_cases c (n + 1) s with ⟨hsplit, hc⟩ | ⟨m, f', r, hm, hf', -, hsplit⟩
    · rw [hsplit] at h
      cases i with
      | zero =>
        cases h
        exact hc.resolve_right (Nat.succ_ne_zero n)
      | succ i => cases h
    · obtain rfl := Nat.succ.inj hm
      rw [hsplit] at h
      cases i with
      | zero =>
        cases h
        exact hf'
      | succ i => exact ih h (Nat.lt_of_succ_lt_succ hi)

/-- Fields that are joined are found again. -/
theorem splitMax_intercalate (hnil : fs ≠ []) (hlen : fs.length ≤ n + 1)
    (hc : ∀ i f, fs[i]? = some f → i < n → c ∉ f) :
    splitMax c (n + 1) ([c].intercalate fs) = fs := by
  induction fs generalizing n with
  | nil => exact absurd rfl hnil
  | cons f fs ih =>
    cases fs with
    | nil =>
      rw [intercalate_singleton]
      cases n with
      | zero => rfl
      | succ n => exact splitMax_of_notMem (hc 0 f rfl (Nat.succ_pos n))
    | cons g fs =>
      cases n with
      | zero => exact absurd (Nat.le_of_succ_le_succ hlen) (Nat.not_succ_le_zero _)
      | succ n =>
        have hrest := ih (cons_ne_nil g fs) (Nat.le_of_succ_le_succ hlen)
          fun i f' hf' hi => hc (i + 1) f' hf' (Nat.succ_lt_succ hi)
        rw [intercalate_cons_cons, append_assoc, singleton_append,
          splitMax_append_cons (hc 0 f rfl (Nat.succ_pos n)), hrest]

omit [BEq α] [LawfulBEq α] in
/-- What does not occur in the fields, and is no separator, does not occur in their join. -/
theorem notMem_intercalate {b : α} (hb : b ≠ c) (h : ∀ f ∈ fs, b ∉ f) :
    b ∉ [c].intercalate fs := by
  induction fs with
  | nil => exact not_mem_nil
  | cons f fs ih =>
    rw [forall_mem_cons] at h
    cases fs with
    | nil =>
      rw [intercalate_singleton]
      exact h.1
    | cons g fs =>
      rw [intercalate_cons_cons]
      simp only [mem_append, mem_singleton, not_or]
      exact ⟨⟨h.1, hb⟩, ih h.2⟩

theorem subset_of_mem_splitMax (h : f ∈ splitMax c (n + 1) s) : f ⊆ s := by
  induction n generalizing s with
  | zero =>
    obtain rfl := mem_singleton.mp h
    exact List.Subset.refl _
  | succ n ih =>
    rcases splitMax_cases c (n + 1) s with ⟨hsplit, -⟩ | ⟨m, f', r, hm, -, rfl, hsplit⟩
    · rw [hsplit] at h
      obtain rfl := mem_singleton.mp h
      exact List.Subset.refl _
    · obtain rfl := Nat.succ.inj hm
      rw [hsplit] at h
      rcases mem_cons.mp h with rfl | h
      · exact subset_append_left _ _
      · intro b hb
        exact mem_append_right _ (mem_cons_of_mem _ (ih h hb))

end Fields
