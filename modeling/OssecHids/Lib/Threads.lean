import Mathlib.Data.List.Basic

/-!
# Lists of threads

One entry of a list changes or goes; the others stay as they are.

- `exists_split`: the entries before and behind the one that changes.
-/

namespace Threads

variable {α : Type*} {l : List α} {i : ℕ} {a : α}

theorem exists_split (h : l[i]? = some a) :
    ∃ l₁ l₂, l = l₁ ++ a :: l₂ ∧ (∀ b, l.set i b = l₁ ++ b :: l₂) ∧ l.eraseIdx i = l₁ ++ l₂ := by
  obtain ⟨hi, rfl⟩ := List.getElem?_eq_some_iff.mp h
  refine ⟨l.take i, l.drop (i + 1), ?_, fun b => ?_, List.eraseIdx_eq_take_drop_succ l i⟩
  · rw [← List.drop_eq_getElem_cons hi, List.take_append_drop]
  · rw [List.set_eq_take_append_cons_drop, if_pos hi]

end Threads
