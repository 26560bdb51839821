import Mathlib.Data.List.Basic

/-!
# Consecutive groups of a list

The groups of `n` elements that a list begins with; fewer than `n` elements at its end are left
out.

- `chunks_append`: groups are formed independently of what comes later;
- `chunks_of_lt`, `chunks_of_length`: an unfinished group, and a complete one.
-/

open List

namespace Chunks

variable {α : Type*} {n : ℕ} {l l' : List α}

/-- The complete groups of `n` elements. -/
def chunks (n : ℕ) (l : List α) : List (List α) :=
  (List.range (l.length / n)).map fun i => (l.drop (i * n)).take n

theorem chunks_of_lt (h : l.length < n) : chunks n l = [] := by
  rw [chunks, Nat.div_eq_of_lt h]
  rfl

theorem chunks_of_length (hn : 0 < n) (h : l.length = n) : chunks n l = [l] := by
  rw [chunks, h, Nat.div_self hn]
  simp [take_of_length_le (Nat.le_of_eq h)]

theorem chunks_append (h : n ∣ l.length) (l' : List α) :
    chunks n (l ++ l') = chunks n l ++ chunks n l' := by
  obtain rfl | hn := Nat.eq_zero_or_pos n
  · simp [chunks]
  obtain ⟨k, hk⟩ := h
  have hdiv : (l ++ l').length / n = k + l'.length / n := by
    rw [length_append, hk, Nat.mul_add_div hn]
  have hfirst : l.length / n = k := by rw [hk, Nat.mul_div_cancel_left k hn]
  rw [chunks, hdiv, range_add, map_append, chunks, hfirst, chunks, List.map_map]
  congr 1
  · -- the first groups lie in the first list
    apply map_congr_left
    intro i hi
    have hle : i * n + n ≤ l.length := by
      rw [hk, ← Nat.succ_mul, Nat.mul_comm n]
      exact Nat.mul_le_mul_right n (mem_range.mp hi)
    rw [drop_append_of_le_length (by omega), take_append_of_le_length]
    rw [length_drop]
    omega
  · apply map_congr_left
    intro i hi
    have hadd : (k + i) * n = l.length + i * n := by rw [hk, Nat.add_mul, Nat.mul_comm n]
    rw [Function.comp_apply, hadd, drop_length_add_append]

theorem chunks_append_of_length (hn : 0 < n) (h : n ∣ l.length) (hlen : l'.length = n) :
    chunks n (l ++ l') = chunks n l ++ [l'] := by
  rw [chunks_append h, chunks_of_length hn hlen]

end Chunks
