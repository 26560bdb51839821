import Mathlib.Data.List.Nodup

/-!
# The newest keys

A list of at most `n` different keys, oldest first. A key that is new goes to the end, and the
oldest one leaves a list that is full.

- `remember`, `replay`: one key, and a list of keys one after the other;
- `replay_eq_append`, `replay_eq_self`: keys that all fit, and keys that are there already.
-/

open List

namespace Retained

variable {α : Type*}

/-- The last `n` of a list. -/
def newest (n : ℕ) (l : List α) : List α := l.drop (l.length - n)

theorem newest_of_length_le {n : ℕ} {l : List α} (h : l.length ≤ n) : newest n l = l := by
  rw [newest, Nat.sub_eq_zero_of_le h, drop_zero]

theorem newest_isSuffix (n : ℕ) (l : List α) : newest n l <:+ l := drop_suffix _ _

variable [DecidableEq α] {n : ℕ} {l keys keys' : List α} {a : α}

/-- Take in a key, unless it is there. -/
def remember (n : ℕ) (l : List α) (a : α) : List α := if a ∈ l then l else newest n (l ++ [a])

/-- Take in one key after the other. -/
def replay (n : ℕ) (l keys : List α) : List α := keys.foldl (remember n) l

theorem remember_of_mem (h : a ∈ l) : remember n l a = l := if_pos h

theorem remember_of_notMem (h : a ∉ l) : remember n l a = newest n (l ++ [a]) := if_neg h

theorem replay_append (n : ℕ) (l keys keys' : List α) :
    replay n l (keys ++ keys') = replay n (replay n l keys) keys' := foldl_append

theorem replay_concat (n : ℕ) (l keys : List α) (a : α) :
    replay n l (keys ++ [a]) = remember n (replay n l keys) a := by
  rw [replay_append]
  rfl

/-- Different keys that all fit are kept in their order. -/
theorem replay_eq_append (hnodup : (l ++ keys).Nodup) (hlen : (l ++ keys).length ≤ n) :
    replay n l keys = l ++ keys := by
  induction keys generalizing l with
  | nil => rw [append_nil]; rfl
  | cons a keys ih =>
    have ha : a ∉ l := fun hmem =>
      (nodup_append.mp hnodup).2.2 a hmem a mem_cons_self rfl
    have hsplit : l ++ a :: keys = l ++ [a] ++ keys := append_cons l a keys
    rw [hsplit] at hnodup hlen
    have hstep : remember n l a = l ++ [a] := by
      rw [remember_of_notMem ha, newest_of_length_le]
      rw [length_append] at hlen
      omega
    rw [replay, foldl_cons, hstep, hsplit]
    exact ih hnodup hlen

theorem replay_eq_self (h : ∀ a ∈ keys, a ∈ l) : replay n l keys = l := by
  induction keys with
  | nil => rfl
  | cons a keys ih =>
    obtain ⟨ha, hkeys⟩ := forall_mem_cons.mp h
    rw [replay, foldl_cons, remember_of_mem ha]
    exact ih hkeys

end Retained
