import Mathlib.Data.Finmap

/-!
# Finite maps with a weight

A finite map whose entries have a weight, and the sum of the weights.

- `total_erase`, `total_insert`: what an operation on one key does to the sum;
- `keep`, `total_keep`: the entries that pass a test, and their part of the sum.
-/

namespace WeightedMap

variable {κ β : Type*}

/-- The sum of the weights. -/
def total (f : κ → β → ℕ) (s : Finmap fun _ : κ => β) : ℕ :=
  (s.entries.map fun e => f e.1 e.2).sum

/-- The entries that pass a test. -/
def keep (p : κ → β → Bool) (s : Finmap fun _ : κ => β) : Finmap fun _ : κ => β where
  entries := s.entries.filter fun e => p e.1 e.2
  nodupKeys := by
    rw [← Multiset.nodup_keys]
    refine Multiset.nodup_of_le ?_ (Multiset.nodup_keys.mpr s.nodupKeys)
    exact Multiset.map_le_map (Multiset.filter_le _ _)

theorem total_keep (f : κ → β → ℕ) (p : κ → β → Bool) (s : Finmap fun _ : κ => β) :
    total f (keep p s) = total (fun a b => if p a b then f a b else 0) s := by
  show ((s.entries.filter fun e => p e.1 e.2).map fun e => f e.1 e.2).sum = _
  rw [total]
  induction s.entries using Multiset.induction_on with
  | empty => rfl
  | cons e es ih =>
    rw [Multiset.map_cons, Multiset.sum_cons, ← ih, Multiset.filter_cons]
    split_ifs with hp
    · rw [Multiset.singleton_add, Multiset.map_cons, Multiset.sum_cons]
    · rw [zero_add, zero_add]

theorem total_keep_add (f : κ → β → ℕ) (p : κ → β → Bool) (s : Finmap fun _ : κ => β) :
    total f (keep p s) + total f (keep (fun a b => !p a b) s) = total f s := by
  rw [total_keep, total_keep, total, total, total, ← Multiset.sum_map_add]
  apply congrArg
  apply Multiset.map_congr rfl
  intro e _
  cases p e.1 e.2 with
  | true => exact add_zero _
  | false => exact zero_add _

theorem total_keep_le (f : κ → β → ℕ) (p : κ → β → Bool) (s : Finmap fun _ : κ => β) :
    total f (keep p s) ≤ total f s := by
  have hadd := total_keep_add f p s
  omega

variable [DecidableEq κ]

/-- The weight at a key, which is 0 without an entry. -/
def weightAt (f : κ → β → ℕ) (s : Finmap fun _ : κ => β) (a : κ) : ℕ := (s.lookup a).elim 0 (f a)

variable {f g : κ → β → ℕ} {p : κ → β → Bool} {s : Finmap fun _ : κ => β} {a : κ} {b : β}

theorem insert_erase (h : s.lookup a = some b) : (s.erase a).insert a b = s := by
  apply Finmap.ext_lookup
  intro x
  by_cases hx : x = a
  · rw [hx, Finmap.lookup_insert, h]
  · rw [Finmap.lookup_insert_of_ne _ hx, Finmap.lookup_erase_ne hx]

theorem erase_insert_self (s : Finmap fun _ : κ => β) (a : κ) (b : β) :
    (s.insert a b).erase a = s.erase a := by
  apply Finmap.ext_lookup
  intro x
  by_cases hx : x = a
  · rw [hx, Finmap.lookup_erase, Finmap.lookup_erase]
  · rw [Finmap.lookup_erase_ne hx, Finmap.lookup_erase_ne hx, Finmap.lookup_insert_of_ne _ hx]

theorem erase_of_notMem (h : s.lookup a = none) : s.erase a = s := by
  apply Finmap.ext_lookup
  intro x
  by_cases hx : x = a
  · rw [hx, Finmap.lookup_erase, h]
  · rw [Finmap.lookup_erase_ne hx]

/-! ## Sums -/

theorem total_erase (f : κ → β → ℕ) (s : Finmap fun _ : κ => β) (a : κ) :
    total f (s.erase a) + weightAt f s a = total f s := by
  cases h : s.lookup a with
  | none => rw [erase_of_notMem h, weightAt, h, Option.elim_none, add_zero]
  | some b =>
    have hentries := @Finmap.entries_insert_of_notMem _ _ _ a b (s.erase a) Finmap.notMem_erase_self
    rw [insert_erase h] at hentries
    rw [weightAt, h, Option.elim_some, total, total, hentries, Multiset.map_cons, Multiset.sum_cons,
      add_comm]

theorem total_insert (f : κ → β → ℕ) (s : Finmap fun _ : κ => β) (a : κ) (b : β) :
    total f (s.insert a b) + weightAt f s a = total f s + f a b := by
  have hinsert := total_erase f (s.insert a b) a
  rw [erase_insert_self, weightAt, Finmap.lookup_insert, Option.elim_some] at hinsert
  have herase := total_erase f s a
  omega

theorem weightAt_le_total (f : κ → β → ℕ) (s : Finmap fun _ : κ => β) (a : κ) :
    weightAt f s a ≤ total f s := by
  have herase := total_erase f s a
  omega

theorem total_congr (h : ∀ a b, s.lookup a = some b → f a b = g a b) : total f s = total g s := by
  rw [total, total]
  apply congrArg
  apply Multiset.map_congr rfl
  intro e he
  exact h e.1 e.2 (Finmap.lookup_eq_some_iff.mpr he)

theorem lookup_keep : (keep p s).lookup a = some b ↔ s.lookup a = some b ∧ p a b = true := by
  rw [Finmap.lookup_eq_some_iff, Finmap.lookup_eq_some_iff]
  exact Multiset.mem_filter

end WeightedMap
