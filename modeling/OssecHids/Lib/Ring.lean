import Mathlib.Data.Nat.ModEq

/-!
# Rings of slots

Items that stand in consecutive slots of a ring of `n`, the first of them in the slot `e`.

- `full_iff`, `empty_iff`: what two positions in the ring say about the items between them;
- `Window.concat`, `Window.tail`: an item behind the others, and the first one taken out;
- `distance_eq`: how many items there are.
-/

namespace Ring

variable {A : Type*} {slots : ℕ → Option A} {n e l : ℕ} {a : A} {items : List A}

/-! ## Positions -/

theorem add_mod_inj {i j : ℕ} (hi : i < n) (hj : j < n) (h : (e + i) % n = (e + j) % n) :
    i = j := by
  have hmod : e + i ≡ e + j [MOD n] := h
  have hij : i ≡ j [MOD n] := Nat.ModEq.add_left_cancel' e hmod
  exact Nat.ModEq.eq_of_lt_of_lt hij hi hj

theorem full_iff (he : e < n) (hl : l < n) : (e + l + 1) % n = e ↔ l + 1 = n := by
  constructor
  · intro h
    by_contra hne
    have heq : (e + (l + 1)) % n = (e + 0) % n := by
      rw [← add_assoc, h, add_zero, Nat.mod_eq_of_lt he]
    have hzero := add_mod_inj (by omega) (by omega) heq
    omega
  · intro h
    rw [add_assoc, h, Nat.add_mod_right, Nat.mod_eq_of_lt he]

theorem empty_iff (he : e < n) (hl : l < n) : (e + l) % n = e ↔ l = 0 := by
  constructor
  · intro h
    refine add_mod_inj (e := e) hl (by omega) ?_
    rw [h, add_zero, Nat.mod_eq_of_lt he]
  · rintro rfl
    rw [add_zero, Nat.mod_eq_of_lt he]

theorem distance_eq (he : e < n) (hl : l < n) : ((e + l) % n + n - e) % n = l := by
  refine add_mod_inj (e := e) (Nat.mod_lt _ (by omega)) hl ?_
  rw [Nat.add_mod_mod, Nat.add_sub_cancel' (by omega), Nat.add_mod_right, Nat.mod_mod]

/-! ## Items -/

/-- The items stand in the slots from `e` on. -/
def Window (slots : ℕ → Option A) (n e : ℕ) (items : List A) : Prop :=
  ∀ i (h : i < items.length), slots ((e + i) % n) = some items[i]

theorem window_nil : Window slots n e [] := fun _ h => absurd h (Nat.not_lt_zero _)

theorem Window.head (h : Window slots n e (a :: items)) (he : e < n) : slots e = some a := by
  have hfirst := h 0 (Nat.succ_pos _)
  rwa [add_zero, Nat.mod_eq_of_lt he] at hfirst

theorem Window.tail (h : Window slots n e (a :: items)) :
    Window slots n ((e + 1) % n) items := by
  intro i hi
  have hnext := h (i + 1) (Nat.succ_lt_succ hi)
  rw [Nat.mod_add_mod, add_right_comm, add_assoc]
  exact hnext

theorem Window.concat (h : Window slots n e items) (hroom : items.length < n) :
    Window (Function.update slots ((e + items.length) % n) (some a)) n e (items ++ [a]) := by
  intro i hi
  rw [List.length_append, List.length_singleton] at hi
  by_cases hlast : i = items.length
  · subst hlast
    rw [Function.update_self, List.getElem_concat_length]
    rfl
  · have hi' : i < items.length := by omega
    rw [Function.update_of_ne, h i hi', List.getElem_append_left hi']
    exact fun heq => hlast (add_mod_inj (by omega) hroom heq)

end Ring
