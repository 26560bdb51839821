import Mathlib.Data.List.TakeWhile

/-!
# Scans that count

A scan of a list in which a test tells of each element whether to stop there, to pass over it or to
count it; the scan ends at the element that is counted when `n` others have been.

- `find_eq`: the scan finds the `n`-th of the counted positions, counted from 0;
- `counted_eq`: these positions when the test is given by a window and a condition.
-/

open List

namespace Scan

inductive Verdict
  | stop
  | skip
  | count
  deriving DecidableEq, Repr

variable {α : Type*} (test : α → Verdict)

/-- The scan from position `pos` on, when `k` elements have been counted. -/
def find (n : ℕ) : ℕ → ℕ → List α → Option ℕ
  | _, _, [] => none
  | k, pos, a :: l =>
    match test a with
    | .stop => none
    | .skip => find n k (pos + 1) l
    | .count => if k < n then find n (k + 1) (pos + 1) l else some pos

/-- The positions, from `pos` on, of the elements that are counted before the first stop. -/
def counted : ℕ → List α → List ℕ
  | _, [] => []
  | pos, a :: l =>
    match test a with
    | .stop => []
    | .skip => counted (pos + 1) l
    | .count => pos :: counted (pos + 1) l

variable {test} {test' : α → Verdict} {n k pos : ℕ} {a : α} {l : List α}

theorem find_eq_getElem? (hk : k ≤ n) : find test n k pos l = (counted test pos l)[n - k]? := by
  induction l generalizing k pos with
  | nil => rfl
  | cons a l ih =>
    rw [find, counted]
    cases test a with
    | stop => rfl
    | skip => exact ih hk
    | count =>
      show (if k < n then find test n (k + 1) (pos + 1) l else some pos) =
        (pos :: counted test (pos + 1) l)[n - k]?
      split
      case isTrue hlt =>
        obtain ⟨m, hm⟩ : ∃ m, n - k = m + 1 := ⟨n - k - 1, by omega⟩
        rw [ih hlt, hm, getElem?_cons_succ]
        congr 1
        omega
      case isFalse hlt =>
        have hzero : n - k = 0 := by omega
        rw [hzero, getElem?_cons_zero]

theorem find_eq : find test n 0 0 l = (counted test 0 l)[n]? :=
  find_eq_getElem? (Nat.zero_le n)

theorem find_isSome : (find test n 0 0 l).isSome ↔ n < (counted test 0 l).length := by
  rw [find_eq, Option.isSome_iff_ne_none, ne_eq, List.getElem?_eq_none_iff, not_le]

theorem find_congr (h : ∀ a ∈ l, test a = test' a) :
    find test n k pos l = find test' n k pos l := by
  induction l generalizing k pos with
  | nil => rfl
  | cons a l ih =>
    have hl : ∀ b ∈ l, test b = test' b := fun b hb => h b (mem_cons_of_mem a hb)
    rw [find, find, h a mem_cons_self]
    simp only [ih hl]

/-- When the test stops outside of a window and counts what satisfies a condition, the scan counts
the positions of the elements of the window that satisfy it. -/
theorem counted_eq (window cond : α → Bool)
    (htest : ∀ a ∈ l, test a =
      if window a then if cond a then .count else .skip else .stop) :
    counted test pos l =
      (((l.takeWhile window).zipIdx pos).filter fun x => cond x.1).map Prod.snd := by
  induction l generalizing pos with
  | nil => rfl
  | cons a l ih =>
    have hl : counted test (pos + 1) l =
        (((l.takeWhile window).zipIdx (pos + 1)).filter fun x => cond x.1).map Prod.snd :=
      ih fun b hb => htest b (mem_cons_of_mem a hb)
    rw [counted, htest a mem_cons_self, takeWhile_cons]
    by_cases hw : window a
    · by_cases hc : cond a
      · simp [hw, hc, hl, zipIdx_cons]
      · simp [hw, hc, hl, zipIdx_cons]
    · simp [hw]

theorem find_replicate (ha : test a = .count) :
    (find test n 0 0 (List.replicate (n + 1) a)).isSome := by
  have hlen : ∀ m pos, (counted test pos (List.replicate m a)).length = m := by
    intro m
    induction m with
    | zero => exact fun _ => rfl
    | succ m ih =>
      intro pos
      rw [replicate_succ, counted, ha]
      exact congrArg (· + 1) (ih (pos + 1))
  rw [find_isSome, hlen]
  exact Nat.lt_succ_self n

theorem find_eq_none (h : ∀ a ∈ l, test a ≠ .count) : find test n k pos l = none := by
  induction l generalizing pos with
  | nil => rfl
  | cons a l ih =>
    rw [find]
    cases ha : test a with
    | stop => rfl
    | skip => exact ih fun b hb => h b (mem_cons_of_mem a hb)
    | count => exact absurd ha (h a mem_cons_self)

end Scan
