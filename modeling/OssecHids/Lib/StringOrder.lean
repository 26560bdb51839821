import Mathlib.Data.List.Basic
import OssecHids.Lib.CString

/-!
# The order of C strings

`strcmp` and `strncmp` of strings without their terminators.

- `strncmpSign_eq_iff`: comparing the whole of a string finds it at the start of another;
- `strcmpSign_of_prefix`: a prefix does not come behind the string;
- `strcmpSign_of_strncmp`: a string that comes behind the start of another comes behind it.
-/

open List

namespace CString

/-- `strcmp(s, t)`: its sign. -/
def strcmpSign (s t : Bytes) : Ordering := compare s t

/-- `strncmp(s, t, n)`: its sign. -/
def strncmpSign (n : ℕ) (s t : Bytes) : Ordering := compare (s.take n) (t.take n)

instance : Std.TransCmp strcmpSign :=
  inferInstanceAs (Std.TransCmp (compare : Bytes → Bytes → Ordering))

instance : Std.LawfulEqCmp strcmpSign :=
  inferInstanceAs (Std.LawfulEqCmp (compare : Bytes → Bytes → Ordering))

variable {s t u : Bytes}

@[simp]
theorem strcmpSign_eq_iff : strcmpSign s t = .eq ↔ s = t := Std.LawfulEqCmp.compare_eq_iff_eq

theorem strcmpSign_cons {b c : UInt8} :
    strcmpSign (b :: s) (c :: t) = (compare b c).then (strcmpSign s t) := List.compareLex_cons_cons

theorem strcmpSign_lt_trans (h : strcmpSign s t = .lt) (h' : strcmpSign t u = .lt) :
    strcmpSign s u = .lt := Std.TransCmp.lt_trans h h'

theorem strcmpSign_gt_iff : strcmpSign s t = .gt ↔ strcmpSign t s = .lt := Std.OrientedCmp.gt_iff_lt

theorem strncmpSign_length (s t : Bytes) :
    strncmpSign s.length s t = compare s (t.take s.length) := by
  rw [strncmpSign, take_length]

theorem strncmpSign_eq_iff : strncmpSign s.length s t = .eq ↔ s <+: t := by
  rw [strncmpSign_length, prefix_iff_eq_take]
  exact Std.LawfulEqCmp.compare_eq_iff_eq

theorem strcmpSign_of_prefix (h : s <+: t) : strcmpSign s t ≠ .gt := by
  induction s generalizing t with
  | nil => cases t <;> nofun
  | cons b s ih =>
    obtain ⟨rest, rfl⟩ := h
    rw [cons_append, strcmpSign_cons, @Std.ReflCmp.compare_self _ compare]
    exact ih (prefix_append s rest)

/-- What comes behind the start of a string comes behind the string. -/
theorem strcmpSign_of_strncmp (h : strncmpSign s.length s t = .gt) : strcmpSign s t = .gt := by
  induction s generalizing t with
  | nil =>
    rw [strncmpSign_length, length_nil, take_zero] at h
    cases h
  | cons b s ih =>
    cases t with
    | nil => rfl
    | cons c t =>
      rw [strncmpSign_length, length_cons, take_succ_cons] at h
      have hcons : compare (b :: s) (c :: t.take s.length) =
          (compare b c).then (compare s (t.take s.length)) := List.compareLex_cons_cons
      rw [hcons] at h
      rw [strcmpSign_cons]
      -- the first bytes decide, or the rests do
      cases hbc : compare b c with
      | lt =>
        rw [hbc] at h
        cases h
      | gt => rfl
      | eq =>
        rw [hbc, ← strncmpSign_length] at h
        exact ih h

end CString
