import Mathlib.Data.List.DropRight

/-!
# Paths and the directories that they are in

Paths are lists of letters; separators stand between their names, and letters that fold to the same
letter are not told apart. A directory can be written with separators at its end.

- `exists_trimmed`: a directory is a shorter one and separators;
- `Inside.refl`, `Inside.trans`: a path in a directory is in the directories it is in.
-/

open List

namespace Containment

variable {α : Type*}

/-- A directory without the separators at its end; one that has nothing else keeps the first. -/
def trimmed (sep : α → Bool) : List α → List α
  | [] => []
  | a :: dir => a :: dir.rdropWhile sep

/-- What is left of a path behind its directory: nothing, or the separator and more, unless the
directory ends with one. -/
def AtBoundary (sep : α → Bool) (l r : List α) : Prop :=
  r = [] ∨ (∃ a r', r = a :: r' ∧ sep a = true) ∨ ∃ l' a, l = l' ++ [a] ∧ sep a = true

/-- `Inside sep fold path dir`: the path is the directory, or it is in it. -/
def Inside (sep : α → Bool) (fold : α → α) (path dir : List α) : Prop :=
  dir ≠ [] ∧ ∃ l r, path = l ++ r ∧ l.map fold = (trimmed sep dir).map fold ∧ AtBoundary sep l r

variable {sep : α → Bool} {fold : α → α} {a : α} {dir dir' l path r : List α}

theorem trimmed_ne_nil (h : dir ≠ []) : trimmed sep dir ≠ [] := by
  cases dir with
  | nil => exact absurd rfl h
  | cons a dir => exact cons_ne_nil _ _

theorem exists_trimmed (sep : α → Bool) (dir : List α) :
    ∃ seps, dir = trimmed sep dir ++ seps ∧ ∀ a ∈ seps, sep a = true := by
  cases dir with
  | nil => exact ⟨[], rfl, fun a h => absurd h not_mem_nil⟩
  | cons a dir =>
    refine ⟨dir.rtakeWhile sep, ?_, fun b hb => mem_rtakeWhile_imp hb⟩
    rw [trimmed, cons_append, rdropWhile_append_rtakeWhile]

/-- Only the first letter of a shorter directory is a separator at its end. -/
theorem eq_singleton_of_trimmed (h : trimmed sep dir = l ++ [a]) (ha : sep a = true) :
    l = [] := by
  cases dir with
  | nil => exact absurd h.symm (append_ne_nil_of_right_ne_nil l (cons_ne_nil _ _))
  | cons b dir =>
    cases l with
    | nil => rfl
    | cons c l =>
      have hrest : dir.rdropWhile sep = l ++ [a] := (List.cons.inj h).2
      have hne : dir.rdropWhile sep ≠ [] := by
        rw [hrest]
        exact append_ne_nil_of_right_ne_nil l (cons_ne_nil _ _)
      have hlast := rdropWhile_last_not sep dir hne
      have hget : (dir.rdropWhile sep).getLast hne = a := by
        rw [getLast_congr hne (by simp) hrest, getLast_append_singleton]
      rw [hget] at hlast
      exact absurd ha hlast

/-- The shorter directory ends with a separator just when the directory has no other letters. -/
theorem trimmed_all_iff (hdir : dir ≠ []) :
    (∃ l a, trimmed sep dir = l ++ [a] ∧ sep a = true) ↔ ∀ a ∈ dir, sep a = true := by
  constructor
  · rintro ⟨l, a, htrim, ha⟩ b hb
    obtain ⟨seps, hsplit, hseps⟩ := exists_trimmed sep dir
    obtain rfl := eq_singleton_of_trimmed htrim ha
    rw [hsplit, htrim, nil_append, singleton_append] at hb
    rcases mem_cons.mp hb with rfl | hb
    · exact ha
    · exact hseps b hb
  · intro hall
    cases dir with
    | nil => exact absurd rfl hdir
    | cons a dir =>
      rw [forall_mem_cons] at hall
      refine ⟨[], a, ?_, hall.1⟩
      rw [trimmed, rdropWhile_eq_nil_iff.mpr hall.2, nil_append]

/-! ## The order -/

theorem Inside.refl (fold : α → α) (h : dir ≠ []) : Inside sep fold dir dir := by
  obtain ⟨seps, hsplit, hseps⟩ := exists_trimmed sep dir
  refine ⟨h, trimmed sep dir, seps, hsplit, rfl, ?_⟩
  cases seps with
  | nil => exact .inl rfl
  | cons a seps => exact .inr (.inl ⟨a, seps, rfl, hseps a mem_cons_self⟩)

theorem exists_last (hsep : ∀ a, sep (fold a) = sep a) {l l' : List α}
    (hmap : l.map fold = l'.map fold) (h : ∃ k a, l' = k ++ [a] ∧ sep a = true) :
    ∃ k a, l = k ++ [a] ∧ sep a = true := by
  obtain ⟨k, a, rfl, ha⟩ := h
  rw [map_append, map_eq_append_iff] at hmap
  obtain ⟨k', t, rfl, -, ht⟩ := hmap
  obtain ⟨b, rfl, hb⟩ := map_eq_singleton_iff.mp ht
  refine ⟨k', b, rfl, ?_⟩
  rw [← hsep, hb, hsep, ha]

theorem Inside.trans (hsep : ∀ a, sep (fold a) = sep a) (h : Inside sep fold path dir)
    (h' : Inside sep fold dir dir') : Inside sep fold path dir' := by
  obtain ⟨hdir, l, r, rfl, hl, hr⟩ := h
  obtain ⟨hdir', k, s, hks, hk, hs⟩ := h'
  obtain ⟨seps, hsplit, hseps⟩ := exists_trimmed sep dir
  refine ⟨hdir', ?_⟩
  rcases append_eq_append_iff.mp (hsplit.symm.trans hks) with ⟨x, rfl, hx⟩ | ⟨x, htrim, rfl⟩
  · rcases eq_nil_or_concat x with rfl | ⟨x, a, rfl⟩
    · rw [append_nil] at hk
      exact ⟨l, r, rfl, hl.trans hk, hr⟩
    · -- `dir'` would end with a separator of `dir`, behind another letter
      have ha : sep a = true := hseps a (by simp [hx])
      obtain ⟨k', b, hk', hb⟩ := exists_last hsep hk.symm
        ⟨trimmed sep dir ++ x, a, by simp, ha⟩
      obtain rfl := eq_singleton_of_trimmed hk' hb
      have hlen := congrArg List.length hk
      rw [hk', length_map, length_map, length_append, concat_eq_append, length_append] at hlen
      have hpos : 0 < (trimmed sep dir).length := length_pos_of_ne_nil (trimmed_ne_nil hdir)
      simp only [nil_append, length_singleton] at hlen
      omega
  · rw [htrim, map_append, map_eq_append_iff] at hl
    obtain ⟨l₁, l₂, rfl, hl₁, hl₂⟩ := hl
    refine ⟨l₁, l₂ ++ r, append_assoc .., hl₁.trans hk, ?_⟩
    cases x with
    | nil =>
      obtain rfl := map_eq_nil_iff.mp hl₂
      rwa [append_nil] at hr
    | cons b x =>
      obtain ⟨b', l₂, rfl, hb', -⟩ := map_eq_cons_iff.mp hl₂
      rcases hs with hs | ⟨c, s', hs, hc⟩ | hs
      · cases hs
      · -- the letter behind `dir'` is the same one in the path
        obtain ⟨rfl, -⟩ := List.cons.inj hs
        refine .inr (.inl ⟨b', l₂ ++ r, rfl, ?_⟩)
        rw [← hsep, hb', hsep, hc]
      · exact .inr (.inr (exists_last hsep hl₁ hs))

end Containment
