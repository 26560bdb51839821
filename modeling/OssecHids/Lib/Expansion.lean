import Mathlib.Data.List.TakeWhile

/-!
# Texts with references

A reference is a mark with a name behind it, which goes on to the next symbol that ends names.

- `Expands`: every reference is replaced by its value, in one pass over the text;
- `Expands.mark_iff`: what stands behind a mark;
- `Expands.unique`: a text has at most one expansion.
-/

open List

variable {α : Type*} {mark : α} {stop : α → Bool} {value : List α → Option (List α)}

/-- A text and its expansion. A name is as long as it can be; the values are not read again. A mark
without a name stays, unless the empty name has a value. -/
inductive Expands (mark : α) (stop : α → Bool) (value : List α → Option (List α)) :
    List α → List α → Prop
  | nil : Expands mark stop value [] []
  | plain {c s t} (hc : c ≠ mark) (h : Expands mark stop value s t) :
      Expands mark stop value (c :: s) (c :: t)
  | lone {s t} (hs : ∀ c ∈ s.head?, stop c = true) (hvalue : value [] = none)
      (h : Expands mark stop value s t) : Expands mark stop value (mark :: s) (mark :: t)
  | reference {name s v t} (hname : ∀ c ∈ name, stop c = false) (hs : ∀ c ∈ s.head?, stop c = true)
      (hvalue : value name = some v) (h : Expands mark stop value s t) :
      Expands mark stop value (mark :: (name ++ s)) (v ++ t)

namespace Expands

variable {s t t' : List α}

/-- The name behind a mark, and what is behind the name. -/
theorem split_eq {name rest : List α} (hname : ∀ c ∈ name, stop c = false)
    (hrest : ∀ c ∈ rest.head?, stop c = true) :
    (name ++ rest).takeWhile (fun c => !stop c) = name ∧
      (name ++ rest).dropWhile (fun c => !stop c) = rest := by
  have hall : ∀ c ∈ name, (!stop c) = true := fun c hc => by rw [hname c hc]; rfl
  have hnil : rest.takeWhile (fun c => !stop c) = [] ∧
      rest.dropWhile (fun c => !stop c) = rest := by
    cases rest with
    | nil => exact ⟨rfl, rfl⟩
    | cons c rest =>
      have hc : (!stop c) = false := by rw [hrest c rfl]; rfl
      rw [takeWhile_cons_of_neg (by simp [hc]), dropWhile_cons_of_neg (by simp [hc])]
      exact ⟨rfl, rfl⟩
  rw [takeWhile_append_of_pos hall, dropWhile_append_of_pos hall, hnil.1, hnil.2, append_nil]
  exact ⟨rfl, rfl⟩

/-- What stands behind a mark is a name and the rest, and the name has a value or is empty. -/
theorem mark_iff :
    Expands mark stop value (mark :: s) t ↔
      ∃ t', Expands mark stop value (s.dropWhile fun c => !stop c) t' ∧
        (value (s.takeWhile fun c => !stop c) = none ∧ (s.takeWhile fun c => !stop c) = [] ∧
            t = mark :: t' ∨
          ∃ v, value (s.takeWhile fun c => !stop c) = some v ∧ t = v ++ t') := by
  have htake : ∀ c ∈ s.takeWhile fun c => !stop c, stop c = false := fun c hc => by
    simpa using mem_takeWhile_imp hc
  have hdrop : ∀ c ∈ (s.dropWhile fun c => !stop c).head?, stop c = true := fun c hc => by
    have hnot := head?_dropWhile_not (fun c => !stop c) s
    rw [hc] at hnot
    simpa using hnot
  constructor
  · intro h
    generalize hs : mark :: s = r at h
    cases h with
    | nil => cases hs
    | plain hc _ => exact absurd (List.cons.inj hs).1.symm hc
    | lone hhead hvalue h =>
      obtain ⟨-, rfl⟩ := List.cons.inj hs
      obtain ⟨htk, hdp⟩ := split_eq (forall_mem_nil _) hhead
      rw [nil_append] at htk hdp
      rw [htk, hdp]
      exact ⟨_, h, .inl ⟨hvalue, rfl, rfl⟩⟩
    | reference hname hhead hvalue h =>
      obtain ⟨-, rfl⟩ := List.cons.inj hs
      obtain ⟨htk, hdp⟩ := split_eq hname hhead
      rw [htk, hdp]
      exact ⟨_, h, .inr ⟨_, hvalue, rfl⟩⟩
  · rintro ⟨t', h, ⟨hvalue, hnil, rfl⟩ | ⟨v, hvalue, rfl⟩⟩
    · have hs : s.dropWhile (fun c => !stop c) = s := by
        have happ := takeWhile_append_dropWhile (p := fun c => !stop c) (l := s)
        rw [hnil] at happ
        exact happ
      rw [hnil] at hvalue
      rw [hs] at h hdrop
      exact .lone hdrop hvalue h
    · have happ := takeWhile_append_dropWhile (p := fun c => !stop c) (l := s)
      rw [← happ]
      exact .reference htake hdrop hvalue h

theorem plain_iff {c : α} (hc : c ≠ mark) :
    Expands mark stop value (c :: s) t ↔ ∃ t', Expands mark stop value s t' ∧ t = c :: t' := by
  constructor
  · intro h
    cases h with
    | plain _ h => exact ⟨_, h, rfl⟩
    | lone => exact absurd rfl hc
    | reference => exact absurd rfl hc
  · rintro ⟨t', h, rfl⟩
    exact .plain hc h

/-- A text has at most one expansion. -/
theorem unique (h : Expands mark stop value s t) (h' : Expands mark stop value s t') : t = t' := by
  induction h generalizing t' with
  | nil =>
    cases h'
    rfl
  | plain hc _ ih =>
    obtain ⟨u, hu, rfl⟩ := (plain_iff hc).mp h'
    rw [ih hu]
  | @lone s t hs hvalue _ ih =>
    obtain ⟨htk, hdp⟩ := split_eq (forall_mem_nil _) hs
    rw [nil_append] at htk hdp
    obtain ⟨u, hu, ⟨-, -, rfl⟩ | ⟨v, hv, -⟩⟩ := mark_iff.mp h'
    · rw [hdp] at hu
      rw [ih hu]
    · rw [htk, hvalue] at hv
      cases hv
  | @reference name s v t hname hs hvalue _ ih =>
    obtain ⟨htk, hdp⟩ := split_eq hname hs
    obtain ⟨u, hu, ⟨hnone, -, -⟩ | ⟨w, hw, rfl⟩⟩ := mark_iff.mp h'
    · rw [htk, hvalue] at hnone
      cases hnone
    · rw [hdp] at hu
      rw [htk, hvalue] at hw
      rw [ih hu, Option.some.inj hw]

theorem self_of_notMem (h : mark ∉ s) : Expands mark stop value s s := by
  induction s with
  | nil => exact .nil
  | cons c s ih =>
    rw [mem_cons, not_or] at h
    exact .plain (Ne.symm h.1) (ih h.2)

end Expands
