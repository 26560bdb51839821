import Mathlib.Data.List.Nodup
import Mathlib.Data.List.TakeDrop
import Mathlib.Data.List.TakeWhile

/-!
# Lists with unique keys

A list that is searched from the front for the first element with some property, which is then
changed or taken out.

- `splitFirst_eq_some`, `splitFirst_eq_none`: what a search finds;
- `UniqueKeys`: no two elements have the same key;
- `UniqueKeys.filter_ne`: what is left without the element of a key.
-/

open List

namespace KeyedList

variable {α κ : Type*}

/-- The first element that passes a test, between those in front of it and those behind it. -/
def splitFirst (p : α → Bool) (l : List α) : Option (List α × α × List α) :=
  match l.span fun a => !p a with
  | (_, []) => none
  | (front, a :: back) => some (front, a, back)

section Search

variable {p : α → Bool} {l front back : List α} {a : α}

theorem splitFirst_eq_some (h : splitFirst p l = some (front, a, back)) :
    l = front ++ a :: back ∧ p a = true := by
  rw [splitFirst, span_eq_takeWhile_dropWhile] at h
  split at h
  case h_1 => exact absurd h (Option.some_ne_none _).symm
  case h_2 front' a' back' heq =>
    obtain ⟨hfront, hback⟩ := Prod.mk.inj heq
    obtain ⟨rfl, hrest⟩ := Prod.mk.inj (Option.some.inj h)
    cases hrest
    refine ⟨?_, ?_⟩
    · rw [← hfront, ← hback, takeWhile_append_dropWhile]
    · have hne : l.dropWhile (fun b => !p b) ≠ [] := by
        rw [hback]
        exact cons_ne_nil _ _
      have hstop := head_dropWhile_not _ hne
      simpa [hback] using hstop

theorem splitFirst_eq_none (h : splitFirst p l = none) : ∀ a ∈ l, p a = false := by
  rw [splitFirst, span_eq_takeWhile_dropWhile] at h
  split at h
  case h_1 front' heq =>
    intro a ha
    have hall := dropWhile_eq_nil_iff.mp (Prod.mk.inj heq).2 a ha
    simpa using hall
  case h_2 => cases h

theorem exists_splitFirst (ha : a ∈ l) (hp : p a = true) :
    ∃ front b back, splitFirst p l = some (front, b, back) := by
  cases h : splitFirst p l with
  | none => exact absurd hp (by rw [splitFirst_eq_none h a ha]; exact Bool.false_ne_true)
  | some r => exact ⟨_, _, _, rfl⟩

end Search

/-- No two elements have the same key. -/
def UniqueKeys (key : α → κ) (l : List α) : Prop := (l.map key).Nodup

namespace UniqueKeys

variable {key : α → κ} {l front back : List α} {a b : α}

theorem eq_of_key_eq (h : UniqueKeys key l) (ha : a ∈ l) (hb : b ∈ l) (heq : key a = key b) : a = b :=
  inj_on_of_nodup_map h ha hb heq

theorem sublist {l' : List α} (h : UniqueKeys key l) (hsub : l'.Sublist l) : UniqueKeys key l' :=
  List.Nodup.sublist (hsub.map key) h

/-- Neither in front of an element nor behind it is there another one with its key. -/
theorem ne_of_mem (h : UniqueKeys key (front ++ a :: back)) (hb : b ∈ front ++ back) :
    key b ≠ key a := by
  rw [UniqueKeys, map_append, map_cons, nodup_middle, nodup_cons, ← map_append] at h
  intro heq
  exact h.1 (heq ▸ mem_map_of_mem hb)

theorem replace (h : UniqueKeys key (front ++ a :: back)) (heq : key b = key a) :
    UniqueKeys key (front ++ b :: back) := by
  rw [UniqueKeys, map_append, map_cons] at h ⊢
  rwa [heq]

theorem concat (h : UniqueKeys key l) (hnew : ∀ b ∈ l, key b ≠ key a) : UniqueKeys key (l ++ [a]) := by
  rw [UniqueKeys, map_append]
  refine List.Nodup.append h (nodup_singleton _) ?_
  rw [map_singleton, disjoint_singleton]
  intro hmem
  obtain ⟨b, hb, heq⟩ := mem_map.mp hmem
  exact hnew b hb heq

/-- Elements that pass a test only when they have the same key are one at most. -/
theorem length_filter_le_one (h : UniqueKeys key l) {p : α → Bool}
    (hsame : ∀ a ∈ l, ∀ b ∈ l, p a = true → p b = true → key a = key b) :
    (l.filter p).length ≤ 1 := by
  have hsub : UniqueKeys key (l.filter p) := h.sublist filter_sublist
  cases hfilter : l.filter p with
  | nil => exact Nat.zero_le 1
  | cons a rest =>
    cases rest with
    | nil => exact Nat.le_refl 1
    | cons b rest =>
      rw [hfilter] at hsub
      have hmem : ∀ c ∈ a :: b :: rest, c ∈ l ∧ p c = true := fun c hc => by
        rwa [← hfilter, mem_filter] at hc
      obtain ⟨ha, hpa⟩ := hmem a (by simp)
      obtain ⟨hb, hpb⟩ := hmem b (by simp)
      simp [UniqueKeys, hsame a ha b hb hpa hpb] at hsub

variable [DecidableEq κ]

theorem filter_ne (h : UniqueKeys key (front ++ a :: back)) :
    (front ++ a :: back).filter (fun b => key b ≠ key a) = front ++ back := by
  have hrest : ∀ b ∈ front ++ back, decide (key b ≠ key a) = true := fun b hb =>
    decide_eq_true (h.ne_of_mem hb)
  rw [filter_append, filter_cons_of_neg (by simp), ← filter_append, filter_eq_self.mpr hrest]

theorem length_filter_ne (h : UniqueKeys key l) (ha : a ∈ l) :
    (l.filter fun b => key b ≠ key a).length + 1 = l.length := by
  obtain ⟨front, back, rfl⟩ := append_of_mem ha
  rw [h.filter_ne, length_append, length_append, length_cons]
  omega

theorem filter_eq (h : UniqueKeys key l) (ha : a ∈ l) :
    (l.filter fun b => key b = key a) = [a] := by
  obtain ⟨front, back, rfl⟩ := append_of_mem ha
  have hfront : ∀ b ∈ front, ¬decide (key b = key a) = true := fun b hb heq =>
    h.ne_of_mem (mem_append_left back hb) (of_decide_eq_true heq)
  have hback : ∀ b ∈ back, ¬decide (key b = key a) = true := fun b hb heq =>
    h.ne_of_mem (mem_append_right front hb) (of_decide_eq_true heq)
  rw [filter_append, filter_cons_of_pos (by simp), filter_eq_nil_iff.mpr hfront,
    filter_eq_nil_iff.mpr hback, nil_append]

end UniqueKeys

end KeyedList
