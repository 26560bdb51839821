import Mathlib.Data.List.Basic

/-!
# Histories

Properties of a list of events, in the order in which they happened.

- `always_append`: a law about every event and what happened before it;
- `Since.append`: what has happened and was not ended since.
-/

open List

namespace Trace

variable {E : Type*}

/-- Every event satisfies a law about what happened before it. -/
def Always (Law : List E → E → Prop) (tr : List E) : Prop :=
  ∀ pre e post, tr = pre ++ e :: post → Law pre e

/-- Something happened, and nothing since then that ends it. -/
def Since (ends : E → Prop) (e : E) (tr : List E) : Prop :=
  ∃ pre post, tr = pre ++ e :: post ∧ ∀ x ∈ post, ¬ ends x

variable {Law : List E → E → Prop} {ends : E → Prop} {tr new : List E} {e x : E}

theorem always_nil : Always Law [] := fun pre e post h =>
  absurd h (append_ne_nil_of_right_ne_nil pre (cons_ne_nil e post)).symm

/-- What is new satisfies the law behind what happened before. -/
theorem always_append :
    Always Law (tr ++ new) ↔
      Always Law tr ∧ Always (fun pre e => Law (tr ++ pre) e) new := by
  constructor
  · intro h
    refine ⟨fun pre e post htr => ?_, fun pre e post hnew => ?_⟩
    · apply h pre e (post ++ new)
      rw [htr, append_assoc, cons_append]
    · apply h (tr ++ pre) e post
      rw [hnew, append_assoc]
  · rintro ⟨htr, hnew⟩ pre e post heq
    rcases append_eq_append_iff.mp heq with ⟨mid, rfl, hmid⟩ | ⟨mid, rfl, hmid⟩
    · exact hnew mid e post hmid
    · -- the event is the next one, or one of those before
      cases mid with
      | nil =>
        have hlaw := hnew [] e post hmid.symm
        rwa [append_nil, append_nil] at hlaw
      | cons y mid =>
        obtain ⟨rfl, rfl⟩ := List.cons.inj hmid
        exact htr pre e mid rfl

theorem always_cons :
    Always Law (e :: tr) ↔ Law [] e ∧ Always (fun pre x => Law (e :: pre) x) tr := by
  have h : Always Law ([e] ++ tr) ↔
      Always Law [e] ∧ Always (fun pre x => Law ([e] ++ pre) x) tr := always_append
  rw [singleton_append] at h
  rw [h]
  refine and_congr_left fun _ => ⟨fun h => h [] e [] rfl, fun h pre x post heq => ?_⟩
  cases pre with
  | nil =>
    obtain ⟨rfl, -⟩ := List.cons.inj heq
    exact h
  | cons y pre =>
    obtain ⟨-, hnil⟩ := List.cons.inj heq
    exact absurd hnil (append_ne_nil_of_right_ne_nil _ (cons_ne_nil _ _)).symm

/-! ## What has happened since -/

theorem since_concat_self (ends : E → Prop) (e : E) (tr : List E) : Since ends e (tr ++ [e]) :=
  ⟨tr, [], rfl, fun _ h => absurd h not_mem_nil⟩

theorem Since.append (h : Since ends e tr) (hnew : ∀ x ∈ new, ¬ ends x) :
    Since ends e (tr ++ new) := by
  obtain ⟨pre, post, rfl, hpost⟩ := h
  refine ⟨pre, post ++ new, by rw [append_assoc, cons_append], fun x hx => ?_⟩
  rcases mem_append.mp hx with hx | hx
  · exact hpost x hx
  · exact hnew x hx

theorem not_since_of_ends (hends : ends x) (hne : x ≠ e) : ¬ Since ends e (tr ++ [x]) := by
  rintro ⟨pre, post, heq, hpost⟩
  rcases eq_nil_or_concat post with rfl | ⟨post, y, rfl⟩
  · obtain ⟨-, hx⟩ := append_inj' heq rfl
    exact hne (List.cons.inj hx).1
  · rw [concat_eq_append, ← cons_append, ← append_assoc] at heq
    obtain ⟨-, hx⟩ := append_inj' heq rfl
    obtain ⟨rfl, -⟩ := List.cons.inj hx
    exact hpost x (by rw [concat_eq_append]; simp) hends

/-- An event that does not happen from some point on happened before it. -/
theorem mem_of_split {pre post front rest : List E} (h : pre ++ e :: post = front ++ x :: rest)
    (hne : e ∉ x :: rest) : e ∈ front ∧ x ∈ post := by
  rcases append_eq_append_iff.mp h with ⟨mid, rfl, hmid⟩ | ⟨mid, rfl, hmid⟩
  · cases mid with
    | nil =>
      obtain ⟨rfl, -⟩ := List.cons.inj hmid
      exact absurd mem_cons_self hne
    | cons y mid =>
      obtain ⟨rfl, rfl⟩ := List.cons.inj hmid
      simp
  · rw [hmid] at hne
    simp at hne

end Trace
