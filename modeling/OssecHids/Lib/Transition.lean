import Mathlib.Order.Basic
import Mathlib.Data.List.Pairwise

/-!
# Labelled transition systems

Runs of a step relation `Step : S → L → S → Prop` whose labels record what a step was given and
what it answered.

- `Run.invariant`: what every step preserves holds along every run;
- `outputs_eq`: machines that simulate each other answer alike;
- `Run.outputs_lt`: a system in which a position never moves back, and every output lies above
  the position before its step and not above the one after it, puts out a strictly increasing
  sequence.
-/

open List

namespace Transition

variable {S L : Type*}

/-- `Run Step s ls t`: the steps labelled `ls` lead from `s` to `t`. -/
inductive Run (Step : S → L → S → Prop) : S → List L → S → Prop
  | nil (s : S) : Run Step s [] s
  | cons {s s' t : S} {l : L} {ls : List L} :
      Step s l s' → Run Step s' ls t → Run Step s (l :: ls) t

/-- The graph of a function, as a step relation. -/
def StepOf {O : Type*} (f : S → L → S × O) (s : S) (l : L × O) (s' : S) : Prop :=
  f s l.1 = (s', l.2)

variable {Step : S → L → S → Prop}

theorem Run.append {s t u : S} {ls ms : List L} (h : Run Step s ls t) (h' : Run Step t ms u) :
    Run Step s (ls ++ ms) u := by
  induction h with
  | nil => exact h'
  | cons hstep _ ih => exact .cons hstep (ih h')

theorem Run.split {s u : S} {ls ms : List L} (h : Run Step s (ls ++ ms) u) :
    ∃ t, Run Step s ls t ∧ Run Step t ms u := by
  induction ls generalizing s with
  | nil => exact ⟨s, .nil s, h⟩
  | cons l ls ih =>
    cases h with
    | cons hl h =>
      obtain ⟨t, hleft, hright⟩ := ih h
      exact ⟨t, .cons hl hleft, hright⟩

/-- An invariant that holds initially and is kept by every step holds at the end of every run. -/
theorem Run.invariant {Inv : S → Prop} (hstep : ∀ s l s', Inv s → Step s l s' → Inv s')
    {s t : S} {ls : List L} (h : Run Step s ls t) (hs : Inv s) : Inv t := by
  induction h with
  | nil => exact hs
  | cons hl _ ih => exact ih (hstep _ _ _ hs hl)

theorem Run.history {Inv : List L → S → Prop}
    (hstep : ∀ pre s l s', Inv pre s → Step s l s' → Inv (pre ++ [l]) s')
    {s t : S} {ls : List L} (h : Run Step s ls t) (hs : Inv [] s) : Inv ls t := by
  have hgen : ∀ pre, Inv pre s → Inv (pre ++ ls) t := by
    clear hs
    induction h with
    | nil =>
      intro pre hs
      rwa [append_nil]
    | cons hl _ ih =>
      intro pre hs
      rw [append_cons]
      exact ih _ (hstep _ _ _ _ hs hl)
  exact hgen [] hs

/-- Every label of a run is the label of a step from a state that satisfies the invariant. -/
theorem Run.exists_step {Inv : S → Prop} (hstep : ∀ s l s', Inv s → Step s l s' → Inv s')
    {s t : S} {ls : List L} (h : Run Step s ls t) (hs : Inv s) :
    ∀ l ∈ ls, ∃ u u', Inv u ∧ Step u l u' := by
  induction h with
  | nil => intro l hl; cases hl
  | cons hl _ ih =>
    intro l' hl'
    rcases mem_cons.mp hl' with rfl | hl'
    · exact ⟨_, _, hs, hl⟩
    · exact ih (hstep _ _ _ hs hl) l' hl'

theorem Run.map {T : Type*} {Step' : T → L → T → Prop} (f : S → T)
    (hstep : ∀ s l s', Step s l s' → Step' (f s) l (f s')) {s t : S} {ls : List L}
    (h : Run Step s ls t) : Run Step' (f s) ls (f t) := by
  induction h with
  | nil s => exact .nil _
  | cons hl _ ih => exact .cons (hstep _ _ _ hl) ih

theorem Run.mono {Step' : S → L → S → Prop} (hstep : ∀ s l s', Step s l s' → Step' s l s')
    {s t : S} {ls : List L} (h : Run Step s ls t) : Run Step' s ls t :=
  h.map id hstep

/-- What a machine answers to a list of calls. -/
def outputs {O : Type*} (f : S → L → S × O) : S → List L → List O
  | _, [] => []
  | s, l :: ls => (f s l).2 :: outputs f (f s l).1 ls

theorem run_outputs {O : Type*} (f : S → L → S × O) (s : S) (ls : List L) :
    Run (StepOf f) s (ls.zip (outputs f s ls)) (ls.foldl (fun s l => (f s l).1) s) := by
  induction ls generalizing s with
  | nil => exact .nil s
  | cons l ls ih => exact .cons rfl (ih _)

/-- Two machines in related states answer alike, if every call keeps them related and gets the same
answer from both. -/
theorem outputs_eq {T O : Type*} {f : S → L → S × O} {g : T → L → T × O} {R : S → T → Prop}
    (hstep : ∀ s t l, R s t → R (f s l).1 (g t l).1 ∧ (f s l).2 = (g t l).2) {s : S} {t : T}
    (h : R s t) (ls : List L) : outputs f s ls = outputs g t ls := by
  induction ls generalizing s t with
  | nil => rfl
  | cons l ls ih =>
    obtain ⟨hnext, hout⟩ := hstep s t l h
    rw [outputs, outputs, hout, ih hnext]

section Monotone

variable {α : Type*} [Preorder α] {Inv : S → Prop} {pos : S → α} {out : L → Option α}

/-- A step moves forward when it does not move the position back and its output, if there is
one, lies above the old position and not above the new one. -/
structure Forward (pos : S → α) (out : L → Option α) (s : S) (l : L) (s' : S) : Prop where
  le : pos s ≤ pos s'
  out_lt : ∀ x, out l = some x → pos s < x
  out_le : ∀ x, out l = some x → x ≤ pos s'

/-- The outputs of a run of forward steps lie between the positions at its two ends. -/
theorem Run.outputs_bounds (hstep : ∀ s l s', Inv s → Step s l s' → Inv s')
    (hfwd : ∀ s l s', Inv s → Step s l s' → Forward pos out s l s')
    {s t : S} {ls : List L} (h : Run Step s ls t) (hs : Inv s) :
    pos s ≤ pos t ∧ ∀ x ∈ ls.filterMap out, pos s < x ∧ x ≤ pos t := by
  induction h with
  | nil => simp
  | cons hl _ ih =>
    have hf := hfwd _ _ _ hs hl
    obtain ⟨hle, hout⟩ := ih (hstep _ _ _ hs hl)
    refine ⟨hf.le.trans hle, fun x hx => ?_⟩
    rw [mem_filterMap] at hx
    obtain ⟨l', hl', hx⟩ := hx
    rcases mem_cons.mp hl' with rfl | hl'
    · exact ⟨hf.out_lt x hx, (hf.out_le x hx).trans hle⟩
    · obtain ⟨h₁, h₂⟩ := hout x (mem_filterMap.mpr ⟨l', hl', hx⟩)
      exact ⟨lt_of_le_of_lt hf.le h₁, h₂⟩

/-- The outputs of a run of forward steps are strictly increasing. -/
theorem Run.outputs_lt (hstep : ∀ s l s', Inv s → Step s l s' → Inv s')
    (hfwd : ∀ s l s', Inv s → Step s l s' → Forward pos out s l s')
    {s t : S} {ls : List L} (h : Run Step s ls t) (hs : Inv s) :
    (ls.filterMap out).Pairwise (· < ·) := by
  induction h with
  | nil => simp
  | @cons s s' t l ls hl hrest ih =>
    have hf := hfwd _ _ _ hs hl
    have hs' := hstep _ _ _ hs hl
    cases hx : out l with
    | none => rw [filterMap_cons_none hx]; exact ih hs'
    | some x =>
      rw [filterMap_cons_some hx, pairwise_cons]
      refine ⟨fun y hy => ?_, ih hs'⟩
      have hbound := (Run.outputs_bounds hstep hfwd hrest hs').2 y hy
      exact lt_of_le_of_lt (hf.out_le x hx) hbound.1

end Monotone

end Transition
