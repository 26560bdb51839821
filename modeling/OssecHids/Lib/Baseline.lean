import Mathlib.Data.Fintype.Basic

/-!
# Baselines at two ends

An observer compares what it observes with its baseline, and reports what differs to somebody who
has a baseline of their own. Some of the observed values can be missing; a missing value is no
difference, and the last one is kept for it.

- `Ends.Behind.step`: the far baseline never has a value that the near one has not;
- `Extends.differs_merge_iff`: what the far end makes of a report;
- `Extends.next`: a difference that could not be reported is not forgotten.
-/

namespace Baseline

variable {M ι H : Type*}

/-- What is observed at a time: data that is always there, and values that can be missing. -/
@[ext]
structure Observation (M ι H : Type*) where
  data : M
  value : ι → Option H

namespace Observation

/-- A new observation, with the old values where it has none. -/
def merge (b o : Observation M ι H) : Observation M ι H where
  data := o.data
  value i := (o.value i).or (b.value i)

/-- Other data, or another value in the place of one. -/
def Differs (b o : Observation M ι H) : Prop :=
  b.data ≠ o.data ∨ ∃ i, ∃ x ∈ b.value i, ∃ y ∈ o.value i, x ≠ y

instance [DecidableEq M] [DecidableEq H] [Fintype ι] (b o : Observation M ι H) :
    Decidable (Differs b o) :=
  inferInstanceAs (Decidable (_ ∨ ∃ i, ∃ x ∈ b.value i, ∃ y ∈ o.value i, x ≠ y))

theorem merge_value (b o : Observation M ι H) (i : ι) :
    (b.merge o).value i = (o.value i).or (b.value i) := rfl

end Observation

open Observation Option

/-- The same data, and no value less. -/
structure Extends (b b' : Observation M ι H) : Prop where
  data : b'.data = b.data
  value : ∀ i, ∀ x ∈ b.value i, x ∈ b'.value i

variable {b b' o o' : Observation M ι H}

theorem extends_refl (b : Observation M ι H) : Extends b b := ⟨rfl, fun _ _ h => h⟩

theorem Extends.differs (h : Extends b b') (hd : b.Differs o) : b'.Differs o := by
  rcases hd with hdata | ⟨i, x, hx, y, hy, hne⟩
  · left
    rw [h.data]
    exact hdata
  · exact .inr ⟨i, x, h.value i x hx, y, hy, hne⟩

/-- A baseline stays, with more values, under an observation that does not differ from it. -/
theorem Extends.merge (h : Extends b b') (hd : ¬ b.Differs o) : Extends b (b'.merge o) := by
  rw [Differs, not_or, not_not] at hd
  refine ⟨hd.1.symm, fun i x hx => ?_⟩
  rw [merge_value]
  cases ho : o.value i with
  | none => exact h.value i x hx
  | some y =>
    -- both have a value, which is the same
    have hxy : x = y := by
      by_contra hne
      exact hd.2 ⟨i, x, hx, y, ho, hne⟩
    rw [hxy]
    rfl

/-- With fewer values at the far end, a report is the observation. -/
theorem Extends.merge_merge (h : Extends b b') (o : Observation M ι H) :
    b.merge (b'.merge o) = b'.merge o := by
  apply Observation.ext
  · rfl
  · funext i
    show ((o.value i).or (b'.value i)).or (b.value i) = (o.value i).or (b'.value i)
    cases o.value i with
    | some y => rfl
    | none =>
      cases hb : b.value i with
      | none => exact or_none
      | some x =>
        have hb' : b'.value i = some x := h.value i x hb
        rw [hb']
        rfl

/-- And differs where the observation does. -/
theorem Extends.differs_merge_iff (h : Extends b b') :
    b.Differs (b'.merge o) ↔ b.Differs o := by
  refine or_congr Iff.rfl ⟨?_, ?_⟩
  · rintro ⟨i, x, hx, y, hy, hne⟩
    rw [merge_value, mem_def, or_eq_some_iff] at hy
    rcases hy with hy | ⟨-, hy⟩
    · exact ⟨i, x, hx, y, hy, hne⟩
    · -- a value that was kept is the one of the far end
      have hb' : b'.value i = some x := h.value i x hx
      rw [hb'] at hy
      exact absurd (some.inj hy) hne
  · rintro ⟨i, x, hx, y, hy, hne⟩
    refine ⟨i, x, hx, y, ?_, hne⟩
    rw [merge_value, mem_def.mp hy]
    rfl

theorem differs_merge_self_iff : b.Differs (b.merge o) ↔ b.Differs o :=
  (extends_refl b).differs_merge_iff

/-! ## The near end -/

variable [DecidableEq M] [DecidableEq H] [Fintype ι]

/-- A report is due for the first observation, and for one that differs. -/
def Due : Option (Observation M ι H) → Observation M ι H → Prop
  | none, _ => True
  | some b, o => b.Differs o

instance : ∀ (seen : Option (Observation M ι H)) (o : Observation M ι H), Decidable (Due seen o)
  | none, _ => .isTrue trivial
  | some b, o => inferInstanceAs (Decidable (b.Differs o))

/-- The baseline after an observation. It stays if a report is due and is not delivered. -/
def next (seen : Option (Observation M ι H)) (o : Observation M ι H) (delivered : Bool) :
    Option (Observation M ι H) :=
  if Due seen o ∧ delivered = false then seen
  else some (seen.elim o fun b => b.merge o)

/-- What differs from a baseline and could not be reported differs from the next one as well. -/
theorem Extends.next (h : Extends b b') {delivered : Bool}
    (hd : ¬ b.Differs o ∨ delivered = false) :
    ∃ b'', Baseline.next (some b') o delivered = some b'' ∧ Extends b b'' := by
  by_cases hlost : Due (some b') o ∧ delivered = false
  · exact ⟨b', if_pos hlost, h⟩
  · refine ⟨b'.merge o, if_neg hlost, h.merge ?_⟩
    intro hdiffers
    rcases hd with hd | hd
    · exact hd hdiffers
    · exact hlost ⟨h.differs hdiffers, hd⟩

/-! ## Both ends -/

/-- The baselines of the observer and of the one that gets the reports. -/
structure Ends (M ι H : Type*) where
  seen : Option (Observation M ι H)
  told : Option (Observation M ι H)

/-- A report that is delivered tells all that has been seen. -/
def Ends.step (e : Ends M ι H) (o : Observation M ι H) (delivered : Bool) : Ends M ι H where
  seen := next e.seen o delivered
  told := if Due e.seen o ∧ delivered = true then next e.seen o delivered else e.told

/-- The far baseline has no value that the near one has not. -/
inductive Ends.Behind : Ends M ι H → Prop
  | start : Behind ⟨none, none⟩
  | both {b b' : Observation M ι H} (h : Extends b b') : Behind ⟨some b', some b⟩

variable {e : Ends M ι H}

theorem Ends.Behind.step (h : e.Behind) (o : Observation M ι H) (delivered : Bool) :
    (e.step o delivered).Behind := by
  by_cases hdue : Due e.seen o
  · cases delivered with
    | false =>
      -- the report is lost: both baselines stay
      have hstep : e.step o false = e := by
        rw [Ends.step, next, if_pos ⟨hdue, rfl⟩, if_neg fun h => Bool.false_ne_true h.2]
      rw [hstep]
      exact h
    | true =>
      have hstep : e.step o true = ⟨next e.seen o true, next e.seen o true⟩ := by
        rw [Ends.step, if_pos ⟨hdue, rfl⟩]
      have hnext : next e.seen o true = some (e.seen.elim o fun b => b.merge o) :=
        if_neg fun h => Bool.false_ne_true h.2.symm
      rw [hstep, hnext]
      exact .both (extends_refl _)
  · cases h with
    | start => exact absurd trivial hdue
    | @both b b' h =>
      -- nothing is reported, and the near baseline gets values at most
      have hstep : (⟨some b', some b⟩ : Ends M ι H).step o delivered =
          ⟨some (b'.merge o), some b⟩ := by
        rw [Ends.step, next, if_neg fun h => hdue h.1, if_neg fun h => hdue h.1]
        rfl
      rw [hstep]
      exact .both (h.merge fun hd => hdue (h.differs hd))

end Baseline
