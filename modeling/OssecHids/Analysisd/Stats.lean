import OssecHids.Lib.CString
import OssecHids.Lib.Transition
import Mathlib.Data.List.DropRight

/-!
# Hourly and weekly statistics

`Check_Hour` counts the events of every hour, and of every hour of a weekday, and reports a count
that is too far above the average `Update_Hour` has learned for it.

- `State.checkHour`, `State.updateHour`: the two calls;
- `MustReport`: when an event is to be reported;
- `checkHour_law`: a call answers so exactly when the weekday's count is not the only one that is
  too high, and no report of an earlier stretch of the hour is remembered.
-/

open CString Transition List Function

namespace Stats

/-- The options `analysisd.stats_*`. -/
structure Config where
  maxdiff : ℕ
  mindiff : ℕ
  percent_diff : ℕ
  deriving DecidableEq, Repr

/-- `gethour` -/
def Config.gethour (c : Config) (event_number : ℕ) : ℕ :=
  let event_diff := event_number * c.percent_diff / 100 + 1
  if event_diff < c.mindiff then event_number + c.mindiff
  else if event_diff > c.maxdiff then event_number + c.maxdiff
  else event_number + event_diff

/-- A row of the tables: the averages of `_RHour`, the counts of `_CHour`. Cell 24 is used for the
number of updates. -/
structure Row where
  R : ℕ → ℕ
  C : ℕ → ℕ

structure State where
  /-- `_RHour`, `_CHour` -/
  hourly : Row
  /-- `_RWHour`, `_CWHour` -/
  weekly : ℕ → Row
  cignorehour : ℤ
  fired : Bool
  daily_errors : ℕ

/-- The state of `Start_Hour` where nothing was learned. -/
def State.start : State where
  hourly := ⟨fun _ => 0, fun _ => 0⟩
  weekly := fun _ => ⟨fun _ => 0, fun _ => 0⟩
  cignorehour := 0
  fired := false
  daily_errors := 0

/-! ## `Update_Hour` -/

/-- The average of a cell, after a day with the given count. -/
def learn (daily_errors inter count average : ℕ) : ℕ :=
  if average = 0 then count + 20
  else if daily_errors ≥ 3 then (3 * count + inter * average) / (inter + 3) + 25
  else (count + inter * average) / (inter + 1) + 5

/-- The loop over the cells of a row. A cell whose count is zero is passed over. -/
def Row.update (daily_errors inter : ℕ) (row : Row) : Row where
  R i := if i < 24 ∧ row.C i ≠ 0 then learn daily_errors inter (row.C i) (row.R i) else row.R i
  C i := if i ≤ 24 then 0 else row.C i

/-- `table[i]++` -/
def increment (table : ℕ → ℕ) (i : ℕ) : ℕ → ℕ := Function.update table i (table i + 1)

/-- The hourly update. -/
def Row.updateHourly (daily_errors : ℕ) (row : Row) : Row :=
  let R := increment row.R 24
  Row.update daily_errors (min (R 24) 7) ⟨R, row.C⟩

/-- The weekly update, of the row of a day: the number of updates is kept among the counts, which
are zeroed. -/
def Row.updateWeekly (daily_errors : ℕ) (row : Row) : Row :=
  let C := increment row.C 24
  Row.update daily_errors (min (C 24) 7) ⟨row.R, C⟩

/-- `Update_Hour` -/
def State.updateHour (s : State) : State :=
  { s with
    hourly := s.hourly.updateHourly s.daily_errors
    weekly := fun i => if i ≤ 6 then (s.weekly i).updateWeekly s.daily_errors else s.weekly i
    daily_errors := 0 }

/-! ## `Check_Hour` -/

def weekdays : List Bytes :=
  [lit "Sunday", lit "Monday", lit "Tuesday", lit "Wednesday", lit "Thursday", lit "Friday",
    lit "Saturday"]

/-- The hour and the weekday that `Check_Hour` counts. -/
abbrev Valid (hour wday : ℤ) : Prop := 0 ≤ hour ∧ hour ≤ 23 ∧ 0 ≤ wday ∧ wday ≤ 6

/-- The count of a cell is above what its average allows. -/
def Row.Exceeds (c : Config) (row : Row) (i : ℕ) : Prop :=
  row.R i ≠ 0 ∧ row.C i > row.R i ∧ row.C i > c.gethour (row.R i)

instance (c : Config) (row : Row) (i : ℕ) : Decidable (row.Exceeds c i) :=
  inferInstanceAs (Decidable (_ ∧ _ ∧ _))

/-- `__stats_comment` for a row; `day` is empty for the hourly one. -/
def statsComment (hour : ℤ) (day : Bytes) (row : Row) : Bytes :=
  snprintf 191 (lit "The average number of logs between " ++ fmtD hour ++ lit ":00 and " ++
    fmtD (hour + 1) ++ lit ":00" ++ day ++ lit " is " ++ fmtD (row.R hour.toNat) ++
    lit ". We reached " ++ fmtD (row.C hour.toNat) ++ lit ".")

/-- `_CHour[hour]++; _CWHour[wday][hour]++` -/
def State.count (s : State) (hour wday : ℕ) : State :=
  { s with
    hourly := { s.hourly with C := increment s.hourly.C hour }
    weekly := Function.update s.weekly wday
      { s.weekly wday with C := increment (s.weekly wday).C hour } }

/-- A report was made, and no further one is to follow in this hour. -/
def State.fire (s : State) : State :=
  { s with fired := true, daily_errors := s.daily_errors + 1 }

/-- The thresholds of `Check_Hour`: the comment, where there is a report. -/
def State.checkThresholds (c : Config) (s : State) (hour wday : ℤ) : State × Option Bytes :=
  let row := s.weekly wday.toNat
  if s.hourly.Exceeds c hour.toNat then (s.fire, some (statsComment hour [] s.hourly))
  else if row.R 24 ≤ 2 then (s, none)
  else if row.Exceeds c hour.toNat then
    (s.fire, some (statsComment hour (lit " on " ++ weekdays.getD wday.toNat []) row))
  else (s, none)

/-- `Check_Hour`: the comment, where the result is 1. -/
def State.checkHour (c : Config) (s : State) (hour wday : ℤ) : State × Option Bytes :=
  if hour < 0 ∨ hour > 23 ∨ wday < 0 ∨ wday > 6 then (s, none)
  else
    let s := s.count hour.toNat wday.toNat
    if s.hourly.R 24 ≤ 2 then (s, none)
    else if s.daily_errors ≥ 3 ∨ s.fired = true ∧ s.cignorehour = hour then (s, none)
    else
      let s := if s.cignorehour ≠ hour then { s with cignorehour := hour, fired := false } else s
      s.checkThresholds c hour wday

/-! ## Runs -/

inductive Call
  | checkHour (hour wday : ℤ)
  | updateHour
  deriving DecidableEq, Repr

def State.call (c : Config) (s : State) : Call → State × Option Bytes
  | .checkHour hour wday => s.checkHour c hour wday
  | .updateHour => (s.updateHour, none)

/-- A call, and the comment of the report it made. -/
abbrev Event := Call × Option Bytes

abbrev Step (c : Config) : State → Event → State → Prop := StepOf (State.call c)

/-- The call counts an event for the hour. -/
def Event.atHour (hour : ℤ) : Event → Bool
  | (.checkHour h w, _) => decide (Valid h w ∧ h = hour)
  | (.updateHour, _) => false

/-- The call counts an event for the hour of the weekday. -/
def Event.atDay (hour wday : ℤ) : Event → Bool
  | (.checkHour h w, _) => decide (Valid h w ∧ h = hour ∧ w = wday)
  | (.updateHour, _) => false

/-- The call counts an event. -/
def Event.counted : Event → Bool
  | (.checkHour h w, _) => decide (Valid h w)
  | (.updateHour, _) => false

def Event.reported (e : Event) : Bool := e.2.isSome

/-- The number of `Update_Hour` calls. -/
def updates (tr : List Event) : ℕ := tr.countP fun e => e.1 = .updateHour

/-- The calls since the last `Update_Hour`. -/
def sinceUpdate (tr : List Event) : List Event := tr.rtakeWhile fun e => e.1 ≠ .updateHour

/-- The last calls that count an event, as long as they are all in the given hour. -/
def stretch (hour : ℤ) (tr : List Event) : List Event :=
  (tr.filter Event.counted).rtakeWhile (Event.atHour hour)

/-- Three reports were made since the last `Update_Hour`, or one in the stretch of the hour. -/
def Suppressed (tr : List Event) (hour : ℤ) : Prop :=
  3 ≤ (sinceUpdate tr).countP Event.reported ∨ (stretch hour tr).any Event.reported = true

/-- A count is above the value of `gethour` for an average that was learned. -/
def Config.Over (c : Config) (count average : ℕ) : Prop := average ≠ 0 ∧ c.gethour average < count

/-- The count for the hour, with the event of a call, is too high. -/
def HourOver (c : Config) (tr : List Event) (s : State) (hour : ℤ) : Prop :=
  c.Over ((sinceUpdate tr).countP (Event.atHour hour) + 1) (s.hourly.R hour.toNat)

/-- The count for the weekday and the hour, with the event of a call, is too high. -/
def DayOver (c : Config) (tr : List Event) (s : State) (hour wday : ℤ) : Prop :=
  c.Over ((sinceUpdate tr).countP (Event.atDay hour wday) + 1) ((s.weekly wday.toNat).R hour.toNat)

/-- Reports are made after three updates, where they are not suppressed. -/
def MayReport (tr : List Event) (hour wday : ℤ) : Prop :=
  Valid hour wday ∧ 3 ≤ updates tr ∧ ¬ Suppressed tr hour

/-- When a call is to report an event. -/
def MustReport (c : Config) (tr : List Event) (s : State) (hour wday : ℤ) : Prop :=
  MayReport tr hour wday ∧ (HourOver c tr s hour ∨ DayOver c tr s hour wday)

instance (c : Config) (count average : ℕ) : Decidable (c.Over count average) :=
  inferInstanceAs (Decidable (_ ∧ _))

instance (tr : List Event) (hour : ℤ) : Decidable (Suppressed tr hour) :=
  inferInstanceAs (Decidable (_ ∨ _))

instance (c : Config) (tr : List Event) (s : State) (hour wday : ℤ) :
    Decidable (MustReport c tr s hour wday) :=
  inferInstanceAs (Decidable ((_ ∧ _ ∧ _) ∧ (c.Over _ _ ∨ c.Over _ _)))

/-! ## What the calls do -/

variable {c : Config} {s : State} {hour wday h : ℤ} {out : Option Bytes} {e : Event}
  {tr : List Event} {row : Row} {i j : ℕ}

theorem not_valid_iff : (hour < 0 ∨ hour > 23 ∨ wday < 0 ∨ wday > 6) ↔ ¬ Valid hour wday := by
  unfold Valid
  omega

/-- Nothing is reported, and no cell is looked at. -/
def State.Quiet (s : State) (hour : ℤ) : Prop :=
  s.hourly.R 24 ≤ 2 ∨ s.daily_errors ≥ 3 ∨ s.fired = true ∧ s.cignorehour = hour

/-- The state in which the thresholds are looked at. -/
def State.opened (s : State) (hour wday : ℤ) : State :=
  { s.count hour.toNat wday.toNat with cignorehour := hour, fired := false }

theorem checkHour_of_not_valid (h : ¬ Valid hour wday) : s.checkHour c hour wday = (s, none) :=
  if_pos (not_valid_iff.mpr h)

theorem checkHour_of_quiet (h : Valid hour wday) (hquiet : s.Quiet hour) :
    s.checkHour c hour wday = (s.count hour.toNat wday.toNat, none) := by
  rw [State.checkHour, if_neg (not_valid_iff.not_left.mpr h)]
  obtain hfew | hquiet := hquiet
  · exact if_pos hfew
  · dsimp only
    split
    case isTrue => rfl
    case isFalse => exact if_pos hquiet

theorem checkHour_of_open (h : Valid hour wday) (hopen : ¬ s.Quiet hour) :
    s.checkHour c hour wday = (s.opened hour wday).checkThresholds c hour wday := by
  rw [State.Quiet, not_or] at hopen
  rw [State.checkHour, if_neg (not_valid_iff.not_left.mpr h)]
  refine (if_neg hopen.1).trans ((if_neg hopen.2).trans ?_)
  split
  case isTrue => rfl
  case isFalse hsame =>
    -- the hour is the remembered one, and nothing was reported in it
    rw [not_not] at hsame
    have hfired : s.fired = false := by
      rw [← Bool.not_eq_true]
      exact fun hfired => hopen.2 (.inr ⟨hfired, hsame⟩)
    rw [State.opened, ← hfired, ← hsame]
    rfl

theorem checkThresholds_of_exceeds (h : s.hourly.Exceeds c hour.toNat) :
    s.checkThresholds c hour wday = (s.fire, some (statsComment hour [] s.hourly)) :=
  if_pos h

theorem checkThresholds_of_not_exceeds (h : ¬ s.hourly.Exceeds c hour.toNat)
    (hrow : (s.weekly wday.toNat).R 24 ≤ 2) : s.checkThresholds c hour wday = (s, none) :=
  (if_neg h).trans (if_pos hrow)

theorem increment_self (table : ℕ → ℕ) (i : ℕ) : increment table i i = table i + 1 :=
  update_self ..

theorem increment_of_ne (table : ℕ → ℕ) (h : j ≠ i) : increment table i j = table j :=
  update_of_ne h ..

theorem count_hourly_R (s : State) (i j : ℕ) : (s.count i j).hourly.R = s.hourly.R := rfl

theorem count_weekly_R (s : State) (i j k : ℕ) :
    ((s.count i j).weekly k).R = (s.weekly k).R := by
  rw [State.count]
  dsimp only
  by_cases hk : k = j
  case pos => rw [hk, update_self]
  case neg => rw [update_of_ne hk]

/-! ## Histories -/

theorem updates_concat_check (tr : List Event) :
    updates (tr ++ [(.checkHour hour wday, out)]) = updates tr := by
  simp [updates]

theorem updates_concat_update (tr : List Event) :
    updates (tr ++ [(.updateHour, out)]) = updates tr + 1 := by
  simp [updates]

theorem sinceUpdate_concat_check (tr : List Event) :
    sinceUpdate (tr ++ [(.checkHour hour wday, out)]) =
      sinceUpdate tr ++ [(.checkHour hour wday, out)] :=
  rtakeWhile_concat_pos _ _ _ (by simp)

theorem sinceUpdate_concat_update (tr : List Event) :
    sinceUpdate (tr ++ [(.updateHour, out)]) = [] :=
  rtakeWhile_concat_neg _ _ _ (by simp)

theorem stretch_concat_update (tr : List Event) :
    stretch hour (tr ++ [(.updateHour, out)]) = stretch hour tr := by
  rw [stretch, filter_append]
  exact congrArg _ (append_nil _)

theorem stretch_concat_of_not_valid (h : ¬ Valid hour wday) (tr : List Event) (i : ℤ) :
    stretch i (tr ++ [(.checkHour hour wday, out)]) = stretch i tr := by
  have hcounted : Event.counted (.checkHour hour wday, out) = false := decide_eq_false h
  rw [stretch, filter_append, filter_cons_of_neg (by simp [hcounted]), filter_nil,
    append_nil, stretch]

theorem stretch_concat_self (h : Valid hour wday) (tr : List Event) :
    stretch hour (tr ++ [(.checkHour hour wday, out)]) =
      stretch hour tr ++ [(.checkHour hour wday, out)] := by
  have hcounted : Event.counted (.checkHour hour wday, out) = true := decide_eq_true h
  rw [stretch, filter_append, filter_cons_of_pos hcounted, filter_nil]
  exact rtakeWhile_concat_pos _ _ _ (decide_eq_true ⟨h, rfl⟩)

theorem stretch_concat_of_ne {i : ℤ} (h : Valid hour wday) (hne : hour ≠ i) (tr : List Event) :
    stretch i (tr ++ [(.checkHour hour wday, out)]) = [] := by
  have hcounted : Event.counted (.checkHour hour wday, out) = true := decide_eq_true h
  rw [stretch, filter_append, filter_cons_of_pos hcounted, filter_nil]
  refine rtakeWhile_concat_neg _ _ _ fun hat => hne ?_
  exact (of_decide_eq_true hat).2

/-! ## The state, and the calls that led to it -/

/-- What the tables hold after the calls of a history. The weekly rows never hold a number of
updates; a report that suppresses others is remembered. -/
structure Invariant (tr : List Event) (s : State) : Prop where
  updates : s.hourly.R 24 = updates tr
  weekly : ∀ i, (s.weekly i).R 24 = 0
  errors : s.daily_errors = (sinceUpdate tr).countP Event.reported
  hourCount : ∀ i : ℕ, i < 24 → s.hourly.C i = (sinceUpdate tr).countP (Event.atHour i)
  dayCount : ∀ j ≤ 6, ∀ i : ℕ, i < 24 →
    (s.weekly j).C i = (sinceUpdate tr).countP (Event.atDay i j)
  remembered : ∀ hour, (stretch hour tr).any Event.reported = true →
    s.fired = true ∧ s.cignorehour = hour

theorem invariant_start : Invariant [] State.start where
  updates := rfl
  weekly := fun _ => rfl
  errors := rfl
  hourCount := fun _ _ => rfl
  dayCount := fun _ _ _ _ => rfl
  remembered := fun _ h => absurd h (by simp [stretch])

theorem Row.update_C_of_lt (errors inter : ℕ) (row : Row) (h : i < 24) :
    (row.update errors inter).C i = 0 := if_pos h.le

theorem Row.update_R_last (errors inter : ℕ) (row : Row) :
    (row.update errors inter).R 24 = row.R 24 := by
  simp [Row.update]

theorem Invariant.updateHour (h : Invariant tr s) :
    Invariant (tr ++ [(.updateHour, none)]) s.updateHour where
  updates := by
    rw [updates_concat_update, ← h.updates]
    exact (Row.update_R_last ..).trans (increment_self s.hourly.R 24)
  weekly := by
    intro i
    rw [State.updateHour]
    dsimp only
    split
    case isTrue => exact (Row.update_R_last ..).trans (h.weekly i)
    case isFalse => exact h.weekly i
  errors := by
    rw [sinceUpdate_concat_update]
    rfl
  hourCount := by
    intro i hi
    rw [sinceUpdate_concat_update]
    exact Row.update_C_of_lt _ _ _ hi
  dayCount := by
    intro j hj i hi
    rw [sinceUpdate_concat_update]
    show (if j ≤ 6 then _ else _ : Row).C i = 0
    rw [if_pos hj]
    exact Row.update_C_of_lt _ _ _ hi
  remembered := by
    intro hour hreport
    rw [stretch_concat_update] at hreport
    exact h.remembered hour hreport

theorem Invariant.check_not_valid (h : Invariant tr s) (hvalid : ¬ Valid hour wday) :
    Invariant (tr ++ [(.checkHour hour wday, none)]) s where
  updates := by rw [updates_concat_check, h.updates]
  weekly := h.weekly
  errors := by
    rw [sinceUpdate_concat_check, countP_append, ← h.errors]
    rfl
  hourCount := by
    intro i hi
    have hat : Event.atHour i (.checkHour hour wday, none) = false :=
      decide_eq_false fun hat => hvalid hat.1
    rw [sinceUpdate_concat_check, countP_append, ← h.hourCount i hi, countP_singleton, hat]
    rfl
  dayCount := by
    intro j hj i hi
    have hat : Event.atDay i j (.checkHour hour wday, none) = false :=
      decide_eq_false fun hat => hvalid hat.1
    rw [sinceUpdate_concat_check, countP_append, ← h.dayCount j hj i hi, countP_singleton, hat]
    rfl
  remembered := by
    intro i hreport
    rw [stretch_concat_of_not_valid hvalid] at hreport
    exact h.remembered i hreport

theorem Valid.eq_toNat_iff (h : Valid hour wday) (i j : ℕ) :
    (hour = i ↔ i = hour.toNat) ∧ (wday = j ↔ j = wday.toNat) := by
  unfold Valid at h
  omega

/-- The counts with the event of a call. -/
theorem Invariant.count (h : Invariant tr s) (hvalid : Valid hour wday) (out : Option Bytes) :
    (∀ i : ℕ, i < 24 → (s.count hour.toNat wday.toNat).hourly.C i =
      (sinceUpdate (tr ++ [(.checkHour hour wday, out)])).countP (Event.atHour i)) ∧
    ∀ j ≤ 6, ∀ i : ℕ, i < 24 → ((s.count hour.toNat wday.toNat).weekly j).C i =
      (sinceUpdate (tr ++ [(.checkHour hour wday, out)])).countP (Event.atDay i j) := by
  constructor
  · intro i hi
    obtain ⟨heq, -⟩ := hvalid.eq_toNat_iff i 0
    rw [sinceUpdate_concat_check, countP_append, ← h.hourCount i hi, countP_singleton]
    show increment s.hourly.C hour.toNat i = _
    by_cases hsame : i = hour.toNat
    case pos =>
      have hat : Event.atHour i (.checkHour hour wday, out) = true :=
        decide_eq_true ⟨hvalid, heq.mpr hsame⟩
      rw [if_pos hat, hsame, increment_self]
    case neg =>
      have hat : Event.atHour i (.checkHour hour wday, out) = false :=
        decide_eq_false fun hat => hsame (heq.mp hat.2)
      rw [hat, increment_of_ne _ hsame]
      rfl
  · intro j hj i hi
    obtain ⟨heq, hday⟩ := hvalid.eq_toNat_iff i j
    rw [sinceUpdate_concat_check, countP_append, ← h.dayCount j hj i hi, countP_singleton]
    rw [State.count]
    dsimp only
    by_cases hsame : j = wday.toNat
    case neg =>
      have hat : Event.atDay i j (.checkHour hour wday, out) = false :=
        decide_eq_false fun hat => hsame (hday.mp hat.2.2)
      rw [hat, update_of_ne hsame]
      rfl
    case pos =>
      subst hsame
      rw [update_self]
      dsimp only
      by_cases hsame : i = hour.toNat
      case pos =>
        have hat : Event.atDay i wday.toNat (.checkHour hour wday, out) = true :=
          decide_eq_true ⟨hvalid, heq.mpr hsame, hday.mpr rfl⟩
        rw [if_pos hat, hsame, increment_self]
      case neg =>
        have hat : Event.atDay i wday.toNat (.checkHour hour wday, out) = false :=
          decide_eq_false fun hat => hsame (heq.mp hat.2.1)
        rw [hat, increment_of_ne _ hsame]
        rfl

theorem le_gethour (c : Config) (average : ℕ) : average ≤ c.gethour average := by
  rw [Config.gethour]
  split_ifs <;> exact Nat.le_add_right ..

theorem exceeds_iff : row.Exceeds c i ↔ c.Over (row.C i) (row.R i) := by
  refine ⟨fun h => ⟨h.1, h.2.2⟩, fun h => ⟨h.1, ?_, h.2⟩⟩
  exact (le_gethour c _).trans_lt h.2

theorem Invariant.exceeds_iff (h : Invariant tr s) (hvalid : Valid hour wday) :
    (s.opened hour wday).hourly.Exceeds c hour.toNat ↔ HourOver c tr s hour := by
  obtain ⟨i, rfl⟩ := Int.eq_ofNat_of_zero_le hvalid.1
  have hi : i < 24 := by
    have := hvalid.2.1
    omega
  have hat : Event.atHour i (.checkHour i wday, none) = true := decide_eq_true ⟨hvalid, rfl⟩
  have hcount := (h.count hvalid none).1 i hi
  rw [sinceUpdate_concat_check, countP_append, countP_singleton, if_pos hat] at hcount
  rw [Stats.exceeds_iff, HourOver, ← hcount]
  rfl

theorem Invariant.quiet_iff (h : Invariant tr s) :
    s.Quiet hour ↔ Stats.updates tr < 3 ∨ 3 ≤ (sinceUpdate tr).countP Event.reported ∨
      s.fired = true ∧ s.cignorehour = hour := by
  rw [State.Quiet, h.updates, h.errors]
  exact or_congr_left (Nat.le_iff_lt_add_one)

/-- **A call reports the count of the hour, never that of the weekday.** -/
theorem Invariant.checkHour_eq (h : Invariant tr s) (hvalid : Valid hour wday)
    (hopen : ¬ s.Quiet hour) :
    s.checkHour c hour wday =
      if (s.opened hour wday).hourly.Exceeds c hour.toNat then
        ((s.opened hour wday).fire, some (statsComment hour [] (s.opened hour wday).hourly))
      else (s.opened hour wday, none) := by
  rw [checkHour_of_open hvalid hopen]
  split
  case isTrue hover => exact checkThresholds_of_exceeds hover
  case isFalse hover =>
    refine checkThresholds_of_not_exceeds hover ?_
    show ((s.count hour.toNat wday.toNat).weekly wday.toNat).R 24 ≤ 2
    rw [count_weekly_R, h.weekly]
    exact Nat.zero_le _

/-- What a call that counts an event leaves as it was. -/
theorem Invariant.check (h : Invariant tr s) (hvalid : Valid hour wday) {s' : State}
    (hhourly : s'.hourly = (s.count hour.toNat wday.toNat).hourly)
    (hweekly : s'.weekly = (s.count hour.toNat wday.toNat).weekly)
    (herrors : s'.daily_errors = s.daily_errors + if out.isSome then 1 else 0)
    (hremembered : (stretch hour tr).any Event.reported = true ∨ out.isSome = true →
      s'.fired = true ∧ s'.cignorehour = hour) :
    Invariant (tr ++ [(.checkHour hour wday, out)]) s' where
  updates := by rw [updates_concat_check, hhourly, count_hourly_R, h.updates]
  weekly := by
    intro i
    rw [hweekly, count_weekly_R, h.weekly]
  errors := by
    rw [sinceUpdate_concat_check, countP_append, ← h.errors, herrors, countP_singleton]
    rfl
  hourCount := by
    rw [hhourly]
    exact (h.count hvalid out).1
  dayCount := by
    rw [hweekly]
    exact (h.count hvalid out).2
  remembered := by
    intro i hreport
    by_cases hsame : hour = i
    case pos =>
      subst hsame
      rw [stretch_concat_self hvalid, any_append, Bool.or_eq_true] at hreport
      exact hremembered (hreport.imp_right fun hout => by simpa [Event.reported] using hout)
    case neg =>
      rw [stretch_concat_of_ne hvalid hsame] at hreport
      cases hreport

theorem Invariant.step (tr : List Event) (s : State) (e : Event) (s' : State)
    (h : Invariant tr s) (hstep : Step c s e s') : Invariant (tr ++ [e]) s' := by
  obtain ⟨call, out⟩ := e
  cases call with
  | updateHour =>
    cases hstep
    exact h.updateHour
  | checkHour hour wday =>
    have heq : s.checkHour c hour wday = (s', out) := hstep
    by_cases hvalid : Valid hour wday
    case neg =>
      rw [checkHour_of_not_valid hvalid] at heq
      cases heq
      exact h.check_not_valid hvalid
    by_cases hquiet : s.Quiet hour
    case pos =>
      rw [checkHour_of_quiet hvalid hquiet] at heq
      cases heq
      refine h.check hvalid rfl rfl rfl fun hreport => ?_
      exact h.remembered hour (hreport.resolve_right (by simp))
    case neg =>
      -- the remembered hour is another one, so that nothing was reported in the stretch
      have hstretch : ¬ (stretch hour tr).any Event.reported = true := fun hreport =>
        hquiet (.inr (.inr (h.remembered hour hreport)))
      rw [h.checkHour_eq hvalid hquiet] at heq
      split at heq
      case isTrue =>
        cases heq
        exact h.check hvalid rfl rfl rfl fun _ => ⟨rfl, rfl⟩
      case isFalse =>
        cases heq
        exact h.check hvalid rfl rfl rfl fun hreport =>
          absurd (hreport.resolve_right (by simp)) hstretch

/-- A report is missed: only the count of the weekday is too high, or the count of the hour is,
while the last report, of an earlier stretch of the hour, is still remembered. -/
def Missed (c : Config) (tr : List Event) (s : State) (hour wday : ℤ) : Prop :=
  MayReport tr hour wday ∧
    (DayOver c tr s hour wday ∧ ¬ HourOver c tr s hour ∨
      (s.fired = true ∧ s.cignorehour = hour) ∧ HourOver c tr s hour)

/-- When a call reports an event. -/
theorem Invariant.reports_iff (h : Invariant tr s) :
    (s.checkHour c hour wday).2.isSome = true ↔
      Valid hour wday ∧ ¬ s.Quiet hour ∧ HourOver c tr s hour := by
  by_cases hvalid : Valid hour wday
  case neg =>
    rw [checkHour_of_not_valid hvalid]
    simp [hvalid]
  by_cases hquiet : s.Quiet hour
  case pos =>
    rw [checkHour_of_quiet hvalid hquiet]
    simp [hquiet]
  case neg =>
    rw [h.checkHour_eq hvalid hquiet, ← h.exceeds_iff hvalid]
    split
    case isTrue hover => exact ⟨fun _ => ⟨hvalid, hquiet, hover⟩, fun _ => rfl⟩
    case isFalse hover => exact ⟨fun h => absurd h (by simp), fun h => absurd h.2.2 hover⟩

/-- **When `Check_Hour` answers as it is to**, in every run of calls from the start: it does so
unless a report is missed, for the weekday or in a later stretch of an hour. -/
theorem checkHour_law (hrun : Run (Step c) State.start tr s) (hour wday : ℤ) :
    ((s.checkHour c hour wday).2.isSome = true ↔ MustReport c tr s hour wday) ↔
      ¬ Missed c tr s hour wday := by
  have h : Invariant tr s := hrun.history Invariant.step invariant_start
  rw [h.reports_iff]
  by_cases hmay : MayReport tr hour wday
  · -- only the memory of an earlier stretch can still keep the call quiet
    obtain ⟨hvalid, hupdates, hopen⟩ := hmay
    rw [Suppressed, not_or] at hopen
    have hquiet : s.Quiet hour ↔ s.fired = true ∧ s.cignorehour = hour := by
      rw [h.quiet_iff, or_iff_right (Nat.not_lt.mpr hupdates), or_iff_right hopen.1]
    have hmay : MayReport tr hour wday := ⟨hvalid, hupdates, not_or.mpr hopen⟩
    rw [and_iff_right hvalid, hquiet, MustReport, Missed, and_iff_right hmay, and_iff_right hmay]
    by_cases hhour : HourOver c tr s hour
    · simp [hhour]
    · simp [hhour]
  · -- a call that may not report does not
    have hsilent : ¬ (Valid hour wday ∧ ¬ s.Quiet hour ∧ HourOver c tr s hour) := by
      rintro ⟨hvalid, hopen, -⟩
      rw [h.quiet_iff, not_or, not_or, Nat.not_lt] at hopen
      refine hmay ⟨hvalid, hopen.1, not_or.mpr ⟨hopen.2.1, fun hreport => ?_⟩⟩
      exact hopen.2.2 (h.remembered hour hreport)
    simp only [MustReport, Missed, hmay, hsilent, false_and, not_false_eq_true]

/-- An hour that was learned from two events of a day, and 31 events of the first day since. -/
def learnedHistory (wday wday' : ℤ) : List Call :=
  [.checkHour 5 wday, .checkHour 5 wday', .updateHour, .updateHour, .updateHour] ++
    List.replicate 31 (.checkHour 5 wday)

set_option maxRecDepth 4000 in
/-- The events were on a Sunday and on a Monday: the next one of the Sunday is its 32nd, where the
average is 21. -/
theorem not_reports_sunday :
    ¬ ∀ (c : Config) (tr : List Event) (s : State) (hour wday : ℤ),
      Run (Step c) State.start tr s →
        ((s.checkHour c hour wday).2.isSome = true ↔ MustReport c tr s hour wday) := by
  intro hall
  have hrun := run_outputs (State.call ⟨999000, 10, 20⟩) State.start (learnedHistory 0 1)
  have hreports := (hall _ _ _ 5 0 hrun).mpr (by decide)
  exact absurd hreports (by decide)

set_option maxRecDepth 4000 in
/-- The events were all on a Sunday, and the average of the hour is 22 as that of the day: one
event more is not reported, and is not to be. -/
theorem checkHour_law_sunday :
    ∃ (tr : List Event) (s : State), Run (Step ⟨999000, 10, 20⟩) State.start tr s ∧
      ¬ MustReport ⟨999000, 10, 20⟩ tr s 5 0 ∧ ¬ Missed ⟨999000, 10, 20⟩ tr s 5 0 := by
  have hrun := run_outputs (State.call ⟨999000, 10, 20⟩) State.start (learnedHistory 0 0)
  refine ⟨_, _, hrun, by decide, (checkHour_law hrun 5 0).mp ?_⟩
  decide

end Stats
