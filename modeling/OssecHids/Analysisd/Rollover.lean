import Mathlib.Data.List.Chain
import OssecHids.Lib.CString

/-!
# The hour rollover

`analysisd_handle_hour_rollover`: the position of the daemon in time, and with it the daily file that
events are logged in, follows the events. The function `localtime` and the wall clock are
parameters.

- `position_of_chain`: where the position is that of the event just handled;
- `rollover_law`: and where an older event leaves it.
-/

open CString List

/-- What the daemon uses of a `struct tm`, with the month by its name. -/
structure Tm where
  hour : ℕ
  mday : ℕ
  mon : Bytes
  year : ℕ
  deriving DecidableEq, Repr

/-- The date in the name of a daily file. -/
structure LogDate where
  day : ℕ
  mon : Bytes
  year : ℕ
  deriving DecidableEq, Repr

def Tm.date (p : Tm) : LogDate := { day := p.mday, mon := p.mon, year := p.year }

/-- The globals `thishour`, `today`, `prev_month` and `prev_year`, the two static variables of the
function, and the date that `OS_GetLogLocation` has opened the files of. -/
structure Rollover where
  thishour : ℕ
  today : ℕ
  prev_month : Bytes
  prev_year : ℕ
  last_rollover_event : ℕ := 0
  last_rollover_wall : ℕ := 0
  location : LogDate
  deriving DecidableEq, Repr

/-- A call: the time of the event, and the wall clock. -/
structure RolloverCall where
  time : ℕ
  now : ℕ
  deriving DecidableEq, Repr

namespace Rollover

/-- The position as one value. -/
def position (s : Rollover) : Tm :=
  { hour := s.thishour, mday := s.today, mon := s.prev_month, year := s.prev_year }

variable (localtime : ℕ → Tm)

/-- `Start_Hour`, and the first `OS_GetLogLocation`. -/
def startHour (c_time : ℕ) : Rollover where
  thishour := (localtime c_time).hour
  today := (localtime c_time).mday
  prev_month := (localtime c_time).mon
  prev_year := (localtime c_time).year
  location := (localtime c_time).date

/-- `analysisd_handle_hour_rollover`, for an event at `time` with the date `lf` and the hour
`crt_hour`. -/
def handle (s : Rollover) (time : ℕ) (lf : LogDate) (crt_hour now : ℕ) : Rollover :=
  if s.thishour ≠ crt_hour ∧
      (time ≥ s.last_rollover_event ∨
        s.last_rollover_wall > 0 ∧ now + 60 < s.last_rollover_wall) then
    let s := { s with
      last_rollover_event := if time ≤ now then time else now
      last_rollover_wall := now
      thishour := crt_hour }
    if s.today ≠ lf.day then
      { s with location := lf, today := lf.day, prev_month := lf.mon, prev_year := lf.year }
    else s
  else s

/-- The call for an event: its date has been set by `OS_CleanMSG` and the present hour by
`analysisd_set_time_context`, both from its time. -/
def analysisdHandleHourRollover (s : Rollover) (c : RolloverCall) : Rollover :=
  s.handle c.time (localtime c.time).date (localtime c.time).hour c.now

/-- The state after the first `k` calls. -/
def after (t₀ : ℕ) (calls : List RolloverCall) (k : ℕ) : Rollover :=
  (calls.take k).foldl (analysisdHandleHourRollover localtime) (startHour localtime t₀)

/-- The next event is not older, and if its date is another one, so are its hour and its day of the
month. -/
def Follows (t t' : ℕ) : Prop :=
  t ≤ t' ∧ ((localtime t').date = (localtime t).date ∨
    (localtime t').hour ≠ (localtime t).hour ∧ (localtime t').mday ≠ (localtime t).mday)

instance : DecidableRel (Follows localtime) := fun _ _ => inferInstanceAs (Decidable (_ ∧ _))

variable {localtime} {s : Rollover} {t t₀ : ℕ} {c : RolloverCall} {calls : List RolloverCall}

/-- The position and the files are those of an event at time `t`, which came not before the last
rollover. -/
structure At (localtime : ℕ → Tm) (t : ℕ) (s : Rollover) : Prop where
  position : s.position = localtime t
  location : s.location = (localtime t).date
  last_rollover_event : s.last_rollover_event ≤ t

theorem at_startHour (t₀ : ℕ) : At localtime t₀ (startHour localtime t₀) := ⟨rfl, rfl, Nat.zero_le _⟩

theorem stored_eq_min (time now : ℕ) : (if time ≤ now then time else now) = min time now := rfl

/-- The state after an event that does not come before the last rollover. -/
theorem handle_of_le (hle : s.last_rollover_event ≤ c.time) :
    s.analysisdHandleHourRollover localtime c =
      if s.thishour = (localtime c.time).hour then s
      else if s.today = (localtime c.time).mday then
        { s with
          last_rollover_event := min c.time c.now
          last_rollover_wall := c.now
          thishour := (localtime c.time).hour }
      else {
        thishour := (localtime c.time).hour
        today := (localtime c.time).mday
        prev_month := (localtime c.time).mon
        prev_year := (localtime c.time).year
        last_rollover_event := min c.time c.now
        last_rollover_wall := c.now
        location := (localtime c.time).date } := by
  rw [analysisdHandleHourRollover, handle, stored_eq_min]
  by_cases hhour : s.thishour = (localtime c.time).hour
  · rw [if_pos hhour, if_neg fun h => h.1 hhour]
  · rw [if_neg hhour, if_pos ⟨hhour, .inl hle⟩]
    by_cases hday : s.today = (localtime c.time).mday
    · rw [if_pos hday]
      exact if_neg fun h => h hday
    · rw [if_neg hday]
      exact if_pos hday

theorem tm_eq_iff {p q : Tm} : p = q ↔ p.hour = q.hour ∧ p.date = q.date := by
  obtain ⟨hour, mday, mon, year⟩ := p
  obtain ⟨hour', mday', mon', year'⟩ := q
  simp only [Tm.mk.injEq, Tm.date, LogDate.mk.injEq]

/-- After an event that is not older the position and the files are those of the event, exactly if
the event follows the one before it. -/
theorem At.handle_iff (hs : At localtime t s) (hle : t ≤ c.time) :
    At localtime c.time (s.analysisdHandleHourRollover localtime c) ↔
      Follows localtime t c.time := by
  have hposition := hs.position
  have hthishour : s.thishour = (localtime t).hour := congrArg Tm.hour hposition
  have htoday : s.today = (localtime t).mday := congrArg Tm.mday hposition
  rw [handle_of_le (hs.last_rollover_event.trans hle), Follows, and_iff_right hle]
  split_ifs with hhour hday
  case pos =>
    rw [hthishour] at hhour
    -- nothing happens, which is right if the date has not changed either
    constructor
    · intro h
      exact .inl (h.location.symm.trans hs.location)
    · intro h
      have hdate := h.resolve_right fun h => h.1 hhour.symm
      have htm : localtime t = localtime c.time := tm_eq_iff.mpr ⟨hhour, hdate.symm⟩
      exact ⟨hposition.trans htm, hs.location.trans hdate.symm, hs.last_rollover_event.trans hle⟩
  case pos =>
    rw [htoday] at hday
    -- only the hour is set
    constructor
    · intro h
      exact .inl (h.location.symm.trans hs.location)
    · intro h
      have hdate := h.resolve_right fun h => h.2 hday.symm
      refine ⟨tm_eq_iff.mpr ⟨rfl, ?_⟩, hs.location.trans hdate.symm, min_le_left c.time c.now⟩
      exact (congrArg Tm.date hposition).trans hdate.symm
  case neg =>
    rw [hthishour] at hhour
    rw [htoday] at hday
    constructor
    · exact fun _ => .inr ⟨Ne.symm hhour, Ne.symm hday⟩
    · exact fun _ => ⟨rfl, rfl, min_le_left c.time c.now⟩

/-- The last event of the calls, or the start. -/
def lastTime (t₀ : ℕ) (calls : List RolloverCall) : ℕ := (calls.map RolloverCall.time).getLastD t₀

theorem at_foldl (hs : At localtime t s)
    (hcalls : List.IsChain (Follows localtime) (t :: calls.map RolloverCall.time)) :
    At localtime (lastTime t calls)
      (calls.foldl (analysisdHandleHourRollover localtime) s) := by
  induction calls generalizing t s with
  | nil => exact hs
  | cons c calls ih =>
    rw [map_cons, isChain_cons_cons] at hcalls
    obtain ⟨hc, hcalls⟩ := hcalls
    have hstep : At localtime c.time (s.analysisdHandleHourRollover localtime c) :=
      (hs.handle_iff hc.1).mpr hc
    have hlast : lastTime t (c :: calls) = lastTime c.time calls := by
      rw [lastTime, lastTime, map_cons, getLastD_cons]
    rw [foldl_cons, hlast]
    exact ih hstep hcalls

/-- After every call the position and the files are those of the event just handled. -/
theorem at_after (hcalls : List.IsChain (Follows localtime) (t₀ :: calls.map RolloverCall.time))
    {k : ℕ} (hk : k < calls.length) :
    At localtime calls[k].time (after localtime t₀ calls (k + 1)) := by
  have htake : List.IsChain (Follows localtime)
      (t₀ :: (calls.take (k + 1)).map RolloverCall.time) := by
    have h := hcalls.take (k + 2)
    rwa [take_succ_cons, ← map_take] at h
  have hlast : lastTime t₀ (calls.take (k + 1)) = calls[k].time := by
    rw [lastTime, take_succ_eq_append_getElem hk, map_append, map_singleton, getLastD_concat]
  have h := at_foldl (at_startHour t₀) htake
  rwa [hlast] at h

/-- The stored time is that of an event that has set the hour, or the wall clock then if that was
earlier. -/
structure Rolled (localtime : ℕ → Tm) (s : Rollover) (c : RolloverCall) : Prop where
  thishour : s.thishour = (localtime c.time).hour
  last_rollover_event : s.last_rollover_event = min c.time c.now
  last_rollover_wall : s.last_rollover_wall = c.now

theorem handle_cases : s.analysisdHandleHourRollover localtime c = s ∨
    Rolled localtime (s.analysisdHandleHourRollover localtime c) c := by
  rw [analysisdHandleHourRollover, handle]
  split
  case isTrue =>
    refine .inr ?_
    rw [stored_eq_min]
    dsimp only
    split
    · exact ⟨rfl, rfl, rfl⟩
    · exact ⟨rfl, rfl, rfl⟩
  case isFalse => exact .inl rfl

theorem foldl_cases : calls.foldl (analysisdHandleHourRollover localtime) s = s ∨
    ∃ c ∈ calls, Rolled localtime (calls.foldl (analysisdHandleHourRollover localtime) s) c := by
  induction calls generalizing s with
  | nil => exact .inl rfl
  | cons c calls ih =>
    rw [foldl_cons]
    rcases ih (s := s.analysisdHandleHourRollover localtime c) with h | ⟨c', hc', h⟩
    · rw [h]
      exact handle_cases.imp_right fun h => ⟨c, mem_cons_self, h⟩
    · exact .inr ⟨c', mem_cons_of_mem c hc', h⟩

/-- An event from before the last rollover is not followed, unless the clock has been set back. -/
theorem handle_of_lt (hlt : c.time < s.last_rollover_event)
    (hclock : s.last_rollover_wall ≤ c.now + 60) : s.analysisdHandleHourRollover localtime c = s := by
  rw [analysisdHandleHourRollover, handle, if_neg]
  rintro ⟨-, h⟩
  omega

/-- Rollover law, part 1: in a run of events each of which follows the one before it, the position
is that of the event just handled, and two events go to the same daily file exactly if they have the
same date. Part 2: in every run, an event older than the one of the last rollover (or than the wall
clock at that rollover) leaves the position as it is, unless the wall clock has been set back by more
than a minute since. -/
theorem rollover_law {localtime : ℕ → Tm} {t₀ : ℕ} {calls : List RolloverCall}
    (hcalls : List.IsChain (Follows localtime) (t₀ :: calls.map RolloverCall.time)) :
    (∀ k (hk : k < calls.length),
      (after localtime t₀ calls (k + 1)).position = localtime calls[k].time) ∧
    (∀ i j (hi : i < calls.length) (hj : j < calls.length),
      (after localtime t₀ calls (i + 1)).location = (after localtime t₀ calls (j + 1)).location ↔
        (localtime calls[i].time).date = (localtime calls[j].time).date) ∧
    ∀ t₀ (calls : List RolloverCall) (s : Rollover),
      s = calls.foldl (analysisdHandleHourRollover localtime) (startHour localtime t₀) →
        s = startHour localtime t₀ ∨ ∃ r ∈ calls, Rolled localtime s r ∧
          ∀ c : RolloverCall, c.time < min r.time r.now → r.now ≤ c.now + 60 →
            s.analysisdHandleHourRollover localtime c = s := by
  refine ⟨fun k hk => (at_after hcalls hk).position, fun i j hi hj => ?_, fun t₀ calls s hs => ?_⟩
  · rw [(at_after hcalls hi).location, (at_after hcalls hj).location]
  · have hcases : calls.foldl (analysisdHandleHourRollover localtime) (startHour localtime t₀) =
          startHour localtime t₀ ∨
        ∃ c ∈ calls, Rolled localtime
          (calls.foldl (analysisdHandleHourRollover localtime) (startHour localtime t₀)) c :=
      foldl_cases
    rcases hcases with h | ⟨r, hr, h⟩
    · exact .inl (hs.trans h)
    · rw [← hs] at h
      refine .inr ⟨r, hr, h, fun c hlt hclock => ?_⟩
      rw [← h.last_rollover_event] at hlt
      rw [← h.last_rollover_wall] at hclock
      exact handle_of_lt hlt hclock

/-- The first days of an era, in universal time. -/
def utc (t : ℕ) : Tm where
  hour := t / 3600 % 24
  mday := t / 86400 + 1
  mon := [chr 'J', chr 'a', chr 'n']
  year := 1970

/-- An event of the first hour, and one of the third hour of the next day. -/
theorem rollover_law_next_day :
    (after utc 0 [⟨60, 60⟩, ⟨93600, 93600⟩] 2).position = utc 93600 ∧
      (after utc 0 [⟨60, 60⟩, ⟨93600, 93600⟩] 1).location ≠
        (after utc 0 [⟨60, 60⟩, ⟨93600, 93600⟩] 2).location := by
  have hcalls : List.IsChain (Follows utc)
      (0 :: ([⟨60, 60⟩, ⟨93600, 93600⟩] : List RolloverCall).map RolloverCall.time) := by decide
  have hlaw := rollover_law hcalls
  refine ⟨hlaw.1 1 (by decide), fun h => ?_⟩
  exact absurd ((hlaw.2.1 0 1 (by decide) (by decide)).mp h) (by decide)

/-- An event exactly one day later does not move the position, and an older one moves it back after
the clock has been set back. -/
theorem not_rollover_law :
    (¬ ∀ localtime t₀ calls, List.IsChain (· ≤ ·) (t₀ :: calls.map RolloverCall.time) →
      ∀ k (hk : k < calls.length),
        (after localtime t₀ calls (k + 1)).position = localtime calls[k].time) ∧
    ¬ ∀ localtime t₀ (calls : List RolloverCall) (s : Rollover) (c : RolloverCall),
      s = calls.foldl (analysisdHandleHourRollover localtime) (startHour localtime t₀) →
      c.time < s.last_rollover_event → s.analysisdHandleHourRollover localtime c = s := by
  constructor
  · intro h
    exact absurd (h utc 0 [⟨86400, 86400⟩] (by decide) 0 (by decide)) (by decide)
  · intro h
    exact absurd (h utc 0 [⟨36000, 36000⟩] _ ⟨7200, 7200⟩ rfl (by decide)) (by decide)

end Rollover
