import OssecHids.Shared.ValidateIP

/-!
# Time ranges

`OS_IsValidTime` reads a time range and writes it as a string of its own, which `OS_IsonTime`
compares times with. A pointer into a string is the list of the bytes from it to the zero byte at
the end; reading behind that byte makes the result `none`.

- `strncmp_clock`: times are compared as their texts are;
- `isonTime_iff`: which ranges `OS_IsonTime` answers rightly.
-/

open CString List

namespace CString

/-- `strncmp(s, t, n)`: the difference of the first two bytes that are not the same. -/
def strncmp : ℕ → Bytes → Bytes → ℤ
  | 0, _, _ => 0
  | n + 1, s, t =>
    if s.headD 0 ≠ t.headD 0 then (s.headD 0).toNat - (t.headD 0).toNat
    else if s.headD 0 = 0 then 0
    else strncmp n s.tail t.tail

theorem strncmp_cons (n : ℕ) (b c : UInt8) (s t : Bytes) :
    strncmp (n + 1) (b :: s) (c :: t) =
      if b ≠ c then (b.toNat : ℤ) - c.toNat else if b = 0 then 0 else strncmp n s t := rfl

/-- `strcmp(s, t)` -/
def strcmp (s t : Bytes) : ℤ := strncmp (s.length + 1) s t

/-- The conversion `%0wd` of `printf`. -/
def fmtD0 (w : ℕ) (i : ℤ) : Bytes :=
  if i < 0 then chr '-' :: fmtU0 (w - 1) i.natAbs else fmtU0 w i.natAbs

end CString

namespace ValidateOp

/-! ## The code -/

/-- `RM_WHITE` -/
def rmWhite : Bytes → Option Bytes
  | [] => none
  | b :: x => if b = chr ' ' then rmWhite x else some (b :: x)

/-- `snprintf(ossec_hour, 6, "%02d:%02d", chour, cmin)` -/
def ossecHour (chour cmin : ℤ) : Bytes := snprintf 6 (fmtD0 2 chour ++ chr ':' :: fmtD0 2 cmin)

/-- The test of the two digits of a minute. -/
def invalidMinute (str : Bytes) : Option Bool :=
  str[0]?.bind fun first =>
    (if isDigit first then str[1]?.map fun second => !isDigit second else some true).bind fun odd =>
      if odd then str[2]?.map isDigit else some false

/-- The part of `__gethour` that gets the minute. -/
def getMinute : Bytes → Option (Option (ℤ × Bytes))
  | [] => none
  | b :: str =>
    if b = chr ':' then
      (invalidMinute str).map fun invalid =>
        if invalid then none else some (atoi str, str.drop 2)
    else some (some (0, b :: str))

/-- The part of `__gethour` behind the spaces. -/
def getHalf (chour cmin : ℤ) : Bytes → Option (Option (Bytes × Bytes))
  | [] => none
  | b :: str =>
    if b = chr 'a' ∨ b = chr 'A' then
      match str with
      | [] => none
      | m :: str =>
        if m = chr 'm' ∨ m = chr 'M' then some (some (str, ossecHour chour cmin)) else some none
    else if b = chr 'p' ∨ b = chr 'P' then
      match str with
      | [] => none
      | m :: str =>
        if m = chr 'm' ∨ m = chr 'M' then
          let chour := if chour ≠ 12 then chour + 12 else chour
          -- New hour must be valid
          if chour < 0 ∨ 24 ≤ chour then some none
          else some (some (str, ossecHour chour cmin))
        else some none
    else some (some (b :: str, ossecHour chour cmin))

/-- The part of `__gethour` behind the minute. -/
def behindMinute (chour : ℤ) : Option (ℤ × Bytes) → Option (Option (Bytes × Bytes))
  | none => some none
  | some (cmin, str) => (rmWhite str).bind fun str => getHalf chour cmin str

/-- `__gethour`: the rest of the string and the hour. -/
def getHour (str : Bytes) : Option (Option (Bytes × Bytes)) :=
  -- a string that does not begin with a digit is only logged
  let chour := atoi str
  if str = [] then none
  else if chour < 0 ∨ 24 ≤ chour then some none
  else if 2 < (str.takeWhile isDigit).length then some none
  else (getMinute (str.dropWhile isDigit)).bind (behindMinute chour)

/-- The part of `OS_IsValidTime` behind the second hour. -/
def behindSecond (ng : Bool) (first_hour : Bytes) :
    Option (Bytes × Bytes) → Option (Option (Bool × Bytes × Bytes))
  | none => some none
  | some (time_str, second_hour) =>
    (rmWhite time_str).bind fun time_str =>
      if time_str.headD 0 ≠ 0 then some none else some (some (ng, first_hour, second_hour))

/-- The part of `OS_IsValidTime` behind the first hour. -/
def behindFirst (ng : Bool) : Option (Bytes × Bytes) → Option (Option (Bool × Bytes × Bytes))
  | none => some none
  | some (time_str, first_hour) =>
    (rmWhite time_str).bind fun time_str =>
      if time_str.headD 0 ≠ chr '-' then some none
      else
        (rmWhite (time_str.drop 1)).bind fun time_str =>
          (getHour time_str).bind (behindSecond ng first_hour)

/-- What `OS_IsValidTime` reads: whether the range is negated, and its hours. -/
def readTimes (time_str : Bytes) : Option (Option (Bool × Bytes × Bytes)) :=
  (rmWhite (time_str ++ [(0 : UInt8)])).bind fun time_str =>
    let ng := time_str.headD 0 == chr '!'
    (if ng then rmWhite (time_str.drop 1) else some time_str).bind fun time_str =>
      (getHour time_str).bind (behindFirst ng)

/-- The string that `OS_IsValidTime` returns. -/
def ossecTime (ng : Bool) (first_hour second_hour : Bytes) : Bytes :=
  if 0 < strcmp first_hour second_hour then
    snprintf 12 (chr '!' :: second_hour ++ first_hour)
  else snprintf 12 ((if ng then chr '!' else chr '.') :: first_hour ++ second_hour)

/-- `OS_IsValidTime` -/
def osIsValidTime (time_str : Bytes) : Option (Option Bytes) :=
  (readTimes time_str).map fun times =>
    times.map fun (ng, first_hour, second_hour) => ossecTime ng first_hour second_hour

/-- `OS_IsonTime` -/
def osIsonTime (time_str ossec_time : Bytes) : Bool :=
  let _true := ossec_time.headD 0 != chr '!'
  let ossec_time := ossec_time.drop 1
  if 0 ≤ strncmp 5 time_str ossec_time ∧ strncmp 5 time_str (ossec_time.drop 5) ≤ 0 then _true
  else !_true

example : osIsValidTime (lit "!10:30 pm - 5") = some (some (lit "!05:0022:30")) := by decide

/-! ## Times of the day -/

/-- A minute of the day, as `HH:MM`. -/
def clock (m : ℕ) : Bytes := fmtU0 2 (m / 60) ++ chr ':' :: fmtU0 2 (m % 60)

/-- What a range with two end points says of a time. -/
def OnTime (ng : Bool) (a b t : ℕ) : Prop :=
  if ng then ¬ (if a ≤ b then a ≤ t ∧ t ≤ b else a ≤ t ∨ t ≤ b)
  else if a ≤ b then a ≤ t ∧ t ≤ b else a ≤ t ∨ t ≤ b

instance (ng : Bool) (a b t : ℕ) : Decidable (OnTime ng a b t) :=
  inferInstanceAs (Decidable (if ng then ¬ (if a ≤ b then a ≤ t ∧ t ≤ b else a ≤ t ∨ t ≤ b)
    else if a ≤ b then a ≤ t ∧ t ≤ b else a ≤ t ∨ t ≤ b))

section Clock

variable {a b t : ℕ}

theorem fmtU0_two {n : ℕ} (hn : n < 100) :
    fmtU0 2 n = [UInt8.ofNat (48 + n / 10), UInt8.ofNat (48 + n % 10)] := by
  have hall : ∀ n < 100, fmtU0 2 n = [UInt8.ofNat (48 + n / 10), UInt8.ofNat (48 + n % 10)] := by
    decide
  exact hall n hn

theorem clock_eq (ht : t < 1440) :
    clock t = [UInt8.ofNat (48 + t / 600), UInt8.ofNat (48 + t / 60 % 10), chr ':',
      UInt8.ofNat (48 + t % 60 / 10), UInt8.ofNat (48 + t % 10)] := by
  have hlow : t % 60 % 10 = t % 10 := by omega
  have hhigh : t / 60 / 10 = t / 600 := by omega
  rw [clock, fmtU0_two (by omega), fmtU0_two (by omega), hlow, hhigh]
  rfl

theorem length_clock (ht : t < 1440) : (clock t).length = 5 := by
  rw [clock_eq ht]
  rfl

theorem toNat_digit {n : ℕ} (hn : n < 10) : (UInt8.ofNat (48 + n)).toNat = 48 + n := by
  rw [UInt8.toNat_ofNat']
  omega

theorem strncmp_digit {m n k : ℕ} (hm : m < 10) (hn : n < 10) (s t : Bytes) :
    strncmp (k + 1) (UInt8.ofNat (48 + m) :: s) (UInt8.ofNat (48 + n) :: t) =
      if m = n then strncmp k s t else (m : ℤ) - n := by
  have hinj : UInt8.ofNat (48 + m) = UInt8.ofNat (48 + n) ↔ m = n := by
    rw [← UInt8.toNat_inj, toNat_digit hm, toNat_digit hn]
    exact Nat.add_left_cancel_iff
  have hzero : UInt8.ofNat (48 + m) ≠ 0 := by
    rw [Ne, ← UInt8.toNat_inj, toNat_digit hm]
    exact Nat.succ_ne_zero _ ∘ (add_comm 48 m ▸ ·)
  rw [strncmp_cons]
  by_cases hmn : m = n
  · rw [if_neg (not_not.mpr (hinj.mpr hmn)), if_neg hzero, if_pos hmn]
  · rw [if_pos (fun h => hmn (hinj.mp h)), if_neg hmn, toNat_digit hm, toNat_digit hn]
    omega

theorem strncmp_colon {k : ℕ} (s t : Bytes) :
    strncmp (k + 1) (chr ':' :: s) (chr ':' :: t) = strncmp k s t := by
  have hzero : chr ':' ≠ 0 := by decide
  rw [strncmp_cons, if_neg (not_not.mpr rfl), if_neg hzero]

theorem strncmp_clock (ha : a < 1440) (hb : b < 1440) (k : ℕ) (r r' : Bytes) :
    (a = b → strncmp (k + 5) (clock a ++ r) (clock b ++ r') = strncmp k r r') ∧
    (a < b → strncmp (k + 5) (clock a ++ r) (clock b ++ r') < 0) ∧
    (b < a → 0 < strncmp (k + 5) (clock a ++ r) (clock b ++ r')) := by
  rw [clock_eq ha, clock_eq hb]
  simp only [cons_append, nil_append]
  rw [strncmp_digit (by omega) (by omega), strncmp_digit (by omega) (by omega), strncmp_colon,
    strncmp_digit (by omega) (by omega), strncmp_digit (by omega) (by omega)]
  -- the first digits that are not the same decide
  split_ifs <;> omega

theorem strcmp_clock (ha : a < 1440) (hb : b < 1440) :
    0 < strcmp (clock a) (clock b) ↔ b < a := by
  have hcompare := strncmp_clock ha hb 1 [] []
  have hend : strncmp 1 [] [] = 0 := rfl
  rw [append_nil, append_nil, hend] at hcompare
  rw [strcmp, length_clock ha]
  show 0 < strncmp (1 + 5) _ _ ↔ _
  omega

/-- The string of a range whose end points are times of the day. -/
theorem ossecTime_clock (ng : Bool) (ha : a < 1440) (hb : b < 1440) :
    ossecTime ng (clock a) (clock b) =
      if b < a then chr '!' :: (clock b ++ clock a)
      else (if ng then chr '!' else chr '.') :: (clock a ++ clock b) := by
  have hsnprintf : ∀ c s t, s.length = 5 → t.length = 5 →
      snprintf 12 (c :: s ++ t) = c :: (s ++ t) := by
    intro c s t hs ht
    apply take_of_length_le
    rw [length_append, length_cons, hs, ht]
  rw [ossecTime]
  by_cases hab : b < a
  · rw [if_pos ((strcmp_clock ha hb).mpr hab), if_pos hab]
    exact hsnprintf _ _ _ (length_clock hb) (length_clock ha)
  · rw [if_neg (fun h => hab ((strcmp_clock ha hb).mp h)), if_neg hab]
    exact hsnprintf _ _ _ (length_clock ha) (length_clock hb)

/-- What a string with two times of the day answers. -/
theorem osIsonTime_clock (c : UInt8) (rest : Bytes) (ha : a < 1440) (hb : b < 1440) (ht : t < 1440) :
    osIsonTime (clock t ++ rest) (c :: (clock a ++ clock b)) =
      if a ≤ t ∧ t ≤ b then c != chr '!' else c == chr '!' := by
  have hdrop : (clock a ++ clock b).drop 5 = clock b ++ [] := by
    rw [← length_clock ha, drop_left, append_nil]
  have hlow := strncmp_clock ht ha 0 rest (clock b)
  have hhigh := strncmp_clock ht hb 0 rest []
  have hcode : osIsonTime (clock t ++ rest) (c :: (clock a ++ clock b)) =
      if 0 ≤ strncmp 5 (clock t ++ rest) (clock a ++ clock b) ∧
        strncmp 5 (clock t ++ rest) ((clock a ++ clock b).drop 5) ≤ 0 then c != chr '!'
      else !(c != chr '!') := rfl
  have hzero : ∀ r r' : Bytes, strncmp 0 r r' = 0 := fun _ _ => rfl
  rw [zero_add, hzero] at hlow hhigh
  have hin : 0 ≤ strncmp 5 (clock t ++ rest) (clock a ++ clock b) ∧
      strncmp 5 (clock t ++ rest) (clock b ++ []) ≤ 0 ↔ a ≤ t ∧ t ≤ b := by
    omega
  rw [hcode, hdrop, if_congr hin rfl rfl]
  split_ifs
  · rfl
  · cases h : c == chr '!' <;> simp [bne, h]

end Clock

/-- For every range that is accepted with two times of the day, and every time of the day, the
answer is that of the range if and only if the range does not cross midnight, or the time is none of
its end points (when it is not negated) or one of them (when it is). -/
theorem onTime_iff {time_str rest : Bytes} {ng : Bool} {a b t : ℕ} (ha : a < 1440) (hb : b < 1440)
    (ht : t < 1440) (hread : readTimes time_str = some (some (ng, clock a, clock b))) :
    ∃ ossec_time, osIsValidTime time_str = some (some ossec_time) ∧
      ((osIsonTime (clock t ++ rest) ossec_time = true ↔ OnTime ng a b t) ↔
        a ≤ b ∨ if ng then t = a ∨ t = b else t ≠ a ∧ t ≠ b) := by
  refine ⟨ossecTime ng (clock a) (clock b), by rw [osIsValidTime, hread]; rfl, ?_⟩
  rw [ossecTime_clock ng ha hb, OnTime]
  have hbang : (chr '!' != chr '!') = false ∧ (chr '.' != chr '!') = true := by decide
  by_cases hab : b < a
  · -- the end points are swapped, and the polarity is lost
    rw [if_pos hab, osIsonTime_clock _ _ hb ha ht, if_neg (Nat.not_le.mpr hab)]
    cases ng <;> split_ifs <;> simp <;> omega
  · rw [if_neg hab, osIsonTime_clock _ _ ha hb ht, if_pos (Nat.not_lt.mp hab)]
    refine iff_of_true ?_ (.inl (Nat.not_lt.mp hab))
    cases ng <;> split_ifs <;> simp_all

/-- A negated night, at its end. -/
theorem onTime_iff_night :
    ∃ ossec_time, osIsValidTime (lit "!22:00 - 6 am") = some (some ossec_time) ∧
      ((osIsonTime (clock 360 ++ lit ":00") ossec_time = true ↔ OnTime true 1320 360 360) ↔
        1320 ≤ 360 ∨ if true then 360 = 1320 ∨ 360 = 360 else 360 ≠ 1320 ∧ 360 ≠ 360) :=
  onTime_iff (by decide) (by decide) (by decide) (by decide)

/-- The last minute of a night is not in it, and a negated night is the night. -/
theorem not_onTime :
    (∃ ossec_time, osIsValidTime (lit "22:00 - 06:00") = some (some ossec_time) ∧
      ¬ (osIsonTime (lit "06:00:00") ossec_time = true ↔ OnTime false 1320 360 360)) ∧
    ∃ ossec_time, osIsValidTime (lit "!22:00 - 06:00") = some (some ossec_time) ∧
      ¬ (osIsonTime (lit "23:00:00") ossec_time = true ↔ OnTime true 1320 360 1380) :=
  ⟨⟨lit "!06:0022:00", by decide, by decide⟩, lit "!06:0022:00", by decide, by decide⟩

end ValidateOp
