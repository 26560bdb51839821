import Mathlib.Data.List.Find
import OssecHids.OsRegex.Compile

/-!
# Lists of week days

`OS_IsValidDay` reads a list of week days into flags, which `OS_IsonDay` looks at.

- `findDay_append`: the day that a name stands for;
- `validDayLoop_eq`: what the loop over the names makes of a list, and of what is none;
- `dayLaw_iff`: which strings are read as the list that they are.
-/

open List Option

open CString Pcre2 OsRegex

namespace ValidateOp

/-! ## The code -/

/-- `days`, with the number of each in `days_int` -/
def days : List (Bytes × ℕ) :=
  [(lit "sunday", 0), (lit "sun", 0), (lit "monday", 1), (lit "mon", 1), (lit "tuesday", 2),
    (lit "tue", 2), (lit "wednesday", 3), (lit "wed", 3), (lit "thursday", 4), (lit "thu", 4),
    (lit "friday", 5), (lit "fri", 5), (lit "saturday", 6), (lit "sat", 6), (lit "weekdays", 7),
    (lit "weekends", 8)]

/-- `IS_SEP` -/
def isSep (b : UInt8) : Bool := b == chr ' ' || b == chr ','

/-- The flags that a name sets. -/
def setDay (day_ret : Bytes) (day : ℕ) : Bytes :=
  -- Weekdays
  if day = 7 then [1, 2, 3, 4, 5].foldl (fun r i => setByte r i 1) day_ret
  -- Weekends
  else if day = 8 then setByte (setByte day_ret 0 1) 6 1
  else setByte day_ret day 1

/-- The first name that the string begins with. -/
def findDay (day_str : Bytes) : Option (Bytes × ℕ) :=
  days.find? fun (name, _) => strncmpCaseEq true name.length day_str name

/-- The loop of `OS_IsValidDay`; `some none` when it returns `NULL`. -/
def validDayLoop : ℕ → Bytes → Bytes → Option (Option Bytes)
  | 0, _, _ => none
  | n + 1, day_str, day_ret =>
    if day_str.headD 0 = 0 then some (some day_ret)
    else
      match findDay day_str with
      | none => some none
      | some (name, day) =>
        let day_ret := setDay day_ret day
        let day_str := day_str.drop name.length
        if isSep (day_str.headD 0) then validDayLoop n (day_str.dropWhile isSep) day_ret
        else if day_str.headD 0 = 0 then some (some day_ret)
        else some none

/-- The part of `OS_IsValidDay` behind the loop. -/
def assignDays (ng : Bool) (day_ret : Bytes) : Option Bytes :=
  -- At least one day must be checked
  if (day_ret.take 7).any (· == 1) then
    some (day_ret.take 7 ++ [if ng then chr '!' else 0, 0])
  else none

/-- `OS_IsValidDay`; `some none` is `NULL`. -/
def osIsValidDay (day_str : Bytes) : Option (Option Bytes) :=
  let day_str := day_str.dropWhile (· == chr ' ')
  -- behind the '!' the pointer stays where it is
  let ng := day_str.headD 0 == chr '!'
  let day_str := if ng then day_str.dropWhile (· == chr ' ') else day_str
  (validDayLoop (day_str.length + 1) day_str (List.replicate 9 0)).map fun result =>
    result.bind (assignDays ng)

/-- `OS_IsonDay` -/
def osIsonDay (week_day : ℤ) (ossec_day : Bytes) : Bool :=
  let _true := ossec_day.getD 7 0 != chr '!'
  if week_day < 0 ∨ 7 < week_day then false
  else if ossec_day.getD week_day.toNat 0 == 1 then _true else !_true

/-! ## Lists -/

/-- The text is the name of days, in letters of any case. -/
def IsDayName (w : Bytes) (day : ℕ) : Prop := (w.map tolower, day) ∈ days

/-- Names with commas or blanks between them, and the days that they name. -/
inductive DayList : Bytes → List ℕ → Prop
  | last {w seps day} : IsDayName w day → (∀ b ∈ seps, isSep b = true) → DayList (w ++ seps) [day]
  | cons {w seps rest day ds} : IsDayName w day → (∀ b ∈ seps, isSep b = true) → seps ≠ [] →
    DayList rest ds → DayList (w ++ (seps ++ rest)) (day :: ds)

/-- The string is a list of days, negated or not. -/
def DayString (s : Bytes) (ng : Bool) (ds : List ℕ) : Prop :=
  ∃ blanks bang body, s = blanks ++ (bang ++ body) ∧ (∀ b ∈ blanks, b = chr ' ') ∧
    (ng = false ∧ bang = [] ∨
      ng = true ∧ ∃ t, bang = chr '!' :: t ∧ ∀ b ∈ t, b = chr ' ') ∧ DayList body ds

/-- The week day is one of those that the number stands for. -/
def InDay (k day : ℕ) : Prop :=
  if day = 7 then 1 ≤ k ∧ k ≤ 5 else if day = 8 then k = 0 ∨ k = 6 else k = day

instance (w : Bytes) (day : ℕ) : Decidable (IsDayName w day) :=
  inferInstanceAs (Decidable (_ ∈ days))

instance (k day : ℕ) : Decidable (InDay k day) := inferInstanceAs (Decidable (if day = 7 then
  1 ≤ k ∧ k ≤ 5 else if day = 8 then k = 0 ∨ k = 6 else k = day))

/-- The string is accepted when it is a list of days, and the days that are answered are those that
are named, or the others when it is negated. -/
def DayLaw (s : Bytes) : Prop :=
  ∃ result, osIsValidDay s = some result ∧ (result.isSome ↔ ∃ ng ds, DayString s ng ds) ∧
    ∀ ret ng ds, result = some ret → DayString s ng ds → ∀ k : ℕ, k < 7 →
      (osIsonDay k ret = true ↔ ((∃ day ∈ ds, InDay k day) ↔ ng = false))

example : osIsValidDay (lit " Mon,weekends , ") = some (some [1, 1, 0, 0, 0, 0, 1, 0, 0]) := by decide

/-! ## Names -/

section Names

variable {s w rest seps day_ret : Bytes} {day k : ℕ} {ds : List ℕ}

theorem strncmpEq_comm (n : ℕ) (s t : Bytes) : strncmpEq n s t = strncmpEq n t s := by
  induction n generalizing s t with
  | zero => rfl
  | succ n ih =>
    rw [strncmpEq, strncmpEq, ih s.tail t.tail]
    by_cases h : s.headD 0 = t.headD 0
    · rw [h]
    · rw [beq_eq_false_iff_ne.mpr h, beq_eq_false_iff_ne.mpr (Ne.symm h)]
      rfl

theorem ne_zero_days : ∀ name ∈ days, ∀ b ∈ name.1, b ≠ 0 := by decide

theorem tolower_days : ∀ name ∈ days, name.1.map tolower = name.1 := by decide

theorem beginsWith_iff {name : Bytes × ℕ} (h : name ∈ days) :
    strncmpCaseEq true name.1.length s name.1 = true ↔ name.1 <+: s.map tolower := by
  have hlower : name.1.map (fold true) = name.1 := tolower_days name h
  rw [strncmpCaseEq, strncmpEq_comm, ← strncmpCaseEq, strncmpCaseEq_iff (ne_zero_days name h)]
  constructor
  · rintro ⟨x, rest, rfl, hx⟩
    have hx' : x.map tolower = name.1 := hx.trans hlower
    exact ⟨rest.map tolower, by rw [map_append, hx']⟩
  · rintro ⟨t, ht⟩
    obtain ⟨x, rest, rfl, hx, -⟩ := map_eq_append_iff.mp ht.symm
    exact ⟨x, rest, rfl, hx.trans hlower.symm⟩

theorem isPrefix_takeWhile_iff {p : UInt8 → Bool} {n u : Bytes} (hn : ∀ b ∈ n, p b = true) :
    n <+: u ↔ n <+: u.takeWhile p := by
  refine ⟨fun h => ?_, fun h => h.trans (List.takeWhile_prefix p)⟩
  obtain ⟨t, rfl⟩ := h
  rw [takeWhile_append_of_pos hn]
  exact prefix_append _ _

theorem isSep_tolower (b : UInt8) : isSep (tolower b) = isSep b := by
  have hblank : tolower b = chr ' ' ↔ b = chr ' ' := tolower_eq_iff rfl
  have hcomma : tolower b = chr ',' ↔ b = chr ',' := tolower_eq_iff rfl
  rw [isSep, isSep, Bool.eq_iff_iff]
  simp only [Bool.or_eq_true, beq_iff_eq, hblank, hcomma]

theorem notSep_days : ∀ name ∈ days, ∀ b ∈ name.1, (!isSep b) = true := by
  have hall : (days.all fun name => name.1.all fun b => !isSep b) = true := by decide
  exact fun name hname => all_eq_true.mp (all_eq_true.mp hall name hname)

/-- Behind a name that is separated the string does not matter. -/
theorem findDay_append (hw : IsDayName w day) (hrest : rest.headD 0 = 0 ∨ isSep (rest.headD 0) = true)
    (hzero : ∀ b ∈ rest, b ≠ 0) : findDay (w ++ rest) = some (w.map tolower, day) := by
  have htake : ((w ++ rest).map tolower).takeWhile (fun b => !isSep b) = w.map tolower := by
    rw [map_append, takeWhile_append_of_pos (notSep_days _ hw)]
    have hnil : (rest.map tolower).takeWhile (fun b => !isSep b) = [] := by
      cases rest with
      | nil => rfl
      | cons c rest =>
        have hsep : isSep c = true := hrest.resolve_left (hzero c mem_cons_self)
        rw [map_cons]
        apply takeWhile_cons_of_neg
        rw [isSep_tolower, hsep]
        decide
    rw [hnil, append_nil]
  have hfind : findDay (w ++ rest) = days.find? fun name => name.1.isPrefixOf (w.map tolower) := by
    rw [findDay]
    apply find?_congr
    intro name hname
    rw [Bool.eq_iff_iff, beginsWith_iff hname, isPrefix_takeWhile_iff (notSep_days name hname), htake,
      List.isPrefixOf_iff_prefix]
  have hall : ∀ name ∈ days, (days.find? fun n => n.1.isPrefixOf name.1) = some name := by decide
  rw [hfind]
  exact hall _ hw

theorem exists_of_findDay {name : Bytes × ℕ} (h : findDay s = some name) :
    ∃ w rest, s = w ++ rest ∧ w.length = name.1.length ∧ IsDayName w name.2 := by
  have hmem := mem_of_find?_eq_some h
  have hbegins : strncmpCaseEq true name.1.length s name.1 = true := by
    have htest := find?_some h
    exact htest
  obtain ⟨t, ht⟩ := (beginsWith_iff hmem).mp hbegins
  obtain ⟨w, rest, rfl, hw, -⟩ := map_eq_append_iff.mp ht.symm
  refine ⟨w, rest, rfl, ?_, ?_⟩
  · rw [← hw, length_map]
  · rw [IsDayName, hw]
    exact hmem

theorem length_isDayName (hw : IsDayName w day) : 0 < w.length ∧ day ≤ 8 := by
  have hall : ∀ name ∈ days, 0 < name.1.length ∧ name.2 ≤ 8 := by decide
  have h := hall _ hw
  rwa [length_map] at h

theorem ne_zero_isDayName (hw : IsDayName w day) : ∀ b ∈ w, b ≠ 0 := by
  rintro b hb rfl
  exact ne_zero_days _ hw (tolower 0) (mem_map_of_mem hb) rfl

theorem notSep_isDayName (hw : IsDayName w day) : ∀ b ∈ w, isSep b = false := by
  intro b hb
  have h := notSep_days _ hw (tolower b) (mem_map_of_mem hb)
  rw [isSep_tolower] at h
  simpa using h

theorem ne_zero_of_isSep {b : UInt8} (h : isSep b = true) : b ≠ 0 := by
  rintro rfl
  cases h

end Names

/-! ## The loop -/

section Loop

variable {s w rest seps day_ret ret : Bytes} {day k n : ℕ} {ds : List ℕ}

theorem DayList.cons_head (h : DayList s ds) : ∃ b t, s = b :: t ∧ b ≠ 0 ∧ isSep b = false := by
  have hname : ∀ (w r : Bytes) (day : ℕ), IsDayName w day →
      ∃ b t, w ++ r = b :: t ∧ b ≠ 0 ∧ isSep b = false := by
    intro w r day hw
    obtain ⟨b, t, rfl⟩ := exists_cons_of_length_pos (length_isDayName hw).1
    exact ⟨b, t ++ r, rfl, ne_zero_isDayName hw b mem_cons_self,
      notSep_isDayName hw b mem_cons_self⟩
  cases h with
  | last hw => exact hname _ _ _ hw
  | cons hw => exact hname _ _ _ hw

theorem DayList.ne_zero (h : DayList s ds) : ∀ b ∈ s, b ≠ 0 := by
  induction h with
  | last hw hseps =>
    exact fun b hb => (mem_append.mp hb).elim (ne_zero_isDayName hw b)
      fun hb => ne_zero_of_isSep (hseps b hb)
  | cons hw hseps _ _ ih =>
    intro b hb
    rcases mem_append.mp hb with hb | hb
    · exact ne_zero_isDayName hw b hb
    · exact (mem_append.mp hb).elim (fun hb => ne_zero_of_isSep (hseps b hb)) (ih b)

theorem validDayLoop_name (hw : IsDayName w day)
    (hrest : rest.headD 0 = 0 ∨ isSep (rest.headD 0) = true) (hzero : ∀ b ∈ rest, b ≠ 0) :
    validDayLoop (n + 1) (w ++ rest) day_ret =
      if isSep (rest.headD 0) then validDayLoop n (rest.dropWhile isSep) (setDay day_ret day)
      else some (some (setDay day_ret day)) := by
  obtain ⟨b, t, rfl⟩ := exists_cons_of_length_pos (length_isDayName hw).1
  have hb : (b :: t ++ rest).headD 0 ≠ 0 := ne_zero_isDayName hw b mem_cons_self
  have hlen : ((b :: t).map tolower).length = (b :: t).length := length_map _
  rw [validDayLoop, if_neg hb, findDay_append hw hrest hzero]
  dsimp only
  rw [hlen, drop_left]
  by_cases hsep : isSep (rest.headD 0) = true
  · rw [if_pos hsep, if_pos hsep]
  · rw [if_neg hsep, if_neg hsep, if_pos (hrest.resolve_right hsep)]

/-- A list is read to its end. -/
theorem validDayLoop_of_dayList (day_ret : Bytes) (h : DayList s ds) (hn : s.length < n) :
    validDayLoop n s day_ret = some (some (ds.foldl setDay day_ret)) := by
  induction h generalizing n day_ret with
  | @last w seps day hw hseps =>
    obtain ⟨n, rfl⟩ : ∃ m, n = m + 1 := ⟨n - 1, by omega⟩
    cases seps with
    | nil =>
      rw [validDayLoop_name hw (.inl rfl) fun b hb => absurd hb not_mem_nil]
      rfl
    | cons c seps =>
      have hc := hseps c mem_cons_self
      have hpos := (length_isDayName hw).1
      obtain ⟨m, rfl⟩ : ∃ m, n = m + 1 := by
        rw [length_append, length_cons] at hn
        exact ⟨n - 1, by omega⟩
      have hhead : isSep ((c :: seps).headD 0) = true := hc
      rw [validDayLoop_name hw (.inr hhead) fun b hb => ne_zero_of_isSep (hseps b hb),
        if_pos hhead, dropWhile_eq_nil_iff.mpr hseps]
      rfl
  | @cons w seps rest day ds hw hseps hne hlist ih =>
    obtain ⟨n, rfl⟩ : ∃ m, n = m + 1 := ⟨n - 1, by omega⟩
    obtain ⟨c, seps, rfl⟩ := exists_cons_of_ne_nil hne
    have hc := hseps c mem_cons_self
    obtain ⟨b, t, heq, -, hsep⟩ := hlist.cons_head
    have hpos := (length_isDayName hw).1
    have hshort : rest.length < n := by
      simp only [length_append, length_cons] at hn
      omega
    have hhead : isSep ((c :: seps ++ rest).headD 0) = true := hc
    have hdrop : (c :: seps ++ rest).dropWhile isSep = rest := by
      rw [dropWhile_append_of_pos hseps, heq]
      exact dropWhile_cons_of_neg (by rw [hsep]; exact Bool.false_ne_true)
    have hzero : ∀ b ∈ c :: seps ++ rest, b ≠ 0 := fun b hb =>
      (mem_append.mp hb).elim (fun hb => ne_zero_of_isSep (hseps b hb)) (hlist.ne_zero b)
    rw [validDayLoop_name hw (.inr hhead) hzero, if_pos hhead, hdrop]
    exact ih _ hshort

theorem dayList_of_validDayLoop (day_ret : Bytes) (hs : ∀ b ∈ s, b ≠ 0) (hn : s.length < n) :
    ∃ result, validDayLoop n s day_ret = some result ∧ ∀ ret, result = some ret →
      s = [] ∧ ret = day_ret ∨ ∃ ds, DayList s ds := by
  induction n generalizing s day_ret with
  | zero => cases hn
  | succ n ih =>
    by_cases hnil : s = []
    · subst hnil
      exact ⟨some day_ret, rfl, fun ret h => .inl ⟨rfl, (some.inj h).symm⟩⟩
    · have hhead : s.headD 0 ≠ 0 := by
        obtain ⟨b, t, rfl⟩ := exists_cons_of_ne_nil hnil
        exact hs b mem_cons_self
      cases hfind : findDay s with
      | none =>
        refine ⟨none, ?_, nofun⟩
        rw [validDayLoop, if_neg hhead, hfind]
      | some name =>
        obtain ⟨w, rest, rfl, hlen, hw⟩ := exists_of_findDay hfind
        have hrest : ∀ b ∈ rest, b ≠ 0 := fun b hb => hs b (mem_append_right _ hb)
        by_cases hend : rest.headD 0 = 0 ∨ isSep (rest.headD 0) = true
        case neg =>
          refine ⟨none, ?_, nofun⟩
          rw [validDayLoop, if_neg hhead, hfind]
          dsimp only
          rw [← hlen, drop_left, if_neg fun h => hend (.inr h), if_neg fun h => hend (.inl h)]
        case pos =>
          rw [validDayLoop_name hw hend hrest]
          by_cases hsep : isSep (rest.headD 0) = true
          case neg =>
            -- the name is the last one
            have hlast : rest = [] := by
              cases rest with
              | nil => rfl
              | cons c rest => exact absurd (hend.resolve_right hsep) (hrest c mem_cons_self)
            subst hlast
            refine ⟨_, if_neg hsep, fun _ _ => .inr ⟨[name.2], ?_⟩⟩
            exact .last hw fun b hb => absurd hb not_mem_nil
          case pos =>
            rw [if_pos hsep]
            have hpos := (length_isDayName hw).1
            have hle := (dropWhile_suffix isSep (l := rest)).length_le
            rw [length_append] at hn
            obtain ⟨result, hresult, hlist⟩ := @ih (rest.dropWhile isSep) (setDay day_ret name.2)
              (fun b hb => hrest b ((dropWhile_suffix isSep).subset hb)) (by omega)
            have hsplit : rest.takeWhile isSep ++ rest.dropWhile isSep = rest :=
              takeWhile_append_dropWhile
            have hseps : ∀ b ∈ rest.takeWhile isSep, isSep b = true := fun b hb =>
              mem_takeWhile_imp hb
            refine ⟨result, hresult, fun ret hret => .inr ?_⟩
            rcases hlist ret hret with ⟨hnone, -⟩ | ⟨ds, hds⟩
            · rw [hnone, append_nil] at hsplit
              rw [← hsplit]
              exact ⟨[name.2], .last hw hseps⟩
            · rw [← hsplit]
              refine ⟨name.2 :: ds, .cons hw hseps ?_ hds⟩
              intro htake
              obtain ⟨c, t, hct, -, hc⟩ := hds.cons_head
              rw [htake, nil_append, hct] at hsplit
              rw [← hsplit] at hsep
              exact Bool.false_ne_true (hc.symm.trans hsep)

end Loop

/-! ## Flags -/

section Flags

variable {s ret day_ret : Bytes} {day k : ℕ} {ds : List ℕ} {ng : Bool}

theorem length_setDay : (setDay day_ret day).length = day_ret.length := by
  rw [setDay]
  split_ifs <;> simp [setByte]

theorem getD_setByte {i : ℕ} (hi : i < day_ret.length) :
    (setByte day_ret i 1).getD k 0 = if k = i then 1 else day_ret.getD k 0 := by
  rw [setByte, getD_eq_getElem?_getD, getD_eq_getElem?_getD, getElem?_set]
  by_cases hik : k = i
  · subst hik
    rw [if_pos rfl, if_pos rfl, if_pos hi]
    rfl
  · rw [if_neg (Ne.symm hik), if_neg hik]

/-- The flags of the days that a name stands for. -/
theorem getD_setDay (hlen : day_ret.length = 9) (hday : day ≤ 8) :
    (setDay day_ret day).getD k 0 = if InDay k day then 1 else day_ret.getD k 0 := by
  have hset : ∀ i < 9, ∀ r : Bytes, r.length = 9 →
      (setByte r i 1).length = 9 ∧ (setByte r i 1).getD k 0 = if k = i then 1 else r.getD k 0 :=
    fun i hi r hr => ⟨by rw [setByte, length_set, hr], getD_setByte (by rw [hr]; exact hi)⟩
  rw [setDay]
  by_cases hseven : day = 7
  · have hin : InDay k day ↔ 1 ≤ k ∧ k ≤ 5 := iff_of_eq (if_pos hseven)
    rw [if_pos hseven, if_congr hin rfl rfl]
    simp only [foldl_cons, foldl_nil]
    have h1 := hset 1 (by decide) _ hlen
    have h2 := hset 2 (by decide) _ h1.1
    have h3 := hset 3 (by decide) _ h2.1
    have h4 := hset 4 (by decide) _ h3.1
    have h5 := hset 5 (by decide) _ h4.1
    rw [h5.2, h4.2, h3.2, h2.2, h1.2]
    split_ifs <;> first | rfl | omega
  · rw [if_neg hseven]
    by_cases height : day = 8
    · have hin : InDay k day ↔ k = 0 ∨ k = 6 :=
        iff_of_eq ((if_neg hseven).trans (if_pos height))
      rw [if_pos height, if_congr hin rfl rfl]
      have h1 := hset 0 (by decide) _ hlen
      have h2 := hset 6 (by decide) _ h1.1
      rw [h2.2, h1.2]
      split_ifs <;> first | rfl | omega
    · have hin : InDay k day ↔ k = day := iff_of_eq ((if_neg hseven).trans (if_neg height))
      rw [if_neg height, if_congr hin rfl rfl]
      exact (hset day (by omega) _ hlen).2

theorem getD_foldl_setDay (hlen : day_ret.length = 9) (hds : ∀ day ∈ ds, day ≤ 8) :
    (ds.foldl setDay day_ret).length = 9 ∧
    ((ds.foldl setDay day_ret).getD k 0 = 1 ↔ (∃ day ∈ ds, InDay k day) ∨ day_ret.getD k 0 = 1) := by
  induction ds generalizing day_ret with
  | nil => exact ⟨hlen, by simp⟩
  | cons day ds ih =>
    obtain ⟨hday, hds⟩ := forall_mem_cons.mp hds
    have hstep : (setDay day_ret day).length = 9 := by rw [length_setDay, hlen]
    obtain ⟨hlen', hflag⟩ := ih hstep hds
    refine ⟨hlen', hflag.trans ?_⟩
    rw [getD_setDay hlen hday]
    by_cases hin : InDay k day
    · simp [hin]
    · simp [hin]

theorem DayList.le (h : DayList s ds) : ds ≠ [] ∧ ∀ day ∈ ds, day ≤ 8 := by
  induction h with
  | last hw =>
    refine ⟨cons_ne_nil _ _, fun day hday => ?_⟩
    rw [mem_singleton.mp hday]
    exact (length_isDayName hw).2
  | cons hw _ _ _ ih =>
    exact ⟨cons_ne_nil _ _, forall_mem_cons.mpr ⟨(length_isDayName hw).2, ih.2⟩⟩

theorem exists_inDay (hday : day ≤ 8) : ∃ k < 7, InDay k day := by
  have hall : ∀ day ≤ 8, ∃ k < 7, InDay k day := by decide
  exact hall day hday

end Flags

/-! ## The law -/

section Law

variable {s t body : Bytes} {ds : List ℕ} {ng : Bool}

/-- Behind the blanks a list that is not negated begins. -/
theorem dayString_false_iff :
    DayString s false ds ↔ DayList (s.dropWhile (· == chr ' ')) ds := by
  constructor
  · rintro ⟨blanks, bang, body, rfl, hblanks, ⟨-, rfl⟩ | ⟨h, -⟩, hlist⟩
    · obtain ⟨b, t, rfl, -, hsep⟩ := hlist.cons_head
      have hb : ¬ (b == chr ' ') = true := by
        intro h
        rw [beq_iff_eq.mp h] at hsep
        cases hsep
      have hdrop : (b :: t).dropWhile (fun b => b == chr ' ') = b :: t :=
        dropWhile_cons_of_neg hb
      rw [nil_append, dropWhile_append_of_pos fun b hb => beq_iff_eq.mpr (hblanks b hb), hdrop]
      exact hlist
    · exact nomatch h
  · intro h
    refine ⟨s.takeWhile (· == chr ' '), [], _, takeWhile_append_dropWhile.symm, ?_,
      .inl ⟨rfl, rfl⟩, h⟩
    exact fun b hb => beq_iff_eq.mp (mem_takeWhile_imp (p := (· == chr ' ')) hb)

theorem headD_of_dayString_true (h : DayString s true ds) :
    (s.dropWhile (· == chr ' ')).headD 0 = chr '!' := by
  obtain ⟨blanks, bang, body, rfl, hblanks, ⟨h, -⟩ | ⟨-, t, rfl, -⟩, -⟩ := h
  · exact nomatch h
  · rw [dropWhile_append_of_pos fun b hb => beq_iff_eq.mpr (hblanks b hb)]
    rfl

theorem osIsonDay_flags {flags : Bytes} {c : UInt8} {k : ℕ} (hlen : flags.length = 9) (hk : k < 7) :
    osIsonDay k (flags.take 7 ++ [c, 0]) =
      if flags.getD k 0 = 1 then c != chr '!' else !(c != chr '!') := by
  have htake : (flags.take 7).length = 7 := by rw [length_take, hlen]; rfl
  have hpolarity : (flags.take 7 ++ [c, 0]).getD 7 0 = c := by
    rw [getD_eq_getElem?_getD, getElem?_append_right (by omega), htake]
    rfl
  have hflag : (flags.take 7 ++ [c, 0]).getD k 0 = flags.getD k 0 := by
    rw [getD_eq_getElem?_getD, getD_eq_getElem?_getD,
      getElem?_append_left (by omega), getElem?_take_of_lt hk]
  rw [osIsonDay, hpolarity, if_neg (by omega), Int.toNat_natCast, hflag]
  simp only [beq_iff_eq]

theorem osIsValidDay_eq {u : Bytes} (hu : s.dropWhile (· == chr ' ') = u)
    (hng : (u.headD 0 == chr '!') = ng) :
    osIsValidDay s = (validDayLoop (u.length + 1) u (List.replicate 9 0)).map fun result =>
      result.bind (assignDays ng) := by
  have hstays : (if ng then u.dropWhile (· == chr ' ') else u) = u := by
    cases ng with
    | false => rfl
    | true =>
      cases u with
      | nil => rfl
      | cons b t =>
        have hb : b = chr '!' := beq_iff_eq.mp hng
        rw [hb]
        rfl
  simp only [osIsValidDay, hu, hng, hstays]

theorem assignDays_foldl (h : DayList s ds) :
    assignDays ng (ds.foldl setDay (List.replicate 9 0)) =
      some ((ds.foldl setDay (List.replicate 9 0)).take 7 ++ [if ng then chr '!' else 0, 0]) := by
  obtain ⟨hne, hle⟩ := h.le
  obtain ⟨day, hday⟩ := exists_mem_of_ne_nil ds hne
  obtain ⟨k, hk, hin⟩ := exists_inDay (hle day hday)
  obtain ⟨hlen, hflag⟩ := getD_foldl_setDay (k := k) (length_replicate (n := 9) (a := (0 : UInt8))) hle
  have hany : (((ds.foldl setDay (List.replicate 9 0)).take 7).any (· == 1)) = true := by
    rw [List.any_eq_true]
    refine ⟨1, ?_, rfl⟩
    have hget := hflag.mpr (.inl ⟨day, hday, hin⟩)
    rw [getD_eq_getElem?_getD, getElem?_eq_getElem (by omega), getD_some] at hget
    rw [← hget]
    exact mem_take_iff_getElem.mpr ⟨k, by omega, rfl⟩
  rw [assignDays, if_pos hany]

/-- For every string, `OS_IsValidDay` accepts the lists of days, and `OS_IsonDay` answers the days
that they name or the others, if and only if the string is no negated list. -/
theorem dayLaw_iff (hs : ∀ b ∈ s, b ≠ 0) : DayLaw s ↔ ¬ ∃ ds, DayString s true ds := by
  have hz : ∀ b ∈ s.dropWhile (· == chr ' '), b ≠ 0 := fun b hb =>
    hs b ((dropWhile_suffix _).subset hb)
  by_cases hbang : (s.dropWhile (· == chr ' ')).headD 0 = chr '!'
  · -- no name begins with the mark
    obtain ⟨t, ht⟩ : ∃ t, s.dropWhile (· == chr ' ') = chr '!' :: t := by
      cases h : s.dropWhile (· == chr ' ') with
      | nil =>
        rw [h] at hbang
        exact absurd hbang (by decide)
      | cons b t =>
        rw [h] at hbang
        exact ⟨t, congrArg (· :: t) hbang⟩
    have hnone : findDay (chr '!' :: t) = none := by
      rw [findDay, find?_eq_none]
      intro name hname hbegins
      have hhead : ∀ name ∈ days, name.1.head? ≠ some (chr '!') ∧ name.1 ≠ [] := by decide
      obtain ⟨b, v, hv⟩ := exists_cons_of_ne_nil (hhead name hname).2
      obtain ⟨u, hu⟩ := (beginsWith_iff hname).mp hbegins
      rw [hv] at hu
      apply (hhead name hname).1
      rw [hv, head?_cons, (List.cons.inj hu).1]
      rfl
    have hcode : osIsValidDay s = some none := by
      have hmark : (chr '!' :: t).headD 0 ≠ 0 := by
        show chr '!' ≠ 0
        decide
      rw [osIsValidDay_eq ht rfl, validDayLoop, if_neg hmark, hnone]
      rfl
    have hfalse : ∀ ds, ¬ DayString s false ds := by
      intro ds h
      have hlist := dayString_false_iff.mp h
      rw [ht] at hlist
      have hread := validDayLoop_of_dayList [] hlist (Nat.lt_succ_self _)
      have hmark : (chr '!' :: t).headD 0 ≠ 0 := by
        show chr '!' ≠ 0
        decide
      rw [validDayLoop, if_neg hmark, hnone] at hread
      exact nomatch hread
    constructor
    · rintro ⟨result, hresult, haccept, -⟩ ⟨ds, hds⟩
      rw [hcode] at hresult
      have hsome := haccept.mpr ⟨true, ds, hds⟩
      rw [← some.inj hresult] at hsome
      exact nomatch hsome
    · intro hno
      refine ⟨none, hcode, ⟨nofun, ?_⟩, nofun⟩
      rintro ⟨ng, ds, h⟩
      cases ng with
      | false => exact absurd h (hfalse ds)
      | true => exact absurd ⟨ds, h⟩ hno
  · have htrue : ∀ ds, ¬ DayString s true ds := fun ds h => hbang (headD_of_dayString_true h)
    refine iff_of_true ?_ fun ⟨ds, h⟩ => htrue ds h
    obtain ⟨result, hresult, hlist⟩ := dayList_of_validDayLoop (List.replicate 9 0) hz
      (Nat.lt_succ_self _)
    have hcode : osIsValidDay s = some (result.bind (assignDays false)) := by
      rw [osIsValidDay_eq rfl (beq_eq_false_iff_ne.mpr hbang), hresult]
      rfl
    have hdays : ∀ ds, DayString s false ds → result.bind (assignDays false) =
        some ((ds.foldl setDay (List.replicate 9 0)).take 7 ++ [0, 0]) := by
      intro ds h
      have hread := validDayLoop_of_dayList (List.replicate 9 0)
        (dayString_false_iff.mp h) (Nat.lt_succ_self _)
      rw [some.inj (hresult.symm.trans hread), bind_some,
        assignDays_foldl (dayString_false_iff.mp h)]
      rfl
    refine ⟨_, hcode, ⟨fun hsome => ?_, ?_⟩, ?_⟩
    · cases result with
      | none => exact nomatch hsome
      | some ret =>
        rcases hlist ret rfl with ⟨-, rfl⟩ | ⟨ds, hds⟩
        · exact nomatch hsome
        · exact ⟨false, ds, dayString_false_iff.mpr hds⟩
    · rintro ⟨ng, ds, h⟩
      cases ng with
      | false =>
        rw [hdays ds h]
        rfl
      | true => exact absurd h (htrue ds)
    · intro ret ng ds hret h k hk
      cases ng with
      | true => exact absurd h (htrue ds)
      | false =>
        rw [hdays ds h, some.injEq] at hret
        obtain ⟨hlen, hflag⟩ := getD_foldl_setDay (k := k)
          (length_replicate (n := 9) (a := (0 : UInt8))) (dayString_false_iff.mp h).le.2
        have hzero : ¬ (List.replicate 9 (0 : UInt8)).getD k 0 = 1 := by
          have hall : ∀ k < 7, ¬ (List.replicate 9 (0 : UInt8)).getD k 0 = 1 := by decide
          exact hall k hk
        rw [or_iff_left hzero] at hflag
        rw [← hret, osIsonDay_flags hlen hk, if_congr hflag rfl rfl]
        by_cases hin : ∃ day ∈ ds, InDay k day
        · simp [hin, show (0 != chr '!') = true from rfl]
        · simp [hin, show (0 != chr '!') = true from rfl]

/-- The working days. -/
theorem dayLaw_iff_weekdays :
    DayLaw (lit "Weekdays, sat") ↔ ¬ ∃ ds, DayString (lit "Weekdays, sat") true ds :=
  dayLaw_iff (forall_mem_of_all (by decide))

/-- All days but one are refused. -/
theorem not_dayLaw : DayString (lit "!sunday") true [0] ∧ osIsValidDay (lit "!sunday") = some none ∧
    ¬ DayLaw (lit "!sunday") := by
  have hstring : DayString (lit "!sunday") true [0] :=
    ⟨[], lit "!", lit "sunday", rfl, nofun, .inr ⟨rfl, [], rfl, nofun⟩,
      @DayList.last (lit "sunday") [] 0 (by decide) nofun⟩
  have hcode : osIsValidDay (lit "!sunday") = some none := by decide
  refine ⟨hstring, hcode, ?_⟩
  rintro ⟨result, hresult, haccept, -⟩
  have hsome := haccept.mpr ⟨true, [0], hstring⟩
  rw [← some.inj (hcode.symm.trans hresult)] at hsome
  exact nomatch hsome

end Law

end ValidateOp
