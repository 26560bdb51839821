import OssecHids.Lib.Lines
import OssecHids.Rootcheck.Patterns
import OssecHids.Rootcheck.Report

/-!
# The check for a file

`rk_check_file`: a file of a list, with a pattern that one of its lines matches or, if all of it is
negated, that every line matches.

- `checkName`: the check for one name, `rkCheckFile`: the loop over the list, which stands in a buffer
  that is cut at commas;
- `checkName_kept`: what a check leaves of the name and of the pattern;
- `rkCheckFile_single`: a list of one name is checked as that name;
- `rkCheckFile_law_iff`: no other list is checked as its names are.
-/

open CString List Option

namespace Rootcheck

def MAX_RK_READ_LINES : ℕ := 100000

/-- The size of `rootcheck.alert_msg`. -/
def alertMsgSize : ℕ := 256

/-! ## Definitions -/

/-- What the system answers. -/
structure System where
  /-- `OS_Regex` -/
  osRegex : Bytes → Bytes → Bool
  /-- `fopen_regular`, with what is in the file -/
  fopenRegular : Bytes → Option Bytes
  getcwd : Bool
  /-- `chdir(path) == 0` -/
  chdir : Bytes → Bool
  /-- `chdir(path)` says `ENOTDIR`. -/
  notDirectory : Bytes → Bool
  /-- In a directory, a name is one of a directory, or `ENOTDIR` is said of it. -/
  under : Bytes → Bytes → Bool
  /-- `chdir` from a directory back to that of the process -/
  chdirBack : Bytes → Bool
  /-- One of `stat`, `access` and `open` succeeds. -/
  found : Bytes → Bool

/-- `is_file`: the answer, and the name behind the call. The name is cut at its last slash while the
directory is entered. -/
def isFile (sys : System) (file_name : Bytes) : Bool × Bytes :=
  if !sys.getcwd then (false, file_name)
  else
    match beforeLast (chr '/') file_name with
    | none => (false, file_name)
    | some dir =>
      if dir ≠ [] then
        let cut := setByte file_name dir.length 0
        let file_dirname := str cut
        let ret := sys.chdir file_dirname &&
          sys.under file_dirname (file_name.drop (dir.length + 1))
        if sys.chdir file_dirname && !sys.chdirBack file_dirname then (false, cut)
        else (ret || sys.found file_name, setByte cut dir.length (chr '/'))
      else if sys.chdir file_name then (sys.chdirBack file_name, file_name)
      else (sys.notDirectory file_name || sys.found file_name, file_name)

/-- `_is_str_in_array`, of the strings in front of the first `NULL`. There is no answer when the
array is read behind its end. -/
def isStrInArray (ar : List Bytes) (s : Bytes) : Option Bool :=
  if s ∈ ar then some true else if ar.length < alertMsgSize then some false else none

/-- The alert for a file -/
def alertFile (alert_msg : List Bytes) (file : Bytes) : Option (List Bytes) :=
  let b_msg := snprintf OS_SIZE_1024 (lit " File: " ++ file ++ lit ".")
  match isStrInArray alert_msg b_msg with
  | none => none
  | some true => some alert_msg
  | some false => some (alert_msg ++ [b_msg])

/-- What the loop over the lines comes to: a line to alert on, or the value of `full_negate`. -/
inductive Scan
  | matched
  | ended (full_negate : Bool)
  deriving DecidableEq, Repr

/-- The loop over the lines of a file; `lines` are read. -/
def checkLines (osRegex : Bytes → Bytes → Bool) :
    List Bytes → ℕ → Bool → Bytes → Option (Scan × Bytes)
  | [], _, full_negate, pattern => some (.ended full_negate, pattern)
  | buf :: rest, lines, full_negate, pattern =>
    if lines + 1 > MAX_RK_READ_LINES then some (.ended false, pattern)
    else
      match ptMatches osRegex (some (cut buf)) pattern with
      | none => none
      | some (pt_result, pattern) =>
        if pt_result && !full_negate then some (.matched, pattern)
        else if !pt_result && full_negate then some (.ended false, pattern)
        else checkLines osRegex rest (lines + 1) full_negate pattern

/-- What a check gives and leaves behind. -/
structure Checked where
  answer : Bool
  file : Bytes
  pattern : Option Bytes
  alert_msg : List Bytes

/-- The check for one name of a list. -/
def checkName (sys : System) (alert_msg : List Bytes) (file : Bytes) (pattern : Option Bytes) :
    Option Checked :=
  match pattern with
  | none =>
    let (ret, file) := isFile sys file
    if ret then (alertFile alert_msg file).map fun alert_msg => ⟨true, file, none, alert_msg⟩
    else some ⟨false, file, none, alert_msg⟩
  | some pattern =>
    match ptCheckNegate pattern, sys.fopenRegular file with
    | none, _ => none
    | some _, none => some ⟨false, file, some pattern, alert_msg⟩
    | some full_negate, some fp =>
      match checkLines sys.osRegex (readLines OS_SIZE_2048 fp) 0 full_negate pattern with
      | none => none
      | some (.ended false, pattern) => some ⟨false, file, some pattern, alert_msg⟩
      | some (_, pattern) =>
        (alertFile alert_msg file).map fun alert_msg => ⟨true, file, some pattern, alert_msg⟩

/-- The loop of `_rk_check_file`: `file` and `split_file` are places in the list. -/
def checkFileLoop (sys : System) :
    ℕ → Bytes → ℕ → Option ℕ → Option Bytes → List Bytes → Option Checked
  | 0, _, _, _, _, _ => none
  | fuel + 1, list, file, split_file, pattern, alert_msg =>
    match checkName sys alert_msg (str (list.drop file)) pattern with
    | none => none
    | some r =>
      let list := list.take file ++ overwrite r.file (list.drop file)
      if r.answer then some { r with file := list }
      else
        match split_file with
        | none => some { r with file := list }
        | some file =>
          match strchr (chr ',') (list.drop file) with
          | none => some { r with file := list }
          | some split_file =>
            checkFileLoop sys fuel list file (some (ptrDiff split_file list + 1)) r.pattern
              r.alert_msg

/-- `_rk_check_file`, of a name or of a list of names. -/
def rkCheckFileOf (sys : System) (alert_msg : List Bytes) (file : Bytes) (pattern : Option Bytes)
    (is_list : Bool) : Option Checked :=
  match if is_list then strchr (chr ',') file else none with
  | none => checkFileLoop sys (file.length + 1) file 0 none pattern alert_msg
  | some split_file =>
    let i := ptrDiff split_file file
    checkFileLoop sys (file.length + 1) (setByte file i 0) 0 (some (i + 1)) pattern alert_msg

/-- `rk_check_file` -/
def rkCheckFile (sys : System) (alert_msg : List Bytes) (file : Bytes) (pattern : Option Bytes) :
    Option Checked := rkCheckFileOf sys alert_msg file pattern true

/-- A list of names -/
def commaList (names : List Bytes) : Bytes := [chr ','].intercalate names

/-- A name alone is answered with yes. -/
def Answers (sys : System) (alert_msg : List Bytes) (pattern : Option Bytes) (name : Bytes) : Prop :=
  ∃ r, rkCheckFile sys alert_msg name pattern = some r ∧ r.answer = true

/-- A list is checked as its names are, and it and the pattern are as they were. -/
structure Lawful (sys : System) (alert_msg : List Bytes) (names : List Bytes)
    (pattern : Option Bytes) (r : Checked) : Prop where
  answer : r.answer = true ↔ ∃ name ∈ names, Answers sys alert_msg pattern name
  file : str r.file = commaList names
  pattern : r.pattern = pattern

/-! ## One name -/

variable {sys : System} {alert_msg : List Bytes} {file list s : Bytes} {pattern : Option Bytes}
  {p a : Bytes} {names : List Bytes} {r : Checked} {k : ℕ}

theorem length_isFile (sys : System) (file : Bytes) :
    (isFile sys file).2.length = file.length := by
  rw [isFile]
  split
  · rfl
  · split
    · rfl
    · rename_i dir _
      have hcut : (setByte file dir.length 0).length = file.length := length_set
      have hback : (setByte (setByte file dir.length 0) dir.length (chr '/')).length = file.length :=
        length_set.trans hcut
      dsimp only
      split_ifs
      · exact hcut
      · exact hback
      · rfl
      · rfl

/-- The loop over the lines leaves the pattern as it is. -/
theorem exists_checkLines (osRegex : Bytes → Bytes → Bool) (bufs : List Bytes) (lines : ℕ)
    (full_negate : Bool) (hz : ∀ b ∈ p, b ≠ 0) :
    ∃ scan, checkLines osRegex bufs lines full_negate p = some (scan, p) := by
  induction bufs generalizing lines with
  | nil => exact ⟨_, rfl⟩
  | cons buf bufs ih =>
    obtain ⟨ps, hps⟩ := exists_pieces p
    rw [checkLines]
    split_ifs
    · exact ⟨_, rfl⟩
    · rw [ptMatches_of_pieces hps hz]
      dsimp only
      split_ifs
      · exact ⟨_, rfl⟩
      · exact ⟨_, rfl⟩
      · exact ih (lines + 1)

theorem exists_alertFile (h : alert_msg.length < alertMsgSize) (file : Bytes) :
    ∃ alert_msg', alertFile alert_msg file = some alert_msg' := by
  rw [alertFile, isStrInArray, if_pos h]
  by_cases hmem : snprintf OS_SIZE_1024 (lit " File: " ++ file ++ lit ".") ∈ alert_msg
  · rw [if_pos hmem]
    exact ⟨_, rfl⟩
  · rw [if_neg hmem]
    exact ⟨_, rfl⟩

/-- What a check keeps. -/
structure Kept (sys : System) (alert_msg : List Bytes) (file : Bytes) (pattern : Option Bytes)
    (r : Checked) : Prop where
  length : r.file.length = file.length
  alert_msg : r.answer = false → r.alert_msg = alert_msg
  file : r.file = if pattern = none then (isFile sys file).2 else file
  pattern : r.pattern = pattern

/-- **What a check leaves of the name and of the pattern**, and of the alerts if it finds nothing. -/
theorem checkName_kept (hz : ∀ p ∈ pattern, ∀ b ∈ p, b ≠ 0)
    (h : checkName sys alert_msg file pattern = some r) : Kept sys alert_msg file pattern r := by
  cases pattern with
  | none =>
    rw [checkName] at h
    dsimp only at h
    split at h
    · obtain ⟨_, -, rfl⟩ := map_eq_some_iff.mp h
      exact ⟨length_isFile sys file, fun h => Bool.noConfusion h, rfl, rfl⟩
    · cases h
      exact ⟨length_isFile sys file, fun _ => rfl, rfl, rfl⟩
  | some pattern =>
    obtain ⟨ps, hps⟩ := exists_pieces pattern
    rw [checkName] at h
    rw [ptCheckNegate_of_pieces hps (hz pattern rfl)] at h
    cases hopen : sys.fopenRegular file with
    | none =>
      rw [hopen] at h
      cases h
      exact ⟨rfl, fun _ => rfl, rfl, rfl⟩
    | some fp =>
      obtain ⟨scan, hscan⟩ := exists_checkLines sys.osRegex (readLines OS_SIZE_2048 fp) 0
        (ps.all negated) (hz pattern rfl)
      rw [hopen] at h
      dsimp only at h
      rw [hscan] at h
      split at h
      case h_1 heq => cases heq
      case h_2 heq =>
        obtain ⟨-, rfl⟩ := Prod.mk.inj (some.inj heq)
        cases h
        exact ⟨rfl, fun _ => rfl, rfl, rfl⟩
      case h_3 heq =>
        obtain ⟨-, rfl⟩ := Prod.mk.inj (some.inj heq)
        obtain ⟨_, -, rfl⟩ := map_eq_some_iff.mp h
        exact ⟨rfl, fun h => Bool.noConfusion h, rfl, rfl⟩

theorem exists_checkName (hz : ∀ p ∈ pattern, ∀ b ∈ p, b ≠ 0)
    (hlen : alert_msg.length < alertMsgSize) (file : Bytes) :
    ∃ r, checkName sys alert_msg file pattern = some r := by
  cases pattern with
  | none =>
    rw [checkName]
    dsimp only
    split
    · obtain ⟨alert_msg', h⟩ := exists_alertFile hlen (isFile sys file).2
      rw [h]
      exact ⟨_, rfl⟩
    · exact ⟨_, rfl⟩
  | some pattern =>
    obtain ⟨ps, hps⟩ := exists_pieces pattern
    rw [checkName]
    rw [ptCheckNegate_of_pieces hps (hz pattern rfl)]
    cases sys.fopenRegular file with
    | none => exact ⟨_, rfl⟩
    | some fp =>
      obtain ⟨scan, hscan⟩ := exists_checkLines sys.osRegex (readLines OS_SIZE_2048 fp) 0
        (ps.all negated) (hz pattern rfl)
      obtain ⟨alert_msg', h⟩ := exists_alertFile hlen file
      dsimp only
      rw [hscan]
      split
      case h_1 heq => cases heq
      case h_2 => exact ⟨_, rfl⟩
      case h_3 =>
        rw [h]
        exact ⟨_, rfl⟩

/-! ## A list -/

/-- Over the string at a place another one of the same length is written. -/
theorem length_write (hlen : s.length = (str (list.drop k)).length) :
    (list.take k ++ overwrite s (list.drop k)).length = list.length := by
  have hle : (str (list.drop k)).length ≤ (list.drop k).length :=
    (takeWhile_sublist _).length_le
  rw [length_append, overwrite, length_append, length_drop, length_take, hlen]
  rw [length_drop] at hle ⊢
  omega

theorem length_str_le_of_zero {i : ℕ} (h : s[i]? = some 0) : (str s).length ≤ i := by
  by_contra hlt
  rw [not_le] at hlt
  have hsplit : str s ++ s.dropWhile (· != 0) = s := takeWhile_append_dropWhile
  rw [← hsplit, getElem?_append_left hlt] at h
  exact absurd (mem_takeWhile_imp (mem_of_getElem? h)) (by decide)

/-- A zero is behind such a string, or in front of it. -/
theorem zero_write {i : ℕ} (hlen : s.length = (str (list.drop k)).length)
    (hzero : list[i]? = some 0) : (list.take k ++ overwrite s (list.drop k))[i]? = some 0 := by
  rcases lt_or_ge i k with hik | hki
  · have hi : i < list.length := List.getElem?_eq_some_iff.mp hzero |>.1
    rw [getElem?_append_left (by rw [length_take]; omega), getElem?_take_of_lt hik]
    exact hzero
  · have hk : k ≤ list.length := by
      have hi : i < list.length := List.getElem?_eq_some_iff.mp hzero |>.1
      omega
    have hdrop : (list.drop k)[i - k]? = some 0 := by
      rw [getElem?_drop, Nat.add_sub_cancel' hki]
      exact hzero
    -- no byte of the string itself is the zero
    have hbehind : s.length ≤ i - k := by
      rw [hlen]
      exact length_str_le_of_zero hdrop
    have htake : (list.take k).length = k := by rw [length_take, min_eq_left hk]
    rw [getElem?_append_right (by omega), htake, overwrite,
      getElem?_append_right hbehind, getElem?_drop, Nat.add_sub_cancel' hbehind]
    exact hdrop

/-- What the loop keeps: the pattern, and every zero in the list. -/
theorem checkFileLoop_kept {fuel : ℕ} {split_file : Option ℕ}
    (hz : ∀ p ∈ pattern, ∀ b ∈ p, b ≠ 0)
    (h : checkFileLoop sys fuel list k split_file pattern alert_msg = some r) :
    r.pattern = pattern ∧ ∀ i : ℕ, list[i]? = some 0 → r.file[i]? = some 0 := by
  induction fuel generalizing list k split_file alert_msg with
  | zero => cases h
  | succ fuel ih =>
    rw [checkFileLoop] at h
    cases hname : checkName sys alert_msg (str (list.drop k)) pattern with
    | none =>
      rw [hname] at h
      cases h
    | some c =>
      have hkept := checkName_kept hz hname
      have hzero : ∀ i : ℕ, list[i]? = some 0 →
          (list.take k ++ overwrite c.file (list.drop k))[i]? = some 0 := fun i hi =>
        zero_write hkept.length hi
      rw [hname] at h
      dsimp only at h
      split at h
      · cases h
        exact ⟨hkept.pattern, hzero⟩
      · split at h
        · cases h
          exact ⟨hkept.pattern, hzero⟩
        · split at h
          · cases h
            exact ⟨hkept.pattern, hzero⟩
          · rw [hkept.pattern] at h
            obtain ⟨hpattern, hfile⟩ := ih h
            exact ⟨hpattern, fun i hi => hfile i (hzero i hi)⟩

/-- The loop comes to an end. -/
theorem exists_checkFileLoop {fuel : ℕ} {split_file : Option ℕ}
    (hz : ∀ p ∈ pattern, ∀ b ∈ p, b ≠ 0) (hlen : alert_msg.length < alertMsgSize)
    (hfuel : list.length < fuel + k) (hk : k ≤ list.length) (hsplit : ∀ i ∈ split_file, k < i) :
    ∃ r, checkFileLoop sys fuel list k split_file pattern alert_msg = some r := by
  induction fuel generalizing list k split_file with
  | zero => omega
  | succ fuel ih =>
    obtain ⟨c, hname⟩ : ∃ c, checkName sys alert_msg (str (list.drop k)) pattern = some c :=
      exists_checkName hz hlen _
    have hkept := checkName_kept hz hname
    rw [checkFileLoop, hname]
    dsimp only
    by_cases hanswer : c.answer = true
    · rw [if_pos hanswer]
      exact ⟨_, rfl⟩
    · rw [if_neg hanswer]
      cases split_file with
      | none => exact ⟨_, rfl⟩
      | some file =>
        dsimp only
        generalize hlist : list.take k ++ overwrite c.file (list.drop k) = list'
        have hlength : list'.length = list.length := hlist ▸ length_write hkept.length
        cases hchr : strchr (chr ',') (list'.drop file) with
        | none => exact ⟨_, rfl⟩
        | some p =>
          obtain ⟨l, rest, hdrop, rfl, -⟩ := exists_of_strchr_eq_some hchr
          -- the next name is behind this one, and the comma behind the next
          have hkfile := hsplit file rfl
          have hsizes := congrArg List.length hdrop
          rw [length_drop, length_append, length_cons] at hsizes
          rw [hkept.pattern, hkept.alert_msg (Bool.eq_false_of_not_eq_true hanswer)]
          refine ih (by omega) (by omega) fun i hi => ?_
          cases hi
          rw [ptrDiff, length_cons]
          omega

/-! ## The lists that are checked as their names are -/

/-- A name alone is checked as such. -/
theorem rkCheckFile_single (hcomma : chr ',' ∉ file) (hfile : ∀ b ∈ file, b ≠ 0) :
    rkCheckFile sys alert_msg file pattern =
      (checkName sys alert_msg file pattern).map fun r => { r with file := overwrite r.file file } := by
  have hchr : strchr (chr ',') file = none := by
    rw [eq_none_iff_forall_ne_some]
    intro p hp
    obtain ⟨l, rest, rfl, -, -⟩ := exists_of_strchr_eq_some hp
    exact hcomma (by simp)
  rw [rkCheckFile, rkCheckFileOf, if_pos rfl, hchr]
  rw [checkFileLoop, drop_zero, str_eq_self hfile]
  cases checkName sys alert_msg file pattern with
  | none => rfl
  | some c =>
    dsimp only [map_some]
    rw [take_zero, nil_append, ite_self]

theorem rkCheckFile_cut {rest : Bytes} (hcomma : chr ',' ∉ a) (ha : ∀ b ∈ a, b ≠ 0)
    (hz : ∀ p ∈ pattern, ∀ b ∈ p, b ≠ 0)
    (h : rkCheckFile sys alert_msg (a ++ chr ',' :: rest) pattern = some r) :
    (str r.file).length ≤ a.length := by
  have hptr : ptrDiff (chr ',' :: rest) (a ++ chr ',' :: rest) = a.length := by
    rw [ptrDiff, length_append, Nat.add_sub_cancel]
  rw [rkCheckFile, rkCheckFileOf, if_pos rfl, strchr_append hcomma ha] at h
  dsimp only at h
  rw [hptr] at h
  refine length_str_le_of_zero ((checkFileLoop_kept hz h).2 a.length ?_)
  rw [setByte, getElem?_set_self (by rw [length_append, length_cons]; omega)]

theorem exists_rkCheckFile (hz : ∀ p ∈ pattern, ∀ b ∈ p, b ≠ 0)
    (hlen : alert_msg.length < alertMsgSize) (file : Bytes) :
    ∃ r, rkCheckFile sys alert_msg file pattern = some r := by
  rw [rkCheckFile, rkCheckFileOf, if_pos rfl]
  split
  · exact exists_checkFileLoop hz hlen (Nat.lt_succ_self _) (Nat.zero_le _) nofun
  · refine exists_checkFileLoop hz hlen ?_ (Nat.zero_le _) fun i hi => ?_
    · rw [setByte, length_set]
      exact Nat.lt_succ_self _
    · rw [← some.inj hi]
      exact Nat.succ_pos _

theorem str_eq_iff_of_length (hlen : s.length = p.length) (hp : ∀ b ∈ p, b ≠ 0) :
    str s = p ↔ s = p := by
  constructor
  · intro h
    have hpre : str s <+: s := List.takeWhile_prefix _
    rw [h] at hpre
    exact (hpre.eq_of_length hlen.symm).symm
  · rintro rfl
    exact str_eq_self hp

/-- **When a list is checked as its names are**, and it and the pattern stay as they were: if it has
only one name, of which `is_file` puts the slash back. -/
theorem rkCheckFile_law_iff (sys : System) (alert_msg : List Bytes) (names : List Bytes)
    (pattern : Option Bytes) (hne : names ≠ [])
    (hnames : ∀ name ∈ names, chr ',' ∉ name ∧ ∀ b ∈ name, b ≠ 0)
    (hz : ∀ p ∈ pattern, ∀ b ∈ p, b ≠ 0) :
    (alert_msg.length < alertMsgSize →
        ∃ r, rkCheckFile sys alert_msg (commaList names) pattern = some r) ∧
      ∀ r, rkCheckFile sys alert_msg (commaList names) pattern = some r →
        (Lawful sys alert_msg names pattern r ↔ names.length = 1 ∧
          (pattern = none → (isFile sys (commaList names)).2 = commaList names)) := by
  refine ⟨fun hlen => exists_rkCheckFile hz hlen _, fun r hr => ?_⟩
  obtain ⟨name, rest, rfl⟩ := exists_cons_of_ne_nil hne
  obtain ⟨hcomma, hname⟩ := hnames name mem_cons_self
  cases rest with
  | nil =>
    have hlist : commaList [name] = name := intercalate_singleton ..
    rw [hlist] at hr ⊢
    have hanswer : r.answer = true ↔ ∃ n ∈ [name], Answers sys alert_msg pattern n := by
      constructor
      · exact fun h => ⟨name, mem_singleton_self _, r, hr, h⟩
      · rintro ⟨n, hn, r', hr', h⟩
        rw [mem_singleton.mp hn, hr] at hr'
        rw [some.inj hr']
        exact h
    have hsingle := hr
    rw [rkCheckFile_single hcomma hname] at hsingle
    obtain ⟨c, hc, rfl⟩ := map_eq_some_iff.mp hsingle
    have hkept := checkName_kept hz hc
    have hover : overwrite c.file name = c.file := by
      rw [overwrite, hkept.length, drop_length, append_nil]
    have hfile : str c.file = name ↔ (pattern = none → (isFile sys name).2 = name) := by
      rw [str_eq_iff_of_length hkept.length hname, hkept.file]
      by_cases hpattern : pattern = none
      · rw [if_pos hpattern]
        exact ⟨fun h _ => h, fun h => h hpattern⟩
      · rw [if_neg hpattern]
        exact ⟨fun _ h => absurd h hpattern, fun _ => rfl⟩
    constructor
    · intro h
      have hstr := h.file
      dsimp only at hstr
      rw [hover, hlist] at hstr
      exact ⟨rfl, hfile.mp hstr⟩
    · rintro ⟨-, h⟩
      refine ⟨hanswer, ?_, hkept.pattern⟩
      dsimp only
      rw [hover, hlist]
      exact hfile.mpr h
  | cons name' rest =>
    have hlist : commaList (name :: name' :: rest) = name ++ chr ',' :: commaList (name' :: rest) := by
      rw [commaList, intercalate_cons_cons, append_assoc]
      rfl
    rw [hlist] at hr
    have hcut := rkCheckFile_cut hcomma hname hz hr
    constructor
    · intro h
      rw [h.file, hlist, length_append, length_cons] at hcut
      omega
    · rintro ⟨hone, -⟩
      simp at hone

/-- A system with one file in the root directory -/
def oneFile (path : Bytes) : System where
  osRegex _ _ := false
  fopenRegular _ := none
  getcwd := true
  chdir _ := false
  notDirectory file_name := file_name == path
  under _ _ := false
  chdirBack _ := true
  found file_name := file_name == path

theorem rkCheckFile_law_iff_one : ∃ r, rkCheckFile (oneFile (lit "/b")) [] (lit "/b") none = some r ∧
    Lawful (oneFile (lit "/b")) [] [lit "/b"] none r := by
  have hnames : ∀ name ∈ [lit "/b"], chr ',' ∉ name ∧ ∀ b ∈ name, b ≠ 0 := fun name h => by
    rw [mem_singleton] at h
    subst h
    exact ⟨by decide, forall_mem_of_all (by decide)⟩
  have hlaw := rkCheckFile_law_iff (oneFile (lit "/b")) [] [lit "/b"] none (by decide) hnames nofun
  obtain ⟨r, hr⟩ := hlaw.1 (by decide)
  exact ⟨r, hr, (hlaw.2 r hr).mpr ⟨rfl, fun _ => by rfl⟩⟩

/-- The second of two names is never looked for, and the list is cut. -/
theorem not_lawful_two :
    Answers (oneFile (lit "/b")) [] none (lit "/b") ∧
      ∃ r, rkCheckFile (oneFile (lit "/b")) [] (commaList [lit "/a", lit "/b"]) none = some r ∧
        r.answer = false ∧ str r.file = lit "/a" :=
  ⟨⟨_, rfl, rfl⟩, _, rfl, rfl, by rfl⟩

end Rootcheck
