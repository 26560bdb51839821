import Mathlib.Data.List.GetD
import OssecHids.Lib.Containment
import OssecHids.Lib.Pcre2

/-!
# The configured directory of a path

`rt_path_under_dir` and `rt_ovf_cfg_for_dir` of `run_realtime.c`. Both look for the place where a
directory ends in a path, the second one without regard to a directory that is all separators.

- `underDir_iff`: what `rt_path_under_dir` tests;
- `longest_iff`: the lists of directories in which `rt_ovf_cfg_for_dir` finds the longest one.
-/

open CString Containment List

namespace Overflow

/-! ## Paths -/

/-- The two sets of macros. -/
inductive Platform
  | unix
  | windows

/-- A path, as a C string. -/
@[ext]
structure Path where
  text : Bytes
  zero_notMem : 0 ∉ text
  deriving DecidableEq

namespace Platform

/-- `rt_path_sep` -/
def sep : Platform → UInt8 → Bool
  | unix, c => c == chr '/'
  | windows, c => c == chr '/' || c == chr '\\'

/-- What a byte is for `rt_path_ncmp`: the one of `strncmp`, or the one of `strncasecmp`. -/
def fold : Platform → UInt8 → UInt8
  | unix, c => c
  | windows, c => Pcre2.tolower c

/-- `rt_path_ncmp(s, t, n) == 0` -/
def ncmpEq (p : Platform) (n : ℕ) (s t : Bytes) : Bool :=
  strncmpEq n (s.map p.fold) (t.map p.fold)

end Platform

/-- The loop over the separators at the end of a directory: the length that is left. -/
def trimLen (p : Platform) (dir : Bytes) : ℕ → ℕ
  | len + 2 => if p.sep (dir.getD (len + 1) 0) then trimLen p dir (len + 1) else len + 2
  | len => len

/-- `rt_path_under_dir` -/
def rtPathUnderDir (p : Platform) (path dir : Bytes) : Bool :=
  if dir = [] then false
  else
    let len := trimLen p dir dir.length
    if !p.ncmpEq len path dir then false
    else path.getD len 0 == 0 || p.sep (path.getD len 0) || p.sep (dir.getD (len - 1) 0)

/-- A configured directory, and its options. -/
structure Dir where
  dir : Path
  opts : BitVec 32

/-- The loop of `rt_ovf_cfg_for_dir`. -/
def cfgLoop (p : Platform) (dir : Bytes) : ℕ → List Dir → Option ℕ → ℕ → Option ℕ
  | _, [], best, _ => best
  | i, d :: ds, best, best_len =>
    let len := trimLen p d.dir.text d.dir.text.length
    if len < best_len then cfgLoop p dir (i + 1) ds best best_len
    else if !p.ncmpEq len dir d.dir.text then cfgLoop p dir (i + 1) ds best best_len
    else
      let next := dir.getD len 0
      if next ≠ 0 ∧ ¬p.sep next = true then cfgLoop p dir (i + 1) ds best best_len
      else cfgLoop p dir (i + 1) ds (some i) len

/-- `rt_ovf_cfg_for_dir`: `none` is `-1`. -/
def rtOvfCfgForDir (p : Platform) (config : List Dir) (dir : Bytes) : Option ℕ :=
  cfgLoop p dir 0 config none 0

/-- The directory that is found has the path in it, and no longer one has; none has when none is
found. -/
def Longest (p : Platform) (config : List Dir) (dir : Path) : Prop :=
  match rtOvfCfgForDir p config dir.text with
  | none => ∀ d ∈ config, ¬rtPathUnderDir p dir.text d.dir.text = true
  | some i => ∃ d, config[i]? = some d ∧ rtPathUnderDir p dir.text d.dir.text = true ∧
      ∀ d' ∈ config, rtPathUnderDir p dir.text d'.dir.text = true →
        trimLen p d'.dir.text d'.dir.text.length ≤ trimLen p d.dir.text d.dir.text.length

variable {p : Platform} {config : List Dir} {path dir s t : Bytes} {n : ℕ}

/-! ## Containment -/

theorem sep_fold (p : Platform) (c : UInt8) : p.sep (p.fold c) = p.sep c := by
  cases p with
  | unix => rfl
  | windows =>
    have hsep : ∀ b, Platform.windows.sep b = true ↔ b = chr '/' ∨ b = chr '\\' := fun b => by
      rw [Platform.sep, Bool.or_eq_true, beq_iff_eq, beq_iff_eq]
    rw [Bool.eq_iff_iff, hsep, hsep, Platform.fold, Pcre2.tolower_eq_iff (by decide),
      Pcre2.tolower_eq_iff (by decide)]

theorem sep_zero (p : Platform) : p.sep 0 = false := by
  cases p with
  | unix => rfl
  | windows => rfl

theorem fold_ne_zero (p : Platform) {c : UInt8} (h : c ≠ 0) : p.fold c ≠ 0 := by
  cases p with
  | unix => exact h
  | windows => exact mt (Pcre2.tolower_eq_iff (by decide)).mp h

theorem ncmpEq_iff (ht : 0 ∉ t) (hn : n ≤ t.length) :
    p.ncmpEq n s t = true ↔ (t.take n).map p.fold <+: s.map p.fold := by
  have hlen : n = ((t.take n).map p.fold).length := by
    rw [length_map, length_take, min_eq_left hn]
  have hsplit : t.map p.fold = (t.take n).map p.fold ++ (t.drop n).map p.fold := by
    rw [← map_append, take_append_drop]
  have hzero : ∀ b ∈ (t.take n).map p.fold, b ≠ 0 := by
    intro b hb
    obtain ⟨c, hc, rfl⟩ := mem_map.mp hb
    exact fold_ne_zero p (ne_zero_of_notMem ht c (mem_of_mem_take hc))
  have hpre := strncmpEq_iff_isPrefix (t := s.map p.fold) hzero
  rwa [← hlen, ← strncmpEq_append n _ hlen.le, ← hsplit, strncmpEq_comm] at hpre

/-- The loop from `dir[len - 1]` on trims that much of the directory. -/
theorem trimLen_eq {len : ℕ} (hlen : len ≤ dir.length) :
    trimLen p dir len = (trimmed p.sep (dir.take len)).length := by
  induction len with
  | zero => rfl
  | succ len ih =>
    cases dir with
    | nil => cases hlen
    | cons b dir =>
      cases len with
      | zero => rfl
      | succ len =>
        have hlt : len < dir.length := Nat.lt_of_succ_lt_succ hlen
        have htake : dir.take (len + 1) = dir.take len ++ [dir[len]] :=
          take_succ_eq_append_getElem hlt
        have hget : (b :: dir).getD (len + 1) 0 = dir[len] := by
          rw [getD_cons_succ, getD_eq_getElem _ _ hlt]
        rw [trimLen, hget, take_succ_cons, trimmed, htake]
        by_cases hsep : p.sep dir[len] = true
        case pos =>
          rw [if_pos hsep, ih (by omega), rdropWhile_concat_pos _ _ _ hsep, take_succ_cons, trimmed]
        case neg =>
          rw [if_neg hsep, rdropWhile_concat_neg _ _ _ hsep, ← htake, length_cons,
            length_take, min_eq_left hlt]

theorem take_trimLen (p : Platform) (dir : Bytes) :
    dir.take (trimLen p dir dir.length) = trimmed p.sep dir ∧
      trimLen p dir dir.length = (trimmed p.sep dir).length := by
  have hlen : trimLen p dir dir.length = (trimmed p.sep dir).length := by
    rw [trimLen_eq le_rfl, take_length]
  obtain ⟨seps, hsplit, -⟩ := exists_trimmed p.sep dir
  have htake : (trimmed p.sep dir ++ seps).take (trimmed p.sep dir).length = trimmed p.sep dir :=
    take_left
  rw [← hsplit] at htake
  exact ⟨hlen ▸ htake, hlen⟩

theorem trimLen_le (p : Platform) (dir : Bytes) : trimLen p dir dir.length ≤ dir.length := by
  obtain ⟨htake, hlen⟩ := take_trimLen p dir
  rw [hlen, ← htake]
  exact length_take_le' _ _

theorem getD_append_length (l r : Bytes) : (l ++ r).getD l.length 0 = r.headD 0 := by
  rw [getD_append_right _ _ _ _ le_rfl, Nat.sub_self]
  cases r with
  | nil => rfl
  | cons b r => rfl

theorem exists_last_trimmed (p : Platform) (hne : dir ≠ []) :
    ∃ k a, trimmed p.sep dir = k ++ [a] ∧ dir.getD (trimLen p dir dir.length - 1) 0 = a := by
  obtain h | ⟨k, a, h⟩ := eq_nil_or_concat (trimmed p.sep dir)
  · exact absurd h (trimmed_ne_nil hne)
  · obtain ⟨seps, hsplit, -⟩ := exists_trimmed p.sep dir
    rw [concat_eq_append] at h
    refine ⟨k, a, h, ?_⟩
    rw [(take_trimLen p dir).2, h, length_append, length_singleton, Nat.add_sub_cancel]
    conv_lhs => rw [hsplit, h, append_assoc]
    exact getD_append_length k _

/-- `rt_path_under_dir` tests whether the path is in the directory. -/
theorem underDir_iff (hpath : 0 ∉ path) (hdir : 0 ∉ dir) :
    rtPathUnderDir p path dir = true ↔ Inside p.sep p.fold path dir := by
  obtain ⟨htake, hlen⟩ := take_trimLen p dir
  rw [rtPathUnderDir, Inside]
  by_cases hne : dir = []
  case pos =>
    rw [if_pos hne]
    exact iff_of_false Bool.false_ne_true fun h => h.1 hne
  case neg =>
    rw [if_neg hne]
    have hcmp : p.ncmpEq (trimLen p dir dir.length) path dir = true ↔
        (trimmed p.sep dir).map p.fold <+: path.map p.fold := by
      rw [ncmpEq_iff hdir (trimLen_le p dir), htake]
    have hlast := exists_last_trimmed p hne
    by_cases hpre : p.ncmpEq (trimLen p dir dir.length) path dir = true
    case neg =>
      rw [if_pos (by simpa using hpre)]
      refine iff_of_false Bool.false_ne_true ?_
      rintro ⟨-, l, r, rfl, hl, -⟩
      rw [hcmp, map_append, hl] at hpre
      exact hpre (prefix_append _ _)
    case pos =>
      rw [if_neg (by simpa using hpre), Bool.or_eq_true, Bool.or_eq_true, beq_iff_eq]
      obtain ⟨r', hr'⟩ := hcmp.mp hpre
      obtain ⟨l, r, rfl, hl, -⟩ := map_eq_append_iff.mp hr'.symm
      have hll : trimLen p dir dir.length = l.length := by
        rw [hlen, ← length_map p.fold, ← hl, length_map]
      obtain ⟨k, a, htrim, hget⟩ := hlast
      rw [hget, hll, getD_append_length]
      constructor
      · intro h
        refine ⟨hne, l, r, rfl, hl, ?_⟩
        rcases h with h | h
        · cases r with
          | nil => exact .inl rfl
          | cons b r =>
            have hb : b ≠ 0 := ne_zero_of_notMem hpath b (by simp)
            exact .inr (.inl ⟨b, r, rfl, h.resolve_left hb⟩)
        · exact .inr (.inr (exists_last (sep_fold p) hl ⟨k, a, htrim, h⟩))
      · rintro ⟨-, l', r', heq, hl', h⟩
        have hlength : l'.length = l.length := by
          rw [← length_map p.fold, hl', ← hl, length_map]
        obtain ⟨rfl, rfl⟩ := List.append_inj heq.symm hlength
        rcases h with rfl | ⟨b, r', rfl, hb⟩ | h
        · exact .inl (.inl rfl)
        · exact .inl (.inr hb)
        · obtain ⟨k', a', htrim', ha'⟩ := exists_last (sep_fold p) hl.symm h
          obtain ⟨-, ha⟩ := append_inj' (htrim.symm.trans htrim') rfl
          obtain rfl := singleton_inj.mp ha
          exact .inr ha'

/-! ## The configured directory -/

/-- What the loop of `rt_ovf_cfg_for_dir` tests of a directory. -/
def Hit (p : Platform) (dir d : Bytes) : Prop :=
  p.ncmpEq (trimLen p d d.length) dir d = true ∧
    ¬(dir.getD (trimLen p d d.length) 0 ≠ 0 ∧ ¬p.sep (dir.getD (trimLen p d d.length) 0) = true)

/-- The length that a directory is compared with. -/
def Dir.len (p : Platform) (d : Dir) : ℕ := trimLen p d.dir.text d.dir.text.length

/-- `Found p dir i ds best best_len res`: with the places from `i` on for `ds`, the result is `best`
if no directory that is as long is hit, and otherwise one of the longest. -/
def Found (p : Platform) (dir : Bytes) (i : ℕ) (ds : List Dir) (best : Option ℕ) (best_len : ℕ)
    (res : Option ℕ) : Prop :=
  (res = best ∧ ∀ d ∈ ds, Hit p dir d.dir.text → d.len p < best_len) ∨
    ∃ k d, ds[k]? = some d ∧ res = some (i + k) ∧ Hit p dir d.dir.text ∧ best_len ≤ d.len p ∧
      ∀ d' ∈ ds, Hit p dir d'.dir.text → d'.len p ≤ d.len p

section

variable {d : Dir} {ds : List Dir} {i best_len : ℕ} {best res : Option ℕ}

theorem Found.skip (h : Found p dir (i + 1) ds best best_len res)
    (hd : Hit p dir d.dir.text → d.len p < best_len) :
    Found p dir i (d :: ds) best best_len res := by
  refine h.imp ?_ ?_
  · rintro ⟨rfl, hlt⟩
    exact ⟨rfl, forall_mem_cons.mpr ⟨hd, hlt⟩⟩
  · rintro ⟨k, d', hk, rfl, hhit, hle, hmax⟩
    refine ⟨k + 1, d', hk, ?_, hhit, hle, forall_mem_cons.mpr ⟨?_, hmax⟩⟩
    · rw [add_assoc, add_comm 1 k]
    · exact fun hd' => ((hd hd').trans_le hle).le

theorem Found.take (h : Found p dir (i + 1) ds (some i) (d.len p) res)
    (hd : Hit p dir d.dir.text) (hlen : best_len ≤ d.len p) :
    Found p dir i (d :: ds) best best_len res := by
  refine .inr ?_
  rcases h with ⟨rfl, hlt⟩ | ⟨k, d', hk, rfl, hhit, hle, hmax⟩
  · exact ⟨0, d, rfl, rfl, hd, hlen,
      forall_mem_cons.mpr ⟨fun _ => le_rfl, fun d' hd' hhit => (hlt d' hd' hhit).le⟩⟩
  · refine ⟨k + 1, d', hk, ?_, hhit, hlen.trans hle, forall_mem_cons.mpr ⟨fun _ => hle, hmax⟩⟩
    rw [add_assoc, add_comm 1 k]

theorem cfgLoop_spec (p : Platform) (dir : Bytes) (i : ℕ) (ds : List Dir) (best : Option ℕ)
    (best_len : ℕ) : Found p dir i ds best best_len (cfgLoop p dir i ds best best_len) := by
  induction ds generalizing i best best_len with
  | nil => exact .inl ⟨rfl, fun d h => absurd h not_mem_nil⟩
  | cons d ds ih =>
    rw [cfgLoop]
    dsimp only
    split
    case isTrue hlen => exact (ih _ _ _).skip fun _ => hlen
    case isFalse hlen =>
      split
      case isTrue hcmp =>
        refine (ih _ _ _).skip fun hd => ?_
        rw [hd.1] at hcmp
        cases hcmp
      case isFalse hcmp =>
        split
        case isTrue hnext => exact (ih _ _ _).skip fun hd => absurd hnext hd.2
        case isFalse hnext =>
          have hhit : Hit p dir d.dir.text := ⟨by simpa using hcmp, hnext⟩
          exact (ih _ _ _).take hhit (Nat.le_of_not_lt hlen)

end

/-- A directory with another letter than separators is hit by the paths in it. -/
theorem hit_iff {d : Bytes} (h : ∃ b ∈ d, ¬p.sep b = true) :
    Hit p dir d ↔ rtPathUnderDir p dir d = true := by
  obtain ⟨b, hb, hsep⟩ := h
  have hne : d ≠ [] := ne_nil_of_mem hb
  obtain ⟨k, a, htrim, hget⟩ := exists_last_trimmed p hne
  have hlast : p.sep a = false := by
    rw [← Bool.not_eq_true]
    exact fun ha => hsep ((trimmed_all_iff hne).mp ⟨k, a, htrim, ha⟩ b hb)
  rw [Hit, rtPathUnderDir, if_neg hne]
  dsimp only
  rw [hget, hlast, Bool.or_false, not_and_or, not_not, not_not]
  split
  case isTrue hcmp =>
    refine iff_of_false (fun h => ?_) Bool.false_ne_true
    rw [h.1] at hcmp
    cases hcmp
  case isFalse hcmp =>
    rw [Bool.or_eq_true, beq_iff_eq]
    exact and_iff_right (by simpa using hcmp)

/-- The path of a name in a directory of separators. -/
def longPath (c : UInt8) (n : ℕ) : Bytes := c :: List.replicate n (chr 'x')

/-- No directory hits the path of a name that is too long for it, but the empty one does. -/
theorem hit_longPath_iff {d : Bytes} {c : UInt8} (hc : p.sep c = true) (hlen : d.length ≤ n) :
    Hit p (longPath c n) d ↔ d = [] := by
  constructor
  · rintro ⟨-, hnext⟩
    by_contra hne
    obtain ⟨m, hm⟩ : ∃ m, trimLen p d d.length = m + 1 := by
      rw [(take_trimLen p d).2]
      exact Nat.exists_eq_succ_of_ne_zero fun h =>
        trimmed_ne_nil hne (length_eq_zero_iff.mp h)
    have hle := trimLen_le p d
    have hget : (longPath c n).getD (m + 1) 0 = chr 'x' := by
      rw [longPath, getD_cons_succ]
      exact getD_replicate _ (by omega)
    have hx : p.sep (chr 'x') = false := by
      cases p with
      | unix => rfl
      | windows => rfl
    rw [hm, hget, hx] at hnext
    exact hnext ⟨by decide, Bool.false_ne_true⟩
  · rintro rfl
    exact ⟨rfl, fun h => h.2 hc⟩

theorem zero_notMem_longPath {c : UInt8} (hc : p.sep c = true) : 0 ∉ longPath c n := by
  rw [longPath, mem_cons, not_or]
  constructor
  · rintro rfl
    rw [sep_zero] at hc
    cases hc
  · exact fun h => absurd (eq_of_mem_replicate h) (by decide)

theorem inside_longPath {d : Bytes} {c : UInt8} (hall : ∀ b ∈ c :: d, p.sep b = true) :
    Inside p.sep p.fold (longPath c n) (c :: d) := by
  have htrim : trimmed p.sep (c :: d) = [c] := by
    rw [trimmed, rdropWhile_eq_nil_iff.mpr fun b hb => hall b (mem_cons_of_mem c hb)]
  refine ⟨cons_ne_nil c d, [c], List.replicate n (chr 'x'), rfl, by rw [htrim], ?_⟩
  exact .inr (.inr ⟨[], c, rfl, hall c mem_cons_self⟩)

theorem longest_of_hit_iff {dir : Path}
    (h : ∀ d ∈ config, (Hit p dir.text d.dir.text ↔ rtPathUnderDir p dir.text d.dir.text = true)) :
    Longest p config dir := by
  rw [Longest]
  rcases cfgLoop_spec p dir.text 0 config none 0 with ⟨hres, hnone⟩ | ⟨i, d, hi, hres, hd, -, hmax⟩
  · rw [rtOvfCfgForDir, hres]
    exact fun d hd hunder => absurd (hnone d hd ((h d hd).mpr hunder)) (Nat.not_lt_zero _)
  · rw [rtOvfCfgForDir, hres, zero_add]
    have hmem := mem_of_getElem? hi
    exact ⟨d, hi, (h d hmem).mp hd, fun d' hd' hunder => hmax d' hd' ((h d' hd').mpr hunder)⟩

/-- **When the longest directory is found** for each path: when each configured directory has
another letter than separators. -/
theorem longest_iff (p : Platform) (config : List Dir) :
    (∀ dir, Longest p config dir) ↔ ∀ d ∈ config, ∃ b ∈ d.dir.text, ¬p.sep b = true := by
  constructor
  · intro hlong d hd
    by_contra hall
    push Not at hall
    -- a name that is longer than each configured directory
    obtain ⟨n, hn⟩ : ∃ n, ∀ d ∈ config, d.dir.text.length ≤ n :=
      ⟨_, fun d hd => le_max?_getD_of_mem (k := 0) (mem_map_of_mem
        (f := fun d => d.dir.text.length) hd)⟩
    obtain ⟨c, hc, hhead⟩ : ∃ c, p.sep c = true ∧ (d.dir.text = [] ∨ ∃ s, d.dir.text = c :: s) := by
      cases htext : d.dir.text with
      | nil =>
        refine ⟨chr '/', ?_, .inl rfl⟩
        cases p with
        | unix => rfl
        | windows => rfl
      | cons c s =>
        rw [htext] at hall
        exact ⟨c, hall c mem_cons_self, .inr ⟨s, rfl⟩⟩
    have hzero : 0 ∉ longPath c n := zero_notMem_longPath hc
    have hpath := hlong ⟨longPath c n, hzero⟩
    rw [Longest] at hpath
    rcases cfgLoop_spec p (longPath c n) 0 config none 0 with
      ⟨hres, hnone⟩ | ⟨i, d', hi, hres, hd', -, -⟩
    · rw [rtOvfCfgForDir, hres] at hpath
      rcases hhead with hnil | ⟨s, hs⟩
      · have hhit := (hit_longPath_iff hc (hn d hd)).mpr hnil
        exact absurd (hnone d hd hhit) (Nat.not_lt_zero _)
      · refine hpath d hd ((underDir_iff hzero d.dir.zero_notMem).mpr ?_)
        rw [hs] at hall ⊢
        exact inside_longPath hall
    · rw [rtOvfCfgForDir, hres, zero_add] at hpath
      obtain ⟨d'', hi', hunder, -⟩ := hpath
      obtain rfl := Option.some.inj (hi.symm.trans hi')
      have hnil := (hit_longPath_iff hc (hn d' (mem_of_getElem? hi))).mp hd'
      rw [hnil] at hunder
      cases hunder
  · exact fun h dir => longest_of_hit_iff fun d hd => hit_iff (h d hd)

end Overflow
