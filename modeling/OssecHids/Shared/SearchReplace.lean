import OssecHids.Lib.Search
import OssecHids.Lib.Substitution

/-!
# Search and replace

`searchAndReplace` and `escape_newlines` of `custom_output_search_replace.c`, on a heap whose bytes are
not known.

- `searchAndReplace_eq`: the buffer that is returned holds the replaced text and its zero byte;
- `escapeNewlines`: a line of a text of several lines.
-/

open CString Substitution List Option

/-- `realloc(buf, n)`: the bytes that are added are the ones the heap has there. -/
def realloc (heap : ℕ → UInt8) (buf : Bytes) (n : ℕ) : Bytes :=
  buf.take n ++ (List.range' buf.length (n - buf.length)).map heap

/-- `malloc(n)` -/
def malloc (heap : ℕ → UInt8) (n : ℕ) : Bytes := realloc heap [] n

/-- `strncpy(buf + p, s, n)`: zero bytes follow the end of `s`. -/
def strncpyAt (buf : Bytes) (p : ℕ) (s : Bytes) (n : ℕ) : Option Bytes :=
  let t := strncpy n s
  if p + n ≤ buf.length then
    some (buf.take p ++ (t ++ List.replicate (n - t.length) 0) ++ buf.drop (p + n))
  else none

namespace SearchReplace

/-- The variables of the loop. -/
structure Copy where
  inx_start : ℕ
  from_ : ℕ
  tmp : Bytes
  tmp_offset : ℕ
  total_bytes_allocated : ℕ

/-- `while (p != NULL) { ... }` -/
def copyLoop (heap : ℕ → UInt8) (orig search value : Bytes) : ℕ → Copy → Option Copy
  | 0, _ => none
  | fuel + 1, c => do
    let total := c.total_bytes_allocated + value.length
    let tmp ← strncpyAt (realloc heap c.tmp total) c.tmp_offset value value.length
    let tmp_offset := c.tmp_offset + value.length
    match strstr search (orig.drop (c.inx_start + search.length)) with
    | none => some ⟨c.inx_start, c.inx_start + search.length, tmp, tmp_offset, total⟩
    | some p =>
      let inx_start2 := ptrDiff p orig
      if c.from_ < inx_start2 then
        let gap := inx_start2 - c.from_
        let tmp ← strncpyAt (realloc heap tmp (total + gap)) tmp_offset (orig.drop c.from_) gap
        copyLoop heap orig search value fuel
          ⟨inx_start2, inx_start2 + search.length, tmp, tmp_offset + gap, total + gap⟩
      else
        copyLoop heap orig search value fuel
          ⟨inx_start2, inx_start2 + search.length, tmp, tmp_offset, total⟩

/-- The content before the first match. -/
def copyFirst (heap : ℕ → UInt8) (orig : Bytes) (inx_start : ℕ) : Option Bytes :=
  if 0 < inx_start then strncpyAt (malloc heap (inx_start + 1)) 0 orig inx_start else some []

/-- The content after the last match, and the zero byte. -/
def copyLast (heap : ℕ → UInt8) (orig : Bytes) (c : Copy) : Option Bytes :=
  if c.from_ < orig.length ∧ 0 < c.from_ then
    let rest := orig.length - c.from_
    let total := c.total_bytes_allocated + rest
    (strncpyAt (realloc heap c.tmp total) c.tmp_offset (orig.drop c.from_) rest).map
      fun tmp => setByte tmp (total - 1) 0
  else
    some (setByte c.tmp (c.total_bytes_allocated - 1) 0)

end SearchReplace

open SearchReplace in
/-- `searchAndReplace`: the buffer that is returned. -/
def searchAndReplace (heap : ℕ → UInt8) (orig search value : Bytes) : Option Bytes :=
  match strstr search orig with
  | none => some (orig ++ [0])
  | some p => do
    let inx_start := ptrDiff p orig
    let tmp ← copyFirst heap orig inx_start
    let total := if 0 < inx_start then inx_start + 1 else 1
    let c ← copyLoop heap orig search value (orig.length + 1)
      ⟨inx_start, inx_start + search.length, tmp, inx_start, total⟩
    copyLast heap orig c

/-- `escape_newlines` -/
def escapeNewlines : Bytes → Bytes
  | [] => []
  | b :: s =>
    if b = chr '\n' then chr '\\' :: chr 'n' :: escapeNewlines s
    else if b = chr '\r' then chr '\\' :: chr 'n' :: escapeNewlines s
    else b :: escapeNewlines s

namespace SearchReplace

variable {heap : ℕ → UInt8} {orig search value buf s p r : Bytes} {k n : ℕ} {c : Copy}

/-! ## Copying -/

theorem length_realloc (h : buf.length ≤ n) : (realloc heap buf n).length = n := by
  rw [realloc, length_append, length_map, length_range', take_of_length_le h]
  omega

theorem take_realloc (hk : k ≤ buf.length) (h : buf.length ≤ n) :
    (realloc heap buf n).take k = buf.take k := by
  rw [realloc, take_of_length_le h, take_append_of_le_length hk]

/-- Room for `n` bytes is made in front of the last byte, and they are written there. -/
theorem copy_eq (hk : k ≤ buf.length) (hbuf : buf.length ≤ k + 1) (hn : n ≤ s.length)
    (hz : 0 ∉ s) :
    ∃ b, strncpyAt (realloc heap buf (k + 1 + n)) k s n = some (buf.take k ++ s.take n ++ [b]) := by
  have htext : strncpy n s = s.take n := by
    rw [strncpy, str, takeWhile_eq_self_iff]
    intro b hb
    have hne : b ≠ 0 := fun h => hz (h ▸ mem_of_mem_take hb)
    simpa using hne
  have hlen : (realloc heap buf (k + 1 + n)).length = k + 1 + n := length_realloc (by omega)
  have hlast : ((realloc heap buf (k + 1 + n)).drop (k + n)).length = 1 := by
    rw [length_drop, hlen]
    omega
  obtain ⟨b, hb⟩ := length_eq_one_iff.mp hlast
  refine ⟨b, ?_⟩
  rw [strncpyAt, if_pos (by omega), hb, htext, length_take_of_le hn, Nat.sub_self,
    replicate_zero, append_nil, take_realloc hk (by omega)]

/-! ## Searching -/

theorem replaceAll_of_strstr_none (h : strstr search s = none) : replaceAll search value s = s := by
  induction s with
  | nil => rfl
  | cons b s ih =>
    rw [strstr] at h
    split at h
    · cases h
    · rename_i hpre
      rw [replaceAll_cons_of_ne fun h => hpre (List.isPrefixOf_iff_prefix.mpr h), ih h]

/-- The first place of a text, and what is to be made of the text behind it. -/
theorem exists_of_strstr_some (hne : search ≠ []) (h : strstr search s = some p) :
    ∃ l r, s = l ++ p ∧ p = search ++ r ∧
      replaceAll search value s = l ++ (value ++ replaceAll search value r) := by
  induction s with
  | nil =>
    rw [strstr, if_neg hne] at h
    cases h
  | cons b s ih =>
    rw [strstr] at h
    split at h
    · rename_i hpre
      cases h
      obtain ⟨r, hr⟩ := List.isPrefixOf_iff_prefix.mp hpre
      refine ⟨[], r, rfl, hr.symm, ?_⟩
      rw [← hr, replaceAll_append hne, nil_append]
    · rename_i hpre
      obtain ⟨l, r, rfl, hp, hreplace⟩ := ih h
      refine ⟨b :: l, r, rfl, hp, ?_⟩
      rw [replaceAll_cons_of_ne fun h => hpre (List.isPrefixOf_iff_prefix.mpr h), hreplace,
        cons_append]

/-! ## The loop -/

/-- In front of a replacement: what is behind the place is `r`, and the last byte of what is
allocated may still be missing. -/
structure Copy.Front (orig search : Bytes) (c : Copy) (r : Bytes) : Prop where
  drop_eq : orig.drop c.from_ = r
  from_eq : c.from_ = c.inx_start + search.length
  total_eq : c.total_bytes_allocated = c.tmp_offset + 1
  le_length : c.tmp_offset ≤ c.tmp.length
  length_le : c.tmp.length ≤ c.tmp_offset + 1

/-- Behind the loop: what is copied, and what is still to be copied. -/
structure Copy.Left (orig : Bytes) (c : Copy) (text : Bytes) : Prop where
  length_eq : c.tmp.length = c.tmp_offset + 1
  total_eq : c.total_bytes_allocated = c.tmp_offset + 1
  from_pos : 0 < c.from_
  text_eq : c.tmp.take c.tmp_offset ++ orig.drop c.from_ = text

theorem copyLoop_eq (hne : search ≠ []) (hz : 0 ∉ orig) (hzv : 0 ∉ value) {fuel : ℕ}
    (hc : c.Front orig search r) (hfuel : r.length < fuel) :
    ∃ c', copyLoop heap orig search value fuel c = some c' ∧
      c'.Left orig (c.tmp.take c.tmp_offset ++ (value ++ replaceAll search value r)) := by
  induction fuel generalizing c r with
  | zero => cases hfuel
  | succ fuel ih =>
    have hpos := length_pos_of_ne_nil hne
    have hoffset : (c.tmp.take c.tmp_offset).length = c.tmp_offset :=
      length_take_of_le hc.le_length
    obtain ⟨b, hvalue⟩ := @copy_eq heap c.tmp value c.tmp_offset value.length hc.le_length
      hc.length_le le_rfl hzv
    rw [take_length] at hvalue
    rw [copyLoop, hc.total_eq, ← hc.from_eq, hc.drop_eq, hvalue, bind_eq_bind, bind_some]
    have hlen : (c.tmp.take c.tmp_offset ++ value ++ [b]).length =
        c.tmp_offset + value.length + 1 := by
      rw [length_append, length_append, hoffset, length_singleton]
    have htake : (c.tmp.take c.tmp_offset ++ value ++ [b]).take (c.tmp_offset + value.length) =
        c.tmp.take c.tmp_offset ++ value := by
      refine take_left' ?_
      rw [length_append, hoffset]
    cases hfind : strstr search r with
    | none =>
      refine ⟨_, rfl, hlen, by dsimp only; omega, by have := hc.from_eq; dsimp only; omega, ?_⟩
      rw [htake, hc.drop_eq, replaceAll_of_strstr_none hfind, append_assoc]
    | some p =>
      obtain ⟨l, r', rfl, rfl, hreplace⟩ := @exists_of_strstr_some search value r p hne hfind
      have hplace : ptrDiff (search ++ r') orig = c.from_ + l.length := by
        have hdrop := congrArg List.length hc.drop_eq
        rw [length_drop, length_append] at hdrop
        rw [ptrDiff]
        rw [length_append] at hdrop ⊢
        omega
      have hbehind : orig.drop (c.from_ + l.length + search.length) = r' := by
        rw [add_assoc, ← drop_drop, hc.drop_eq, ← append_assoc, drop_left']
        rw [length_append]
      have hfuel' : r'.length < fuel := by
        rw [length_append, length_append] at hfuel
        omega
      rw [hreplace]
      dsimp only
      rw [hplace]
      by_cases hgap : c.from_ < c.from_ + l.length
      case pos =>
        -- the bytes in front of the place are copied
        obtain ⟨b', hcopy⟩ := @copy_eq heap (c.tmp.take c.tmp_offset ++ value ++ [b])
          (orig.drop c.from_) (c.tmp_offset + value.length) l.length (by omega) (by omega)
          (by rw [hc.drop_eq, length_append]; omega) fun h => hz (mem_of_mem_drop h)
        rw [htake, hc.drop_eq, take_left] at hcopy
        have htext : (c.tmp.take c.tmp_offset ++ value ++ l).length =
            c.tmp_offset + value.length + l.length := by
          rw [length_append, length_append, hoffset]
        have hlen' : (c.tmp.take c.tmp_offset ++ value ++ l ++ [b']).length =
            c.tmp_offset + value.length + l.length + 1 := by
          rw [length_append, htext, length_singleton]
        obtain ⟨c', hloop, hleft⟩ := @ih r'
          ⟨c.from_ + l.length, c.from_ + l.length + search.length,
            c.tmp.take c.tmp_offset ++ value ++ l ++ [b'], c.tmp_offset + value.length + l.length,
            c.tmp_offset + value.length + l.length + 1⟩
          ⟨hbehind, rfl, rfl, by dsimp only; omega, by dsimp only; omega⟩ hfuel'
        rw [if_pos hgap, Nat.add_sub_cancel_left, Nat.add_right_comm c.tmp_offset 1, hcopy,
          bind_some, add_right_comm (c.tmp_offset + value.length) 1]
        refine ⟨c', hloop, ?_⟩
        rw [take_left' htext] at hleft
        rwa [append_assoc, append_assoc] at hleft
      case neg =>
        obtain rfl : l = [] := length_eq_zero_iff.mp (by omega)
        obtain ⟨c', hloop, hleft⟩ := @ih r'
          ⟨c.from_ + 0, c.from_ + 0 + search.length, c.tmp.take c.tmp_offset ++ value ++ [b],
            c.tmp_offset + value.length, c.tmp_offset + value.length + 1⟩
          ⟨hbehind, rfl, rfl, by dsimp only; omega, by dsimp only; omega⟩ hfuel'
        rw [if_neg hgap, add_right_comm c.tmp_offset 1]
        refine ⟨c', hloop, ?_⟩
        rw [htake] at hleft
        rwa [append_assoc] at hleft

theorem exists_copyFirst (hz : 0 ∉ orig) {l : Bytes} (horig : orig = l ++ (search ++ r)) :
    ∃ tmp, copyFirst heap orig l.length = some tmp ∧ tmp.take l.length = l ∧
      Copy.Front orig search ⟨l.length, l.length + search.length, tmp, l.length,
        if 0 < l.length then l.length + 1 else 1⟩ r := by
  have hdrop : orig.drop (l.length + search.length) = r := by
    rw [horig, ← append_assoc, drop_left']
    rw [length_append]
  by_cases hpos : 0 < l.length
  case pos =>
    have hlen : l.length ≤ orig.length := by
      rw [horig, length_append]
      exact Nat.le_add_right _ _
    obtain ⟨b, hcopy⟩ := @copy_eq heap [] orig 0 l.length (Nat.zero_le _) (Nat.zero_le _) hlen hz
    have htake : orig.take l.length = l := by rw [horig, take_left]
    rw [zero_add, add_comm 1, htake] at hcopy
    refine ⟨l ++ [b], ?_, take_left, hdrop, rfl, if_pos hpos, ?_, ?_⟩
    · rw [copyFirst, if_pos hpos]
      exact hcopy
    · exact length_append.symm ▸ Nat.le_add_right _ _
    · exact length_append.symm ▸ le_rfl
  case neg =>
    obtain rfl : l = [] := length_eq_zero_iff.mp (by omega)
    exact ⟨[], rfl, rfl, hdrop, rfl, rfl, le_rfl, Nat.zero_le _⟩

theorem setByte_append (s : Bytes) (b : UInt8) : setByte (s ++ [b]) s.length 0 = s ++ [0] := by
  rw [setByte, set_append_right _ _ le_rfl, Nat.sub_self]
  rfl

theorem copyLast_eq (hz : 0 ∉ orig) {text : Bytes} (hc : c.Left orig text) :
    copyLast heap orig c = some (text ++ [0]) := by
  have hlen := hc.length_eq
  have hoffset : (c.tmp.take c.tmp_offset).length = c.tmp_offset :=
    length_take_of_le (by omega)
  rw [copyLast, hc.total_eq]
  by_cases hrest : c.from_ < orig.length
  case pos =>
    obtain ⟨b, hcopy⟩ := @copy_eq heap c.tmp (orig.drop c.from_) c.tmp_offset
      (orig.length - c.from_) (by omega) hlen.le length_drop.ge
      fun h => hz (mem_of_mem_drop h)
    rw [take_of_length_le length_drop.le, hc.text_eq] at hcopy
    have htext : c.tmp_offset + 1 + (orig.length - c.from_) - 1 = text.length := by
      rw [← hc.text_eq, length_append, hoffset, length_drop]
      omega
    rw [if_pos ⟨hrest, hc.from_pos⟩]
    dsimp only
    rw [hcopy, map_some, htext, setByte_append]
  case neg =>
    have hdrop : orig.drop c.from_ = [] := drop_eq_nil_of_le (not_lt.mp hrest)
    have htext := hc.text_eq
    rw [hdrop, append_nil] at htext
    have hlast : (c.tmp.drop c.tmp_offset).length = 1 := by
      rw [length_drop, hlen, Nat.add_sub_cancel_left]
    obtain ⟨b, hb⟩ := length_eq_one_iff.mp hlast
    have htmp : c.tmp = text ++ [b] := by rw [← htext, ← hb, take_append_drop]
    have hend : c.tmp_offset = text.length := by rw [← htext, hoffset]
    rw [if_neg fun h => hrest h.1, Nat.add_sub_cancel, hend, htmp, setByte_append]

/-- The buffer holds the replaced text and a zero byte, and no more. -/
theorem searchAndReplace_eq (hne : search ≠ []) (hz : 0 ∉ orig) (hzv : 0 ∉ value) :
    searchAndReplace heap orig search value = some (replaceAll search value orig ++ [0]) := by
  rw [searchAndReplace]
  cases hfind : strstr search orig with
  | none => rw [replaceAll_of_strstr_none hfind]
  | some p =>
    obtain ⟨l, r, horig, rfl, hreplace⟩ := @exists_of_strstr_some search value orig p hne hfind
    have hplace : ptrDiff (search ++ r) orig = l.length := by
      rw [ptrDiff, horig, length_append, Nat.add_sub_cancel]
    have hfuel : r.length < orig.length + 1 := by
      rw [horig, length_append, length_append]
      omega
    obtain ⟨tmp, hfirst, htake, hfront⟩ := @exists_copyFirst heap orig search r hz l horig
    obtain ⟨c, hloop, hleft⟩ := @copyLoop_eq heap orig search value r _ hne hz hzv _ hfront hfuel
    rw [htake, ← hreplace] at hleft
    dsimp only
    rw [hplace, bind_eq_bind, hfirst, bind_some, bind_eq_bind, hloop,
      bind_some, copyLast_eq hz hleft]

/-! ## The pieces between the occurrences -/

/-- `Cut search s ps`: the pieces `ps` of a string that stand in front of, between and behind the
leftmost occurrences of `search` that do not overlap. -/
inductive Cut (search : Bytes) : Bytes → List Bytes → Prop
  | last {s : Bytes} : ¬search <:+: s → Cut search s [s]
  | hit {l r : Bytes} {ps : List Bytes} :
    (∀ l' r', l ++ (search ++ r) = l' ++ (search ++ r') → l.length ≤ l'.length) →
    Cut search r ps → Cut search (l ++ (search ++ r)) (l :: ps)

variable {ps : List Bytes}

theorem Cut.ne_nil (h : Cut search s ps) : ps ≠ [] := by
  cases h with
  | last => exact cons_ne_nil _ _
  | hit => exact cons_ne_nil _ _

theorem Cut.intercalate_eq (h : Cut search s ps) : search.intercalate ps = s := by
  induction h with
  | last => exact intercalate_singleton
  | hit _ hcut ih => rw [intercalate_cons_of_ne_nil hcut.ne_nil, ih, append_assoc]

/-- A string has its pieces, and what is replaced is what stands between them. -/
theorem exists_cut (hne : search ≠ []) (value s : Bytes) :
    ∃ ps, Cut search s ps ∧ replaceAll search value s = value.intercalate ps := by
  induction hn : s.length using Nat.strongRecOn generalizing s with
  | _ n ih =>
    cases hfind : strstr search s with
    | none =>
      refine ⟨[s], .last ?_, ?_⟩
      · rintro ⟨l, r, hs⟩
        obtain ⟨l', -, hl'⟩ := exists_strstr l search r
        rw [← append_assoc, hs, hfind] at hl'
        cases hl'
      · rw [replaceAll_of_strstr_none hfind, intercalate_singleton]
    | some p =>
      obtain ⟨l, r, rfl, rfl, hreplace⟩ := @exists_of_strstr_some search value s p hne hfind
      have hpos := length_pos_of_ne_nil hne
      have hshort : r.length < n := by
        rw [← hn, length_append, length_append]
        omega
      obtain ⟨ps, hcut, hps⟩ := ih r.length hshort r rfl
      refine ⟨l :: ps, .hit (fun l' r' heq => ?_) hcut, ?_⟩
      · -- `strstr` finds an occurrence that is in front of every other one
        obtain ⟨l₀, hl₀, hfirst⟩ := exists_strstr l' search r'
        rw [← heq, hfind] at hfirst
        have hrest := congrArg List.length (some.inj hfirst)
        have hsame := congrArg List.length heq
        have hle := hl₀.length_le
        simp only [length_append] at hrest hsame
        omega
      · rw [hreplace, hps, intercalate_cons_of_ne_nil hcut.ne_nil, append_assoc]

theorem sublist_intercalate (value : Bytes) (ps : List Bytes) :
    ps.flatten.Sublist (value.intercalate ps) := by
  induction ps with
  | nil => exact List.Sublist.refl _
  | cons p ps ih =>
    rw [flatten_cons]
    by_cases hps : ps = []
    case pos =>
      subst hps
      rw [flatten_nil, append_nil, intercalate_singleton]
    case neg =>
      rw [intercalate_cons_of_ne_nil hps, append_assoc]
      exact (List.Sublist.refl p).append (ih.trans (sublist_append_right _ _))

/-- The pieces are put together again with the replacement between them, and a zero byte ends a
buffer that is not longer than that. -/
theorem searchAndReplace_law (heap : ℕ → UInt8) (orig search value : Bytes) (hne : search ≠ [])
    (hz : 0 ∉ orig) (hzv : 0 ∉ value) :
    ∃ ps, Cut search orig ps ∧ search.intercalate ps = orig ∧
      searchAndReplace heap orig search value = some (value.intercalate ps ++ [0]) ∧
      ps.flatten.Sublist (value.intercalate ps) := by
  obtain ⟨ps, hcut, hps⟩ := exists_cut hne value orig
  refine ⟨ps, hcut, hcut.intercalate_eq, ?_, sublist_intercalate value ps⟩
  rw [searchAndReplace_eq hne hz hzv, hps]

/-- Occurrences at the start, at the end and next to each other. -/
theorem searchAndReplace_law_commas :
    ∃ ps, Cut (lit ",,") (lit ",,,a,,,,") ps ∧ (lit ",,").intercalate ps = lit ",,,a,,,," ∧
      searchAndReplace (fun _ => 0xa5) (lit ",,,a,,,,") (lit ",,") (lit "; ") =
        some ((lit "; ").intercalate ps ++ [0]) ∧ ps.flatten.Sublist ((lit "; ").intercalate ps) :=
  searchAndReplace_law _ _ _ _ (by decide) (by decide) (by decide)

end SearchReplace
