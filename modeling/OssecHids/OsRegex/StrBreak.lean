import Mathlib.Data.List.Zip
import OssecHids.Lib.CString
import OssecHids.Lib.Fields

/-!
# Breaking a string into pieces

`OS_StrBreak`, with every write to the array that it returns. Memory is never short.

- `breakLoop_eq`: the loop cuts off the fields of the string, but for the last one;
- `arrayOf_pieces`: what is in the array afterwards;
- `slots_of_size_zero`: which slots are written without a size;
- `osStrBreak_splits_iff`: for which sizes the string is split as it should be.
-/

open CString Fields List Function

namespace OsRegex

def SIZE_MAX : UInt64 := 18446744073709551615

/-- The local variables of the loop. -/
structure Break where
  count : ℕ
  i : ℕ
  tmp_str : Bytes
  /-- What has been written to `ret`: the slot, and the string or `NULL`. -/
  writes : List (ℕ × Option Bytes)

/-- The loop over the string. -/
def breakLoop (c : UInt8) (size : UInt64) : Break → Bytes → Break
  | s, [] => s
  | s, b :: str =>
    let i := s.i + 1
    if s.count < (size - 1).toNat ∧ b = c then
      breakLoop c size
        { count := s.count + 1
          i := 0
          tmp_str := str
          writes := s.writes ++ [(s.count, some (s.tmp_str.take (i - 1)))] } str
    else breakLoop c size { s with i := i } str

/-- The array after some writes. -/
def arrayOf (writes : List (ℕ × Option Bytes)) : ℕ → Option Bytes :=
  writes.foldl (fun ret w => Function.update ret w.1 w.2) fun _ => none

/-- What a call does: the writes to the array of `size + 1` slots, and the array if it is returned. -/
structure Broken where
  writes : List (ℕ × Option Bytes)
  ret : Option (ℕ → Option Bytes)

/-- `OS_StrBreak`. For the greatest size, the loop that clears the array has no end. -/
def osStrBreak (c : UInt8) (str : Bytes) (size : UInt64) : Option Broken :=
  if size = SIZE_MAX then none
  else
    let cleared := (List.range (size.toNat + 1)).map fun i => (i, none)
    let s := breakLoop c size { count := 0, i := 0, tmp_str := str, writes := cleared } str
    if s.count < size.toNat then
      let writes := s.writes ++ [(s.count, some (s.tmp_str.take s.i)), (s.count + 1, none)]
      some { writes := writes, ret := some (arrayOf writes) }
    else some { writes := s.writes, ret := none }

/-! ## The pieces -/

section Pieces

variable {c : UInt8} {str before : Bytes} {size : UInt64} {s : Break}

/-- The strings that are cut off, with their slots. -/
def numbered (count : ℕ) (pieces : List Bytes) : List (ℕ × Option Bytes) :=
  pieces.zipIdx.map fun p => (count + p.2, some p.1)

theorem numbered_cons (count : ℕ) (piece : Bytes) (pieces : List Bytes) :
    numbered count (piece :: pieces) = (count, some piece) :: numbered (count + 1) pieces := by
  rw [numbered, zipIdx_cons, map_cons, zipIdx_succ, List.map_map, numbered]
  congr 2
  funext p
  show (count + (p.2 + 1), some p.1) = _
  rw [add_comm p.2 1, add_assoc]

/-- The loop cuts the fields off that have another behind them, as long as there is room. -/
theorem breakLoop_eq {m : ℕ} (hsize : s.count + m = (size - 1).toNat)
    (htmp : s.tmp_str = before ++ str) (hi : s.i = before.length) (hbefore : m = 0 ∨ c ∉ before) :
    ∃ pieces last, splitMax c (m + 1) (before ++ str) = pieces ++ [last] ∧
      (breakLoop c size s str).count = s.count + pieces.length ∧
      (breakLoop c size s str).writes = s.writes ++ numbered s.count pieces ∧
      (breakLoop c size s str).tmp_str.take (breakLoop c size s str).i = last := by
  induction str generalizing s before m with
  | nil =>
    rw [append_nil] at htmp ⊢
    have hsplit : splitMax c (m + 1) before = [before] := by
      rcases hbefore with rfl | hbefore
      · rfl
      · exact splitMax_of_notMem hbefore
    refine ⟨[], before, hsplit, rfl, (append_nil _).symm, ?_⟩
    show s.tmp_str.take s.i = before
    rw [htmp, hi, take_length]
  | cons b str ih =>
    rw [breakLoop]
    by_cases hcut : s.count < (size - 1).toNat ∧ b = c
    · obtain ⟨hcount, rfl⟩ := hcut
      obtain ⟨m, rfl⟩ : ∃ m', m = m' + 1 := ⟨m - 1, by omega⟩
      have hc := hbefore.resolve_left (Nat.succ_ne_zero m)
      have hpiece : s.tmp_str.take (s.i + 1 - 1) = before := by
        rw [htmp, hi, Nat.add_sub_cancel, take_left]
      obtain ⟨pieces, last, hsplit, hcount', hwrites, hlast⟩ :=
        @ih [] { count := s.count + 1, i := 0, tmp_str := str,
                 writes := s.writes ++ [(s.count, some (s.tmp_str.take (s.i + 1 - 1)))] } m
          (by dsimp only; omega) rfl rfl (.inr not_mem_nil)
      rw [if_pos ⟨hcount, rfl⟩]
      refine ⟨before :: pieces, last, ?_, ?_, ?_, hlast⟩
      · rw [splitMax_append_cons hc, show str = [] ++ str from rfl, hsplit, cons_append]
      · rw [hcount', length_cons]
        dsimp only
        omega
      · rw [hwrites, hpiece, numbered_cons, append_assoc]
        rfl
    · rw [if_neg hcut]
      have hshift : before ++ b :: str = (before ++ [b]) ++ str := by simp
      obtain ⟨pieces, last, hsplit, hcount', hwrites, hlast⟩ :=
        @ih (before ++ [b]) { s with i := s.i + 1 } m hsize (htmp.trans hshift)
          (by simp [hi]) (by
            by_cases hm : m = 0
            · exact .inl hm
            · refine .inr fun hmem => ?_
              rcases mem_append.mp hmem with hmem | hmem
              · exact hbefore.resolve_left hm hmem
              · exact hcut ⟨by omega, (mem_singleton.mp hmem).symm⟩)
      rw [hshift]
      exact ⟨pieces, last, hsplit, hcount', hwrites, hlast⟩

theorem arrayOf_append (writes writes' : List (ℕ × Option Bytes)) :
    arrayOf (writes ++ writes') =
      writes'.foldl (fun ret w => Function.update ret w.1 w.2) (arrayOf writes) :=
  foldl_append

theorem foldl_numbered (ret : ℕ → Option Bytes) (count : ℕ) (pieces : List Bytes) (j : ℕ) :
    (numbered count pieces).foldl (fun ret w => Function.update ret w.1 w.2) ret j =
      if j < count then ret j else (pieces[j - count]?).or (ret j) := by
  induction pieces generalizing ret count with
  | nil =>
    show ret j = _
    simp
  | cons piece pieces ih =>
    rw [numbered_cons, foldl_cons, ih]
    rcases Nat.lt_trichotomy j count with hj | rfl | hj
    · rw [if_pos (by omega), if_pos hj, update_of_ne (by omega)]
    · rw [if_pos (by omega), if_neg (by omega), update_self, Nat.sub_self]
      rfl
    · obtain ⟨k, hk⟩ : ∃ k, j - count = k + 1 := ⟨j - count - 1, by omega⟩
      rw [if_neg (by omega), if_neg (by omega), update_of_ne (by omega),
        show j - (count + 1) = k by omega, hk, getElem?_cons_succ]

/-- The array holds the pieces, and `NULL` behind them. -/
theorem arrayOf_pieces {cleared : List (ℕ × Option Bytes)} (hcleared : ∀ w ∈ cleared, w.2 = none)
    (pieces : List Bytes) (j : ℕ) :
    arrayOf (cleared ++ numbered 0 pieces ++ [(pieces.length, none)]) j = pieces[j]? := by
  have hnone : ∀ j, arrayOf cleared j = none := by
    suffices ∀ ret : ℕ → Option Bytes, (∀ j, ret j = none) →
        ∀ j, cleared.foldl (fun ret w => Function.update ret w.1 w.2) ret j = none from
      this _ fun _ => rfl
    induction cleared with
    | nil => exact fun ret hret => hret
    | cons w cleared ih =>
      rw [forall_mem_cons] at hcleared
      intro ret hret
      rw [foldl_cons]
      apply ih hcleared.2
      intro j
      by_cases hj : j = w.1
      · rw [hj, update_self, hcleared.1]
      · rw [update_of_ne hj, hret]
  rw [arrayOf_append, arrayOf_append, foldl_cons, foldl_nil]
  by_cases hj : j = pieces.length
  · rw [hj, update_self, getElem?_eq_none le_rfl]
  · rw [update_of_ne hj, foldl_numbered, if_neg (Nat.not_lt_zero j), Nat.sub_zero, hnone,
      Option.or_none]

end Pieces

/-! ## The call -/

section Call

variable {c : UInt8} {str : Bytes} {size : UInt64}

theorem numbered_concat (count : ℕ) (pieces : List Bytes) (last : Bytes) :
    numbered count (pieces ++ [last]) =
      numbered count pieces ++ [(count + pieces.length, some last)] := by
  rw [numbered, zipIdx_append, map_append, numbered, zero_add]
  rfl

theorem lt_of_mem_numbered {count : ℕ} {pieces : List Bytes} {w : ℕ × Option Bytes}
    (h : w ∈ numbered count pieces) : w.1 < count + pieces.length := by
  obtain ⟨p, hp, rfl⟩ := mem_map.mp h
  have hlt := snd_lt_of_mem_zipIdx hp
  dsimp only
  omega

/-- What a call does for a size, in terms of the fields of the string. -/
theorem osStrBreak_eq (hsize : size ≠ SIZE_MAX) (hzero : size ≠ 0) :
    ∃ r ret, osStrBreak c str size = some r ∧ r.ret = some ret ∧
      (∀ w ∈ r.writes, w.1 < size.toNat + 1) ∧
      ∀ j, ret j = (splitMax c size.toNat str)[j]? := by
  have hpos : 0 < size.toNat := Nat.pos_of_ne_zero fun h => hzero (UInt64.toNat_inj.mp h)
  have hpred : (size - 1).toNat = size.toNat - 1 := by
    have hone : (1 : UInt64) ≤ size := UInt64.le_iff_toNat_le.mpr hpos
    rw [UInt64.toNat_sub_of_le _ _ hone]
    rfl
  obtain ⟨cleared, hcleared⟩ : ∃ cleared : List (ℕ × Option Bytes),
    cleared = (List.range (size.toNat + 1)).map fun i => (i, none) := ⟨_, rfl⟩
  obtain ⟨pieces, last, hsplit, hcount, hwrites, hlast⟩ :=
    @breakLoop_eq c str [] size { count := 0, i := 0, tmp_str := str, writes := cleared }
      (size.toNat - 1) (by rw [hpred]; exact zero_add _) rfl rfl (.inr not_mem_nil)
  rw [nil_append, Nat.sub_add_cancel hpos] at hsplit
  dsimp only at hcount hwrites
  rw [zero_add] at hcount
  have hlen : pieces.length + 1 ≤ size.toNat := by
    have hle := length_splitMax_le c (size.toNat - 1) str
    rw [Nat.sub_add_cancel hpos, hsplit, length_append] at hle
    exact hle
  rw [osStrBreak, if_neg hsize, ← hcleared]
  dsimp only
  rw [if_pos (by rw [hcount]; omega), hcount, hwrites, hlast]
  have hall : cleared ++ numbered 0 pieces ++ [(pieces.length, some last), (pieces.length + 1, none)] =
      cleared ++ numbered 0 (pieces ++ [last]) ++ [((pieces ++ [last]).length, none)] := by
    rw [numbered_concat, zero_add, length_append]
    simp
  rw [hall]
  refine ⟨_, _, rfl, rfl, ?_, fun j => ?_⟩
  · intro w hw
    dsimp only at hw
    rcases mem_append.mp hw with hw | hw
    · rcases mem_append.mp hw with hw | hw
      · rw [hcleared] at hw
        obtain ⟨i, hi, rfl⟩ := mem_map.mp hw
        exact mem_range.mp hi
      · have hlt := lt_of_mem_numbered hw
        rw [length_append, length_singleton] at hlt
        omega
    · rw [mem_singleton.mp hw, length_append, length_singleton]
      dsimp only
      omega
  · rw [hsplit]
    apply arrayOf_pieces
    intro w hw
    rw [hcleared] at hw
    obtain ⟨i, -, rfl⟩ := mem_map.mp hw
    rfl

/-- Without a size, the pieces are written all the same, from the first slot on. -/
theorem osStrBreak_zero (c : UInt8) (str : Bytes) :
    ∃ r pieces, osStrBreak c str 0 = some r ∧ r.ret = none ∧
      r.writes = (0, none) :: numbered 0 pieces ∧
      pieces.length = min (str.count c) (2 ^ 64 - 1) := by
  have hmax : 0 + (2 ^ 64 - 1) = ((0 : UInt64) - 1).toNat := by decide
  obtain ⟨pieces, last, hsplit, hcount, hwrites, -⟩ :=
    @breakLoop_eq c str [] 0 { count := 0, i := 0, tmp_str := str, writes := [(0, none)] }
      (2 ^ 64 - 1) hmax rfl rfl (.inr not_mem_nil)
  have hrange : (List.range ((0 : UInt64).toNat + 1)).map (fun i => (i, (none : Option Bytes))) =
      [(0, none)] := rfl
  refine ⟨{ writes := (0, none) :: numbered 0 pieces, ret := none }, pieces, ?_, rfl, rfl, ?_⟩
  · rw [osStrBreak, if_neg (by decide), hrange]
    dsimp only
    rw [if_neg (show ¬ _ < (0 : UInt64).toNat from Nat.not_lt_zero _), hwrites]
    rfl
  · have hlen := congrArg List.length hsplit
    rw [nil_append, length_splitMax, length_append, length_singleton] at hlen
    exact (Nat.succ.inj hlen).symm

/-- The call comes back without having written outside of the array, and splits the string: into
nothing without a size, and otherwise into pieces that are joined by the separator. -/
def Splits (c : UInt8) (str : Bytes) (size : UInt64) : Prop :=
  ∃ r, osStrBreak c str size = some r ∧ (∀ w ∈ r.writes, w.1 < size.toNat + 1) ∧
    (size = 0 → r.ret = none) ∧
    (size ≠ 0 → ∃ ret pieces, r.ret = some ret ∧ (∀ j ≤ pieces.length, ret j = pieces[j]?) ∧
      1 ≤ pieces.length ∧ pieces.length ≤ size.toNat ∧ [c].intercalate pieces = str ∧
      (∀ piece ∈ pieces.dropLast, c ∉ piece) ∧
      ∀ last, pieces.getLast? = some last → c ∈ last → pieces.length = size.toNat)

theorem splits_of_ne_zero (hsize : size ≠ SIZE_MAX) (hzero : size ≠ 0) : Splits c str size := by
  obtain ⟨r, ret, hr, hret, hslots, hpieces⟩ := @osStrBreak_eq c str size hsize hzero
  obtain ⟨n, hn⟩ : ∃ n, size.toNat = n + 1 :=
    Nat.exists_eq_succ_of_ne_zero fun h => hzero (UInt64.toNat_inj.mp h)
  have hlen := length_splitMax c n str
  rw [hn] at hpieces
  refine ⟨r, hr, hslots, fun h => absurd h hzero, fun _ => ⟨ret, splitMax c (n + 1) str, hret,
    fun j _ => hpieces j, by omega, by omega, intercalate_splitMax c n str, ?_, ?_⟩⟩
  · intro piece hmem
    obtain ⟨i, hi, hpiece⟩ := mem_iff_getElem.mp hmem
    rw [getElem_dropLast] at hpiece
    rw [length_dropLast] at hi
    have hlt : i < (splitMax c (n + 1) str).length := by omega
    apply @notMem_of_getElem?_splitMax _ _ _ c n str piece i
    · rw [getElem?_eq_getElem hlt, hpiece]
    · omega
  · intro last hlast hc
    by_contra hne
    rw [getLast?_eq_getElem?] at hlast
    exact notMem_of_getElem?_splitMax hlast (by omega) hc

/-- A string is split as it should be, without a write outside of the array, for every size but the
greatest, as long as there are fewer than two separators for the size 0. -/
theorem osStrBreak_splits_iff (c : UInt8) (str : Bytes) (size : UInt64) :
    Splits c str size ↔ size ≠ SIZE_MAX ∧ (size = 0 → str.count c < 2) := by
  by_cases hsize : size = SIZE_MAX
  · constructor
    · rintro ⟨r, hr, -⟩
      rw [osStrBreak, if_pos hsize] at hr
      cases hr
    · rintro ⟨h, -⟩
      exact absurd hsize h
  by_cases hzero : size = 0
  · subst hzero
    obtain ⟨r, pieces, hr, hret, hwrites, hlen⟩ := osStrBreak_zero c str
    constructor
    · rintro ⟨r', hr', hslots, -⟩
      obtain rfl := Option.some.inj (hr.symm.trans hr')
      refine ⟨hsize, fun _ => ?_⟩
      by_contra hmany
      -- the second piece goes behind the only slot
      match pieces, hlen, hwrites with
      | [], hlen, _ => exact absurd hlen (by simp; omega)
      | [_], hlen, _ => exact absurd hlen (by simp; omega)
      | first :: second :: pieces, _, hwrites =>
        have hmem : (1, some second) ∈ r.writes := by
          rw [hwrites, numbered_cons, numbered_cons]
          simp
        exact absurd (hslots _ hmem) (Nat.lt_irrefl 1)
    · rintro ⟨-, hfew⟩
      refine ⟨r, hr, fun w hw => ?_, fun _ => hret, fun h => absurd rfl h⟩
      rw [hwrites] at hw
      rcases mem_cons.mp hw with rfl | hw
      · decide
      · have hlt := lt_of_mem_numbered hw
        have hfew' := hfew rfl
        have hzero : (0 : UInt64).toNat = 0 := rfl
        omega
  · exact ⟨fun _ => ⟨hsize, fun h => absurd h hzero⟩, fun _ => splits_of_ne_zero hsize hzero⟩

/-- Without a size, and with two separators, the second piece is written behind the array. -/
theorem not_splits : ¬ ∀ c str size, Splits c str size := by
  intro h
  obtain ⟨r, hr, hslots, -⟩ := h (chr 'X') (lit "aXbXc") 0
  obtain ⟨r', pieces, hr', -, hwrites, hlen⟩ := osStrBreak_zero (chr 'X') (lit "aXbXc")
  obtain rfl := Option.some.inj (hr.symm.trans hr')
  have hcount : (lit "aXbXc").count (chr 'X') = 2 := by decide
  rw [hcount] at hlen
  match pieces, hlen, hwrites with
  | [first, second], _, hwrites =>
    have hmem : (1, some second) ∈ r.writes := by
      rw [hwrites, numbered_cons, numbered_cons]
      simp
    exact absurd (hslots _ hmem) (Nat.lt_irrefl 1)

end Call

end OsRegex
