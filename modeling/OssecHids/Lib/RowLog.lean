import Mathlib.Data.List.Nodup

/-!
# Logs of rows

A file to which rows are appended, and in which a row is given up by overwriting its first letter.
A row has a key and a value; the rows that are not given up are live.

- `lastLive_supersede`: what is found for a key after a new row has replaced the old one;
- `firstLive_eq_lastLive`: with one live row for a key it does not matter from where one looks;
- `file_set`: a row is given up in the file.
-/

open List Option

namespace RowLog

/-- A row, live or given up. -/
structure Row (K V : Type*) where
  live : Bool
  key : K
  value : V
  deriving DecidableEq

variable {K V α : Type*}

/-- At most one live row for each key. -/
def UniqueLive (rows : List (Row K V)) : Prop := ((rows.filter Row.live).map Row.key).Nodup

instance [DecidableEq K] (rows : List (Row K V)) : Decidable (UniqueLive rows) :=
  inferInstanceAs (Decidable (List.Nodup _))

section Text

variable (text : K → V → List α) (mark : α)

/-- What is in the file for a row. -/
def Row.bytes (r : Row K V) : List α :=
  if r.live then text r.key r.value else (text r.key r.value).set 0 mark

def file (rows : List (Row K V)) : List α := rows.flatMap (Row.bytes text mark)

theorem length_bytes (r : Row K V) : (r.bytes text mark).length = (text r.key r.value).length := by
  rw [Row.bytes]
  split
  · rfl
  · exact length_set

theorem file_append (rows rows' : List (Row K V)) :
    file text mark (rows ++ rows') = file text mark rows ++ file text mark rows' :=
  flatMap_append

end Text

section Unique

variable {rows : List (Row K V)} {r : Row K V}

theorem UniqueLive.tail (h : UniqueLive (r :: rows)) : UniqueLive rows := by
  rw [UniqueLive, filter_cons] at h
  split at h
  · exact (nodup_cons.mp h).2
  · exact h

theorem UniqueLive.ne_of_mem (h : UniqueLive (r :: rows)) (hlive : r.live = true) :
    ∀ r' ∈ rows, r'.live = true → r'.key ≠ r.key := by
  intro r' hr' hlive' heq
  rw [UniqueLive, filter_cons, if_pos hlive, map_cons, nodup_cons] at h
  exact h.1 (mem_map.mpr ⟨r', mem_filter.mpr ⟨hr', hlive'⟩, heq⟩)

end Unique

variable [DecidableEq K]

section Find

variable (text : K → V → List α)

/-- The last live row for a key: its position, counted from `pos` on, and its value. -/
def lastLive (k : K) : ℕ → List (Row K V) → Option (ℕ × V)
  | _, [] => none
  | pos, r :: rows =>
    (lastLive k (pos + (text r.key r.value).length) rows).or
      (if r.live ∧ r.key = k then some (pos, r.value) else none)

/-- The first live row for a key. -/
def firstLive (k : K) : ℕ → List (Row K V) → Option (ℕ × V)
  | _, [] => none
  | pos, r :: rows =>
    if r.live ∧ r.key = k then some (pos, r.value)
    else firstLive k (pos + (text r.key r.value).length) rows

end Find

/-- Give up the rows for a key. -/
def kill (k : K) (rows : List (Row K V)) : List (Row K V) :=
  rows.map fun r => if r.key = k then { r with live := false } else r

/-- A new row replaces those for its key. -/
def supersede (k : K) (v : V) (rows : List (Row K V)) : List (Row K V) :=
  kill k rows ++ [{ live := true, key := k, value := v }]

variable {text : K → V → List α} (mark : α) {rows : List (Row K V)} {r : Row K V} {k k' : K} {v : V}
  {pos : ℕ}

theorem kill_cons (k : K) (r : Row K V) (rows : List (Row K V)) :
    kill k (r :: rows) = (if r.key = k then { r with live := false } else r) :: kill k rows := rfl

theorem lastLive_append (rows' : List (Row K V)) :
    lastLive text k pos (rows ++ rows') =
      (lastLive text k (pos + (file text mark rows).length) rows').or
        (lastLive text k pos rows) := by
  induction rows generalizing pos with
  | nil => exact (or_none).symm
  | cons r rows ih =>
    have hlen : (file text mark (r :: rows)).length =
        (text r.key r.value).length + (file text mark rows).length := by
      rw [file, flatMap_cons, length_append, length_bytes]
      rfl
    rw [cons_append, lastLive, ih, lastLive, hlen, ← Nat.add_assoc, Option.or_assoc]

theorem lastLive_eq_none_iff :
    lastLive text k pos rows = none ↔ ∀ r ∈ rows, r.live = true → r.key ≠ k := by
  induction rows generalizing pos with
  | nil => simp [lastLive]
  | cons r rows ih =>
    rw [lastLive, or_eq_none_iff, ih, forall_mem_cons, and_comm]
    refine and_congr_left fun _ => ?_
    by_cases hr : r.live = true ∧ r.key = k
    · simp [hr]
    · rw [if_neg hr]
      simpa using hr

theorem lastLive_kill (k k' : K) (pos : ℕ) (rows : List (Row K V)) :
    lastLive text k' pos (kill k rows) = if k' = k then none else lastLive text k' pos rows := by
  induction rows generalizing pos with
  | nil => exact (ite_self none).symm
  | cons r rows ih =>
    rw [kill_cons, lastLive, lastLive]
    by_cases hr : r.key = k
    · rw [if_pos hr, ih]
      by_cases hk : k' = k
      · rw [if_pos hk, if_pos hk]
        rfl
      · have hne : ¬ (r.live = true ∧ r.key = k') := fun h => hk (h.2.symm.trans hr)
        rw [if_neg hk, if_neg hk, if_neg hne, if_neg (by simp)]
    · rw [if_neg hr, ih]
      by_cases hk : k' = k
      · have hne : ¬ (r.live = true ∧ r.key = k') := fun h => hr (h.2.trans hk)
        rw [if_pos hk, if_pos hk, if_neg hne]
        rfl
      · rw [if_neg hk, if_neg hk]

theorem length_file_kill (k : K) (rows : List (Row K V)) :
    (file text mark (kill k rows)).length = (file text mark rows).length := by
  induction rows with
  | nil => rfl
  | cons r rows ih =>
    rw [kill_cons, file, file, flatMap_cons, flatMap_cons, length_append,
      length_append, length_bytes, length_bytes]
    rw [file, file] at ih
    rw [ih]
    split <;> rfl

/-- The new row is found at the end of the file, every other one where it was. -/
theorem lastLive_supersede (k k' : K) (v : V) (rows : List (Row K V)) :
    lastLive text k' 0 (supersede k v rows) =
      if k' = k then some ((file text mark rows).length, v) else lastLive text k' 0 rows := by
  rw [supersede, lastLive_append mark, length_file_kill, lastLive_kill, Nat.zero_add,
    lastLive, lastLive, none_or]
  by_cases hk : k' = k
  · rw [if_pos hk, if_pos ⟨rfl, hk.symm⟩, if_pos hk]
    rfl
  · rw [if_neg hk, if_neg (fun h => hk h.2.symm), if_neg hk]
    rfl

/-- Replacing keeps one live row for each key. -/
theorem UniqueLive.supersede (h : UniqueLive rows) (k : K) (v : V) :
    UniqueLive (RowLog.supersede k v rows) := by
  have hkill : ∀ rows : List (Row K V), (kill k rows).filter Row.live =
      (rows.filter Row.live).filter fun r => decide (r.key ≠ k) := by
    intro rows
    induction rows with
    | nil => rfl
    | cons r rows ih =>
      rw [kill_cons, filter_cons, filter_cons, ih]
      by_cases hr : r.key = k
      · cases r.live <;> simp [hr]
      · cases hl : r.live <;> simp [hr, hl]
  rw [UniqueLive] at h ⊢
  rw [RowLog.supersede, filter_append, map_append, hkill, nodup_append]
  refine ⟨h.sublist (filter_sublist.map _), nodup_singleton _, ?_⟩
  intro a ha b hb
  obtain ⟨r, hr, rfl⟩ := mem_map.mp ha
  have hne : r.key ≠ k := by simpa using (mem_filter.mp hr).2
  have hbk : b = k := by simpa using hb
  rw [hbk]
  exact hne

/-- One live row for a key is the first and the last. -/
theorem firstLive_eq_lastLive (h : UniqueLive rows) (k : K) (pos : ℕ) :
    firstLive text k pos rows = lastLive text k pos rows := by
  induction rows generalizing pos with
  | nil => rfl
  | cons r rows ih =>
    rw [firstLive, lastLive]
    split
    case isTrue hr =>
      have hnone : lastLive text k (pos + (text r.key r.value).length) rows = none := by
        rw [lastLive_eq_none_iff]
        intro r' hr' hlive'
        rw [← hr.2]
        exact h.ne_of_mem hr.1 r' hr' hlive'
      rw [hnone, none_or]
    case isFalse => rw [ih h.tail, or_none]

theorem kill_of_forall_ne (h : ∀ r ∈ rows, r.live = true → r.key ≠ k) : kill k rows = rows := by
  induction rows with
  | nil => rfl
  | cons r rows ih =>
    rw [forall_mem_cons] at h
    rw [kill_cons, ih h.2]
    split
    case isTrue hk =>
      have hdead : r.live = false := by
        rw [← Bool.not_eq_true]
        exact fun hlive => h.1 hlive hk
      obtain ⟨live, key, value⟩ := r
      obtain rfl : live = false := hdead
      rfl
    case isFalse => rfl

/-- Overwriting the first letter of the live row for a key gives it up. -/
theorem file_set (htext : ∀ k v, text k v ≠ []) (h : UniqueLive rows) {p : ℕ}
    (hfind : firstLive text k pos rows = some (p, v)) :
    ∃ n, p = pos + n ∧ n < (file text mark rows).length ∧
      (file text mark rows).set n mark = file text mark (kill k rows) := by
  induction rows generalizing pos with
  | nil => cases hfind
  | cons r rows ih =>
    have hcons : file text mark (r :: rows) = r.bytes text mark ++ file text mark rows := rfl
    have hpos : 0 < (r.bytes text mark).length := by
      rw [length_bytes]
      exact length_pos_of_ne_nil (htext _ _)
    rw [firstLive] at hfind
    split at hfind
    case isTrue hr =>
      obtain ⟨rfl, -⟩ := Prod.mk.inj (some.inj hfind)
      refine ⟨0, rfl, ?_, ?_⟩
      · rw [hcons, length_append]
        exact Nat.add_pos_left hpos _
      · have hrest : kill k rows = rows := kill_of_forall_ne fun r' hr' hlive' => by
          rw [← hr.2]
          exact h.ne_of_mem hr.1 r' hr' hlive'
        have hdead : ({ r with live := false } : Row K V).bytes text mark =
            (r.bytes text mark).set 0 mark := by
          rw [Row.bytes, Row.bytes, if_pos hr.1]
          rfl
        rw [hcons, kill_cons, if_pos hr.2, hrest, set_append_left 0 mark hpos, ← hdead]
        rfl
    case isFalse hr =>
      obtain ⟨n, rfl, hlt, hset⟩ := ih h.tail hfind
      have hlen := length_bytes text mark r
      refine ⟨(r.bytes text mark).length + n, ?_, ?_, ?_⟩
      · rw [hlen, Nat.add_assoc]
      · rw [hcons, length_append]
        exact Nat.add_lt_add_left hlt _
      · have hhead : (if r.key = k then { r with live := false } else r) = r := by
          split
          case isTrue hk =>
            have hdead : r.live = false := by
              rw [← Bool.not_eq_true]
              exact fun hlive => hr ⟨hlive, hk⟩
            obtain ⟨live, key, value⟩ := r
            obtain rfl : live = false := hdead
            rfl
          case isFalse => rfl
        rw [hcons, kill_cons, hhead, set_append_right _ _ (Nat.le_add_right _ _),
          Nat.add_sub_cancel_left, hset]
        rfl

theorem file_supersede (htext : ∀ k v, text k v ≠ []) (h : UniqueLive rows) {p : ℕ}
    {v v' : V} (hfind : lastLive text k 0 rows = some (p, v)) :
    p < (file text mark rows).length ∧
      (file text mark rows).set p mark ++ text k v' = file text mark (supersede k v' rows) := by
  rw [← firstLive_eq_lastLive h] at hfind
  obtain ⟨n, hn, hlt, hset⟩ := file_set mark htext h hfind
  obtain rfl : p = n := hn.trans (Nat.zero_add n)
  refine ⟨hlt, ?_⟩
  rw [hset, supersede, file_append]
  simp [file, Row.bytes]

theorem file_append_new {v' : V} (hfind : lastLive text k 0 rows = none) :
    file text mark rows ++ text k v' = file text mark (supersede k v' rows) := by
  rw [supersede, kill_of_forall_ne (lastLive_eq_none_iff.mp hfind), file_append]
  simp [file, Row.bytes]

end RowLog
