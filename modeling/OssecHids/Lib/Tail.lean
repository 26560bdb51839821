import OssecHids.Lib.Stream
import OssecHids.Lib.Framing

/-!
# Files that grow while they are read

A file is the bytes in front of the position of the reader and those behind it. A writer adds bytes
to the end; a read takes a line, or the beginning of one, and moves the position.

- `Got`: what a read of at most `k` bytes returns, by cases;
- `frames_line`, `rest_line`: the lines in front of the position, as the reader moves on.
-/

open CString List

/-- A file and the position in it. -/
structure Tail where
  /-- The bytes in front of the position. -/
  read : Bytes := []
  /-- The bytes behind it. -/
  unread : Bytes := []
  deriving DecidableEq, Repr

namespace Tail

/-- The whole file. -/
def bytes (t : Tail) : Bytes := t.read ++ t.unread

/-- The writer adds a piece. -/
def append (t : Tail) (piece : Bytes) : Tail := { t with unread := t.unread ++ piece }

/-- The reader moves on over what it has read. -/
def getLine (k : ℕ) (t : Tail) : Bytes × Tail :=
  ((takeLine k t.unread).1, ⟨t.read ++ (takeLine k t.unread).1, (takeLine k t.unread).2⟩)

@[simp]
theorem bytes_append (t : Tail) (piece : Bytes) : (t.append piece).bytes = t.bytes ++ piece :=
  (append_assoc ..).symm

/-- What a read of at most `k` bytes returns. -/
inductive Got (k : ℕ) (t : Tail) : Bytes → Tail → Prop
  | eof (h : t.unread = []) : Got k t [] t
  | line {l r : Bytes} (hl : chr '\n' ∉ l) (hlen : l.length < k)
      (h : t.unread = l ++ chr '\n' :: r) : Got k t (l ++ [chr '\n']) ⟨t.read ++ (l ++ [chr '\n']), r⟩
  | full {l r : Bytes} (hl : chr '\n' ∉ l) (hlen : l.length = k) (h : t.unread = l ++ r) :
      Got k t l ⟨t.read ++ l, r⟩
  | unfinished {l : Bytes} (hl : chr '\n' ∉ l) (hlen : l.length < k) (hne : l ≠ [])
      (h : t.unread = l) : Got k t l ⟨t.read ++ l, []⟩

variable {k : ℕ} {t : Tail} {l r : Bytes}

theorem takeLine_unfinished (hl : chr '\n' ∉ l) (hlen : l.length < k) :
    takeLine k l = (l, []) := by
  induction l generalizing k with
  | nil =>
    cases k with
    | zero => cases hlen
    | succ k => rfl
  | cons b l ih =>
    rw [mem_cons, not_or] at hl
    cases k with
    | zero => cases hlen
    | succ k => rw [takeLine, if_neg (Ne.symm hl.1), ih hl.2 (Nat.lt_of_succ_lt_succ hlen)]

theorem getLine_line (hl : chr '\n' ∉ l) (hlen : l.length < k) (h : t.unread = l ++ chr '\n' :: r) :
    getLine k t = (l ++ [chr '\n'], ⟨t.read ++ (l ++ [chr '\n']), r⟩) := by
  rw [getLine, h, takeLine_append hl hlen]

theorem getLine_full (hl : chr '\n' ∉ l) (hlen : l.length = k) (h : t.unread = l ++ r) :
    getLine k t = (l, ⟨t.read ++ l, r⟩) := by
  rw [getLine, h, takeLine_of_length hl hlen]

theorem getLine_unfinished (hl : chr '\n' ∉ l) (hlen : l.length < k) (h : t.unread = l) :
    getLine k t = (l, ⟨t.read ++ l, []⟩) := by
  rw [getLine, h, takeLine_unfinished hl hlen]

theorem got (hk : 0 < k) (t : Tail) : Got k t (getLine k t).1 (getLine k t).2 := by
  by_cases hlen : k ≤ ((t.unread.takeWhile (· != chr '\n')).length)
  case pos =>
    -- no newline among the bytes that may be read
    have hsplit : t.unread = t.unread.take k ++ t.unread.drop k := (take_append_drop k _).symm
    have hbegins : t.unread.take k <+: t.unread.takeWhile (· != chr '\n') := by
      refine prefix_of_prefix_length_le (List.take_prefix ..) (List.takeWhile_prefix _) ?_
      rw [length_take]
      omega
    have hl : chr '\n' ∉ t.unread.take k := fun h =>
      absurd (mem_takeWhile_imp (hbegins.subset h)) (by simp)
    have hfull : (t.unread.take k).length = k := by
      have hle := (List.takeWhile_prefix (p := (· != chr '\n')) (l := t.unread)).length_le
      rw [length_take]
      omega
    rw [getLine_full hl hfull hsplit]
    exact .full hl hfull hsplit
  case neg =>
    have hl : chr '\n' ∉ t.unread.takeWhile (· != chr '\n') := fun h =>
      absurd (mem_takeWhile_imp h) (by simp)
    cases hdrop : t.unread.dropWhile (· != chr '\n') with
    | nil =>
      have hall : t.unread = t.unread.takeWhile (· != chr '\n') := by
        have hsplit := @takeWhile_append_dropWhile _ (· != chr '\n') t.unread
        rw [hdrop, append_nil] at hsplit
        exact hsplit.symm
      rw [← hall] at hl hlen
      rw [getLine_unfinished hl (not_le.mp hlen) rfl]
      by_cases hne : t.unread = []
      case pos =>
        rw [hne, append_nil]
        obtain ⟨read, unread⟩ := t
        obtain rfl : unread = [] := hne
        exact .eof rfl
      case neg => exact .unfinished hl (not_le.mp hlen) hne rfl
    | cons b r =>
      have hb : b = chr '\n' := by
        have hhead := @head?_dropWhile_not _ (· != chr '\n') t.unread
        rw [hdrop] at hhead
        simpa using hhead
      have hsplit := @takeWhile_append_dropWhile _ (· != chr '\n') t.unread
      rw [hdrop, hb] at hsplit
      rw [getLine_line hl (not_le.mp hlen) hsplit.symm]
      exact .line hl (not_le.mp hlen) hsplit.symm

/-! ## The lines in front of the position -/

open Framing

theorem frames_line {s : Bytes} (hs : rest (chr '\n') s = []) (hl : chr '\n' ∉ l) :
    frames (chr '\n') (s ++ (l ++ [chr '\n'])) = frames (chr '\n') s ++ [l] := by
  rw [frames_append, hs, nil_append, frames_append_cons hl]
  rfl

theorem rest_line (s : Bytes) (l : Bytes) : rest (chr '\n') (s ++ (l ++ [chr '\n'])) = [] := by
  rw [← append_assoc]
  generalize s ++ l = u
  induction u using framesRec (c := chr '\n') with
  | unfinished u hu =>
    rw [rest_append_cons hu]
    rfl
  | frame u r hu ih => rw [append_assoc, cons_append, rest_append_cons hu, ih]

end Tail
