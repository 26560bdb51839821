import OssecHids.Lib.Framing
import OssecHids.Lib.Stream

/-!
# Lines and the buffer they are read into

A file read with `fgets` comes in pieces: a line that does not fit in the buffer takes several
reads.

- `readLines_append`: whole lines are read the same whatever follows them;
- `readLines_short`, `readLines_long`: the first read of a line, which fits or does not;
- `newline_notMem_dropLast`: a newline only ends a piece;
- `unlines_splitOn`: a text as its lines;
- `unlines_frames`, `frames_unlines`: a text as the lines that end, and the rest;
- `beforeLast`: cutting a string at the last of a letter.
-/

namespace CString

variable {n : ℕ} {l r s t : Bytes}

/-! ## Reads -/

/-- The pieces of a file do not depend on the fuel. -/
theorem readLinesLoop_of_le {fuel : ℕ} (hn : 1 < n) (hfuel : s.length ≤ fuel) :
    readLinesLoop n fuel s = readLines n s := by
  rw [readLines]
  generalize hm : s.length = m
  induction m using Nat.strong_induction_on generalizing fuel s with
  | _ m ih =>
    obtain rfl := hm
    by_cases hs : s = []
    · obtain rfl := hs
      cases fuel <;> rfl
    · obtain ⟨m, hm⟩ := Nat.exists_eq_succ_of_ne_zero (mt List.length_eq_zero_iff.mp hs)
      obtain ⟨fuel, rfl⟩ := Nat.exists_eq_succ_of_ne_zero (show fuel ≠ 0 by omega)
      have hlt := length_takeLine_snd_lt (k := n - 1) (by omega) hs
      -- both sides read the same piece, and what is left is shorter
      rw [hm, readLinesLoop, readLinesLoop, fgets, if_neg hs]
      dsimp only
      rw [ih _ hlt (by omega) rfl, ih _ hlt (show _ ≤ m by omega) rfl]

/-- A file that is not empty is its first piece and the pieces of the rest. -/
theorem readLines_cons (hn : 1 < n) (hs : s ≠ []) :
    readLines n s = (takeLine (n - 1) s).1 :: readLines n (takeLine (n - 1) s).2 := by
  obtain ⟨m, hm⟩ := Nat.exists_eq_succ_of_ne_zero (mt List.length_eq_zero_iff.mp hs)
  have hlt := length_takeLine_snd_lt (k := n - 1) (by omega) hs
  rw [readLines, hm, readLinesLoop, fgets, if_neg hs]
  dsimp only
  rw [readLinesLoop_of_le hn (by omega)]

/-- A read does not go past a newline. -/
theorem takeLine_append_newline (k : ℕ) (l r : Bytes) :
    takeLine k (l ++ chr '\n' :: r) =
      ((takeLine k (l ++ [chr '\n'])).1, (takeLine k (l ++ [chr '\n'])).2 ++ r) := by
  induction l generalizing k with
  | nil =>
    cases k with
    | zero => rfl
    | succ k => rw [List.nil_append, List.nil_append, takeLine, takeLine, if_pos rfl, if_pos rfl]; rfl
  | cons b l ih =>
    cases k with
    | zero => simp [takeLine]
    | succ k =>
      rw [List.cons_append, List.cons_append, takeLine, takeLine]
      split
      · simp
      · rw [ih k]

/-- A text that ends where a line ends. -/
def WholeLines (t : Bytes) : Prop := t = [] ∨ ∃ l, t = l ++ [chr '\n']

/-- What a read leaves of such a text is such a text. -/
theorem WholeLines.takeLine_snd (k : ℕ) (h : WholeLines t) : WholeLines (takeLine k t).2 := by
  induction k generalizing t with
  | zero => exact h
  | succ k ih =>
    cases t with
    | nil => exact .inl rfl
    | cons b t =>
      have ht : WholeLines t := by
        obtain h | ⟨l, hl⟩ := h
        · cases h
        · cases l with
          | nil => exact .inl (List.cons.inj hl).2
          | cons c l => exact .inr ⟨l, (List.cons.inj hl).2⟩
      rw [takeLine]
      split
      · exact ht
      · exact ih ht

/-- Whole lines are read the same, whatever follows them. -/
theorem readLines_append (hn : 1 < n) (ht : WholeLines t) (r : Bytes) :
    readLines n (t ++ r) = readLines n t ++ readLines n r := by
  generalize hm : t.length = m
  induction m using Nat.strong_induction_on generalizing t with
  | _ m ih =>
    obtain rfl := hm
    by_cases hne : t = []
    · obtain rfl := hne
      rfl
    · obtain ⟨l, rfl⟩ := ht.resolve_left hne
      have hlt := length_takeLine_snd_lt (k := n - 1) (by omega) hne
      have hsplit : l ++ [chr '\n'] ++ r = l ++ chr '\n' :: r := by simp
      rw [readLines_cons hn (List.append_ne_nil_of_left_ne_nil hne r), readLines_cons hn hne, hsplit,
        takeLine_append_newline, ih _ hlt (ht.takeLine_snd _) rfl]
      rfl

theorem readLines_short (hn : 1 < n) (hl : chr '\n' ∉ l) (hlen : l.length < n - 1) :
    readLines n (l ++ chr '\n' :: r) = (l ++ [chr '\n']) :: readLines n r := by
  rw [readLines_cons hn (by simp), takeLine_append hl hlen]

theorem readLines_long (hn : 1 < n) (hl : chr '\n' ∉ l) (hlen : n - 1 ≤ l.length) :
    readLines n (l ++ chr '\n' :: r) =
      l.take (n - 1) :: readLines n (l.drop (n - 1) ++ chr '\n' :: r) := by
  have hsplit : l ++ chr '\n' :: r = l.take (n - 1) ++ (l.drop (n - 1) ++ chr '\n' :: r) := by
    rw [← List.append_assoc, List.take_append_drop]
  have htake : takeLine (n - 1) (l ++ chr '\n' :: r) =
      (l.take (n - 1), l.drop (n - 1) ++ chr '\n' :: r) := by
    rw [hsplit]
    exact takeLine_of_length (fun h => hl (List.mem_of_mem_take h)) (List.length_take_of_le hlen)
  rw [readLines_cons hn (by simp), htake]

theorem newline_notMem_dropLast_takeLine (k : ℕ) (s : Bytes) :
    chr '\n' ∉ (takeLine k s).1.dropLast := by
  induction k generalizing s with
  | zero => exact List.not_mem_nil
  | succ k ih =>
    cases s with
    | nil => exact List.not_mem_nil
    | cons b s =>
      rw [takeLine]
      split
      case isTrue => exact List.not_mem_nil
      case isFalse hb =>
        intro hmem
        cases hline : (takeLine k s).1 with
        | nil =>
          rw [hline] at hmem
          cases hmem
        | cons c l =>
          rw [hline, List.dropLast_cons_cons, ← hline, List.mem_cons] at hmem
          exact hmem.elim (fun h => hb h.symm) (ih s)

theorem newline_notMem_dropLast (hn : 1 < n) (h : l ∈ readLines n s) : chr '\n' ∉ l.dropLast := by
  generalize hm : s.length = m at h
  induction m using Nat.strong_induction_on generalizing s with
  | _ m ih =>
    obtain rfl := hm
    by_cases hs : s = []
    · obtain rfl := hs
      cases h
    · rw [readLines_cons hn hs, List.mem_cons] at h
      obtain rfl | h := h
      · exact newline_notMem_dropLast_takeLine _ s
      · exact ih _ (length_takeLine_snd_lt (k := n - 1) (by omega) hs) h rfl

/-! ## Lines -/

/-- The text of some lines. -/
def unlines (lines : List Bytes) : Bytes := (lines.map (· ++ [chr '\n'])).flatten

@[simp]
theorem unlines_nil : unlines [] = [] := rfl

@[simp]
theorem unlines_cons (line : Bytes) (lines : List Bytes) :
    unlines (line :: lines) = line ++ chr '\n' :: unlines lines := by
  simp [unlines]

theorem unlines_append (lines lines' : List Bytes) :
    unlines (lines ++ lines') = unlines lines ++ unlines lines' := by
  simp [unlines]

theorem readLines_unlines (hn : 1 < n) {lines : List Bytes}
    (hlines : ∀ l ∈ lines, chr '\n' ∉ l ∧ l.length < n - 1) :
    readLines n (unlines lines) = lines.map (· ++ [chr '\n']) := by
  induction lines with
  | nil => rfl
  | cons line lines ih =>
    rw [List.forall_mem_cons] at hlines
    rw [unlines_cons, readLines_short hn hlines.1.1 hlines.1.2, ih hlines.2, List.map_cons]

theorem wholeLines_unlines (lines : List Bytes) : WholeLines (unlines lines) := by
  induction lines with
  | nil => exact .inl rfl
  | cons line lines ih =>
    rw [unlines_cons]
    obtain h | ⟨t, ht⟩ := ih
    · rw [h]
      exact .inr ⟨line, rfl⟩
    · rw [ht]
      exact .inr ⟨line ++ chr '\n' :: t, by simp⟩

theorem newline_notMem_of_mem_splitOn (h : l ∈ s.splitOn (chr '\n')) : chr '\n' ∉ l := by
  induction s generalizing l with
  | nil =>
    obtain rfl := List.mem_singleton.mp h
    exact List.not_mem_nil
  | cons b s ih =>
    obtain ⟨l₀, ls, hs⟩ := List.exists_cons_of_ne_nil (List.splitOn_ne_nil (chr '\n') s)
    rw [hs] at ih
    rw [List.splitOn_cons_eq_if_modifyHead, hs] at h
    split at h
    case isTrue =>
      obtain rfl | h := List.mem_cons.mp h
      · exact List.not_mem_nil
      · exact ih h
    case isFalse hb =>
      -- the letter goes to the first line
      obtain rfl | h := List.mem_cons.mp h
      · rw [List.mem_cons, not_or]
        exact ⟨fun h => hb (by rw [h, beq_self_eq_true]), ih List.mem_cons_self⟩
      · exact ih (List.mem_cons_of_mem _ h)

theorem unlines_splitOn (s : Bytes) : unlines (s.splitOn (chr '\n')) = s ++ [chr '\n'] := by
  induction s with
  | nil => rfl
  | cons b s ih =>
    obtain ⟨l₀, ls, hs⟩ := List.exists_cons_of_ne_nil (List.splitOn_ne_nil (chr '\n') s)
    rw [hs, unlines_cons] at ih
    rw [List.splitOn_cons_eq_if_modifyHead, hs]
    split
    case isTrue hb =>
      rw [unlines_cons, unlines_cons, ih, eq_of_beq hb]
      rfl
    case isFalse =>
      rw [List.modifyHead_cons, unlines_cons, List.cons_append, ih]
      rfl

/-! ## The lines that end -/

open Framing

theorem unlines_frames (s : Bytes) :
    unlines (frames (chr '\n') s) ++ rest (chr '\n') s = s := by
  induction s using framesRec (c := chr '\n') with
  | unfinished l hl => rw [frames_of_notMem hl, rest_of_notMem hl, unlines_nil, List.nil_append]
  | frame l r hl ih =>
    rw [frames_append_cons hl, rest_append_cons hl, unlines_cons, List.append_assoc,
      List.cons_append, ih]

theorem newline_notMem_of_mem_frames (h : l ∈ frames (chr '\n') s) : chr '\n' ∉ l := by
  induction s using framesRec (c := chr '\n') with
  | unfinished t ht =>
    rw [frames_of_notMem ht] at h
    cases h
  | frame t r ht ih =>
    rw [frames_append_cons ht] at h
    obtain rfl | h := List.mem_cons.mp h
    · exact ht
    · exact ih h

theorem frames_unlines {lines : List Bytes} (h : ∀ l ∈ lines, chr '\n' ∉ l) :
    frames (chr '\n') (unlines lines) = lines := by
  induction lines with
  | nil => rfl
  | cons l lines ih =>
    rw [unlines_cons, frames_append_cons (h l List.mem_cons_self),
      ih fun l' hl' => h l' (List.mem_cons_of_mem _ hl')]

theorem rest_unlines {lines : List Bytes} (h : ∀ l ∈ lines, chr '\n' ∉ l) :
    rest (chr '\n') (unlines lines) = [] := by
  induction lines with
  | nil => rfl
  | cons l lines ih =>
    rw [unlines_cons, rest_append_cons (h l List.mem_cons_self),
      ih fun l' hl' => h l' (List.mem_cons_of_mem _ hl')]

theorem frames_isPrefix (h : s <+: t) : frames (chr '\n') s <+: frames (chr '\n') t := by
  obtain ⟨r, rfl⟩ := h
  rw [frames_append]
  exact List.prefix_append _ _

/-! ## Cutting at the last letter -/

/-- The string in front of the pointer `strrchr(s, c)`. -/
def beforeLast (c : UInt8) : Bytes → Option Bytes
  | [] => none
  | b :: s =>
    match beforeLast c s with
    | some l => some (b :: l)
    | none => if b = c then some [] else none

/-- `os_clearnl`: the string is cut at its last newline. -/
def clearNl (s : Bytes) : Bytes := (beforeLast (chr '\n') s).getD s

variable {c : UInt8}

theorem beforeLast_eq_none (h : c ∉ s) : beforeLast c s = none := by
  induction s with
  | nil => rfl
  | cons b s ih =>
    rw [List.mem_cons, not_or] at h
    rw [beforeLast, ih h.2]
    exact if_neg (Ne.symm h.1)

theorem beforeLast_append (h : c ∉ r) : beforeLast c (l ++ c :: r) = some l := by
  induction l with
  | nil =>
    rw [List.nil_append, beforeLast, beforeLast_eq_none h]
    exact if_pos rfl
  | cons b l ih => rw [List.cons_append, beforeLast, ih]

theorem isPrefix_of_beforeLast (h : beforeLast c s = some l) : l <+: s := by
  induction s generalizing l with
  | nil => cases h
  | cons b s ih =>
    rw [beforeLast] at h
    split at h
    case h_1 m hm =>
      cases h
      exact List.cons_prefix_cons.mpr ⟨rfl, ih hm⟩
    case h_2 =>
      split at h
      · cases h
        exact List.nil_prefix
      · cases h

theorem clearNl_of_notMem (h : chr '\n' ∉ s) : clearNl s = s := by
  rw [clearNl, beforeLast_eq_none h]
  rfl

theorem clearNl_concat (s : Bytes) : clearNl (s ++ [chr '\n']) = s := by
  rw [clearNl, beforeLast_append List.not_mem_nil]
  rfl

/-- A piece that is cut there has no newline left. -/
theorem newline_notMem_clearNl (h : chr '\n' ∉ s.dropLast) : chr '\n' ∉ clearNl s := by
  by_cases hs : s = []
  · obtain rfl := hs
    exact List.not_mem_nil
  · obtain ⟨b, hb⟩ : ∃ b, s = s.dropLast ++ [b] :=
      ⟨s.getLast hs, (List.dropLast_concat_getLast hs).symm⟩
    rw [hb]
    by_cases hnl : b = chr '\n'
    · rw [hnl, clearNl_concat]
      exact h
    · have hmem : chr '\n' ∉ s.dropLast ++ [b] := by
        rw [List.mem_append, List.mem_singleton, not_or]
        exact ⟨h, Ne.symm hnl⟩
      rw [clearNl_of_notMem hmem]
      exact hmem

end CString
