import OssecHids.Lib.CString

/-!
# Reading a stream

The rest of a file that is read from front to end is the list of its bytes. A read returns what it
has read and the bytes behind it.

- `takeLine_append`, `takeLine_of_length`: the line that `fgets` reads, whole or cut;
- `takeWhile_takeLine`: the text of that line;
- `readLines_flatten`: the lines of a file, read one after the other.
-/

open List

namespace CString

/-- The bytes up to and including the first newline, at most `k` of them, and the rest. -/
def takeLine : ℕ → Bytes → Bytes × Bytes
  | 0, s => ([], s)
  | _ + 1, [] => ([], [])
  | k + 1, b :: s =>
    if b = chr '\n' then ([b], s) else (b :: (takeLine k s).1, (takeLine k s).2)

/-- `fgets(buf, n, fp)`; there is nothing at the end of the file. -/
def fgets (n : ℕ) (s : Bytes) : Option (Bytes × Bytes) :=
  if s = [] then none else some (takeLine (n - 1) s)

/-- The loop `while (fgets(buf, n, fp) != NULL)` reads these lines. -/
def readLinesLoop (n : ℕ) : ℕ → Bytes → List Bytes
  | 0, _ => []
  | fuel + 1, s =>
    match fgets n s with
    | none => []
    | some (line, s) => line :: readLinesLoop n fuel s

/-- The lines of a file; a read takes at least one of its bytes. -/
def readLines (n : ℕ) (s : Bytes) : List Bytes := readLinesLoop n s.length s

/-- The text of a line, which ends at the first newline or zero byte. -/
def cut (line : Bytes) : Bytes := (str line).takeWhile (· != chr '\n')

variable {k : ℕ} {l r s : Bytes}

theorem takeLine_append (hl : chr '\n' ∉ l) (hlen : l.length < k) :
    takeLine k (l ++ chr '\n' :: r) = (l ++ [chr '\n'], r) := by
  induction l generalizing k with
  | nil =>
    cases k with
    | zero => cases hlen
    | succ k => exact if_pos rfl
  | cons b l ih =>
    rw [mem_cons, not_or] at hl
    cases k with
    | zero => cases hlen
    | succ k =>
      rw [cons_append, takeLine, if_neg (Ne.symm hl.1), ih hl.2 (Nat.lt_of_succ_lt_succ hlen)]
      rfl

theorem takeLine_of_length (hl : chr '\n' ∉ l) (hlen : l.length = k) :
    takeLine k (l ++ r) = (l, r) := by
  induction l generalizing k with
  | nil =>
    obtain rfl := hlen
    rfl
  | cons b l ih =>
    rw [mem_cons, not_or] at hl
    obtain rfl := hlen
    rw [length_cons, cons_append, takeLine, if_neg (Ne.symm hl.1), ih hl.2 rfl]

/-- A line with its newline, short enough for a buffer of `n` bytes. -/
def IsLine (n : ℕ) (line : Bytes) : Prop :=
  ∃ text, line = text ++ [chr '\n'] ∧ chr '\n' ∉ text ∧ line.length < n

theorem readLinesLoop_flatten {n fuel : ℕ} {lines : List Bytes} (hfuel : lines.length ≤ fuel)
    (h : ∀ line ∈ lines, IsLine n line) : readLinesLoop n fuel lines.flatten = lines := by
  induction lines generalizing fuel with
  | nil =>
    cases fuel with
    | zero => rfl
    | succ fuel => rfl
  | cons line lines ih =>
    rw [forall_mem_cons] at h
    obtain ⟨⟨text, rfl, htext, hlen⟩, hlines⟩ := h
    cases fuel with
    | zero => cases hfuel
    | succ fuel =>
      have hflatten : ((text ++ [chr '\n']) :: lines).flatten =
          text ++ chr '\n' :: lines.flatten := by simp
      have hshort : text.length < n - 1 := by
        rw [length_append, length_singleton] at hlen
        omega
      rw [hflatten, readLinesLoop, fgets, if_neg (by simp), takeLine_append htext hshort]
      dsimp only
      rw [ih (Nat.le_of_succ_le_succ hfuel) hlines]

theorem readLines_flatten {n : ℕ} {lines : List Bytes} (h : ∀ line ∈ lines, IsLine n line) :
    readLines n lines.flatten = lines := by
  apply readLinesLoop_flatten _ h
  -- no line is empty
  induction lines with
  | nil => exact Nat.le_refl 0
  | cons line lines ih =>
    rw [forall_mem_cons] at h
    obtain ⟨⟨text, rfl, -, -⟩, hlines⟩ := h
    have := ih hlines
    rw [flatten_cons, length_append, length_append, length_cons, length_singleton]
    omega

theorem takeWhile_takeLine (k : ℕ) (s : Bytes) :
    (takeLine k s).1.takeWhile (· != chr '\n') = (s.take k).takeWhile (· != chr '\n') := by
  induction k generalizing s with
  | zero => rfl
  | succ k ih =>
    cases s with
    | nil => rfl
    | cons b s =>
      rw [takeLine, take_succ_cons]
      split
      case isTrue hb =>
        rw [hb]
        rfl
      case isFalse => rw [takeWhile_cons, takeWhile_cons, ih]

theorem length_takeLine_snd_le (k : ℕ) (s : Bytes) : (takeLine k s).2.length ≤ s.length := by
  induction k generalizing s with
  | zero => exact le_rfl
  | succ k ih =>
    cases s with
    | nil => exact le_rfl
    | cons b s =>
      rw [takeLine]
      split
      · exact Nat.le_succ _
      · exact (ih s).trans (Nat.le_succ _)

theorem length_takeLine_snd_lt (hk : 0 < k) (hs : s ≠ []) : (takeLine k s).2.length < s.length := by
  cases k with
  | zero => cases hk
  | succ k =>
    cases s with
    | nil => exact absurd rfl hs
    | cons b s =>
      rw [takeLine]
      split
      · exact Nat.lt_succ_self _
      · exact Nat.lt_succ_of_le (length_takeLine_snd_le k s)

@[simp]
theorem str_str (s : Bytes) : str (str s) = str s := takeWhile_idem

theorem str_eq_self (hs : ∀ b ∈ s, b ≠ 0) : str s = s := by
  rw [str, takeWhile_eq_self_iff]
  intro b hb
  exact bne_iff_ne.mpr (hs b hb)

theorem strncpy_self {n : ℕ} (hlen : s.length ≤ n) (hs : ∀ b ∈ s, b ≠ 0) : strncpy n s = s := by
  rw [strncpy, take_of_length_le hlen, str_eq_self hs]

/-- Behind a newline nothing of a line is read. -/
theorem takeLine_fst_isPrefix (k : ℕ) (l r : Bytes) :
    (takeLine k (l ++ chr '\n' :: r)).1 <+: l ++ [chr '\n'] := by
  induction l generalizing k with
  | nil =>
    cases k with
    | zero => exact List.nil_prefix
    | succ k =>
      rw [nil_append, takeLine, if_pos rfl]
      exact prefix_rfl
  | cons b l ih =>
    cases k with
    | zero => exact List.nil_prefix
    | succ k =>
      rw [cons_append, cons_append, takeLine]
      split
      case isTrue hb =>
        exact ⟨_, rfl⟩
      case isFalse => exact cons_prefix_cons.mpr ⟨rfl, ih k⟩

theorem takeWhile_take_append {c : UInt8} (l r : Bytes) (m : ℕ) :
    ((l ++ c :: r).take m).takeWhile (· != c) = (l.take m).takeWhile (· != c) := by
  induction l generalizing m with
  | nil =>
    cases m with
    | zero => rfl
    | succ m =>
      rw [nil_append, take_succ_cons, take_nil, takeWhile_cons, bne_self_eq_false]
      rfl
  | cons b l ih =>
    cases m with
    | zero => rfl
    | succ m =>
      rw [cons_append, take_succ_cons, take_succ_cons, takeWhile_cons, takeWhile_cons, ih]

theorem strchr_append {c : UInt8} (hc : c ∉ l) (hz : ∀ b ∈ l, b ≠ 0) :
    strchr c (l ++ c :: r) = some (c :: r) := by
  induction l with
  | nil => exact if_pos rfl
  | cons b l ih =>
    rw [mem_cons, not_or] at hc
    rw [cons_append, strchr, if_neg (Ne.symm hc.1), if_neg (hz b mem_cons_self)]
    exact ih hc.2 fun d hd => hz d (mem_cons_of_mem _ hd)

/-- The pointer that `strchr` returns is the rest behind a beginning without the letter. -/
theorem exists_of_strchr_eq_some {c : UInt8} {p : Bytes} (h : strchr c s = some p) :
    ∃ l r, s = l ++ c :: r ∧ p = c :: r ∧ c ∉ l := by
  induction s with
  | nil => cases h
  | cons b s ih =>
    rw [strchr] at h
    split at h
    case isTrue hb =>
      cases h
      exact ⟨[], s, by rw [hb]; rfl, by rw [hb], not_mem_nil⟩
    case isFalse hb =>
      split at h
      case isTrue => cases h
      case isFalse =>
        obtain ⟨l, r, rfl, rfl, hl⟩ := ih h
        refine ⟨b :: l, r, rfl, rfl, ?_⟩
        rw [mem_cons, not_or]
        exact ⟨Ne.symm hb, hl⟩

/-- The first place of two letters that are not in front of it. -/
theorem strstr_pair {a b : UInt8} (hab : a ≠ b) (hl : ¬[a, b] <:+: l) :
    strstr [a, b] (l ++ a :: b :: r) = some (a :: b :: r) := by
  induction l with
  | nil =>
    rw [nil_append, strstr, if_pos]
    simp
  | cons c l ih =>
    have hfront : ¬[a, b].isPrefixOf (c :: l ++ a :: b :: r) := by
      intro h
      rw [List.isPrefixOf_iff_prefix, cons_append, cons_prefix_cons] at h
      obtain ⟨rfl, h⟩ := h
      cases l with
      | nil => exact hab (cons_prefix_cons.mp h).1.symm
      | cons d l =>
        obtain rfl := (cons_prefix_cons.mp h).1
        exact hl ⟨[], l, rfl⟩
    rw [cons_append, strstr, if_neg (by simpa using hfront)]
    exact ih fun h => hl (h.trans (suffix_cons c l).isInfix)

end CString
