import OssecHids.Lib.CString

/-!
# Searching for a text

The first and the last place of a text in a string, and the words that `sscanf` reads.

- `strstr_append_of_notMem`: a text is not found where its first byte is not;
- `lastStr_eq`: the loop that goes from one place of a text to the next ends at the last one;
- `scanWord_append`: a word is read up to the blank behind it.
-/

open List Option

namespace CString

variable {b : UInt8} {l r s t p q : Bytes}

theorem strstr_of_isPrefixOf (h : t.isPrefixOf s = true) : strstr t s = some s := by
  cases s with
  | nil => exact if_pos (prefix_nil.mp (List.isPrefixOf_iff_prefix.mp h))
  | cons b s => exact if_pos h

theorem strstr_append (t r : Bytes) : strstr t (t ++ r) = some (t ++ r) :=
  strstr_of_isPrefixOf (List.isPrefixOf_iff_prefix.mpr (prefix_append t r))

theorem strstr_append_of_notMem (hb : b ∉ l) (r : Bytes) :
    strstr (b :: t) (l ++ r) = strstr (b :: t) r := by
  induction l with
  | nil => rfl
  | cons c l ih =>
    rw [mem_cons, not_or] at hb
    have hne : ¬(b :: t).isPrefixOf (c :: (l ++ r)) = true := fun h =>
      hb.1 (cons_prefix_cons.mp (List.isPrefixOf_iff_prefix.mp h)).1
    rw [cons_append, strstr, if_neg hne, ih hb.2]

/-- A text is not found across a byte that it does not have. -/
theorem strstr_append_cons {c : UInt8} (hc : c ∉ t) (ht : t ≠ []) (h : strstr t l = none)
    (r : Bytes) : strstr t (l ++ c :: r) = strstr t r := by
  induction l with
  | nil =>
    have hfront : ¬t.isPrefixOf (c :: r) = true := fun hpre => by
      obtain ⟨b, t', rfl⟩ := exists_cons_of_ne_nil ht
      have hb := (cons_prefix_cons.mp (List.isPrefixOf_iff_prefix.mp hpre)).1
      exact hc (hb ▸ mem_cons_self)
    rw [nil_append, strstr, if_neg hfront]
  | cons b l ih =>
    rw [strstr] at h
    split at h
    case isTrue => cases h
    case isFalse hnot =>
      have hfront : ¬t.isPrefixOf (b :: (l ++ c :: r)) = true := fun hpre => by
        rw [List.isPrefixOf_iff_prefix] at hpre hnot
        have hpart : b :: l <+: b :: (l ++ c :: r) := ⟨c :: r, rfl⟩
        rcases lt_or_ge (b :: l).length t.length with hlt | hle
        case inl =>
          -- a longer text would have that byte
          have hshort : b :: (l ++ [c]) <+: b :: (l ++ c :: r) := ⟨r, by simp⟩
          have hsub : b :: (l ++ [c]) <+: t :=
            prefix_of_prefix_length_le hshort hpre (by simpa [Nat.succ_le_iff] using hlt)
          exact hc (hsub.subset (by simp))
        case inr => exact hnot (prefix_of_prefix_length_le hpre hpart hle)
      rw [cons_append, strstr, if_neg hfront, ih h]

theorem isSuffix_of_strstr (h : strstr t s = some q) : q <:+ s := by
  induction s with
  | nil =>
    rw [strstr] at h
    split at h
    · cases h
      exact suffix_rfl
    · cases h
  | cons b s ih =>
    rw [strstr] at h
    split at h
    · cases h
      exact suffix_rfl
    · exact (ih h).trans (suffix_cons b s)

theorem isPrefix_of_strstr (h : strstr t s = some q) : t <+: q := by
  induction s with
  | nil =>
    rw [strstr] at h
    split at h
    · subst t
      exact List.nil_prefix
    · cases h
  | cons b s ih =>
    rw [strstr] at h
    split at h
    · cases h
      exact List.isPrefixOf_iff_prefix.mp ‹_›
    · exact ih h

theorem exists_strstr (l t r : Bytes) :
    ∃ l', l' <:+ l ∧ strstr t (l ++ (t ++ r)) = some (l' ++ (t ++ r)) := by
  induction l with
  | nil => exact ⟨[], suffix_rfl, strstr_append t r⟩
  | cons b l ih =>
    by_cases hfront : t.isPrefixOf (b :: (l ++ (t ++ r))) = true
    case pos => exact ⟨b :: l, suffix_rfl, if_pos hfront⟩
    case neg =>
      obtain ⟨l', hsub, hfind⟩ := ih
      refine ⟨l', hsub.trans (suffix_cons b l), ?_⟩
      rw [cons_append, strstr, if_neg hfront, hfind]

/-- The loop `for (p = strstr(p, t); p; p = strstr(p + 1, t)) last = p;`. -/
def lastStr (t : Bytes) : ℕ → Bytes → Option Bytes → Option Bytes
  | 0, _, last => last
  | fuel + 1, p, last =>
    match strstr t p with
    | none => last
    | some p => lastStr t fuel p.tail (some p)

theorem isSuffix_of_lastStr {fuel : ℕ} {last : Option Bytes} (hp : p <:+ s)
    (hlast : ∀ q, last = some q → q <:+ s) (h : lastStr t fuel p last = some q) : q <:+ s := by
  induction fuel generalizing p last with
  | zero => exact hlast q h
  | succ fuel ih =>
    rw [lastStr] at h
    cases hfind : strstr t p with
    | none =>
      rw [hfind] at h
      exact hlast q h
    | some p' =>
      rw [hfind] at h
      have hp' : p' <:+ s := (isSuffix_of_strstr hfind).trans hp
      refine ih ((tail_suffix p').trans hp') (fun q hq => ?_) h
      rw [← some.inj hq]
      exact hp'

/-- The loop ends at the last place of the text. -/
theorem lastStr_eq {fuel : ℕ} {last : Option Bytes} (hr : strstr t (t ++ r).tail = none)
    (hfuel : l.length + 1 < fuel) : lastStr t fuel (l ++ (t ++ r)) last = some (t ++ r) := by
  induction fuel generalizing l last with
  | zero => cases hfuel
  | succ fuel ih =>
    obtain ⟨l', hsub, hfind⟩ := exists_strstr l t r
    rw [lastStr, hfind]
    dsimp only
    cases l' with
    | nil =>
      obtain ⟨fuel, rfl⟩ := Nat.exists_eq_add_one_of_ne_zero
        (Nat.ne_zero_of_lt (Nat.lt_of_succ_lt_succ hfuel))
      rw [nil_append, lastStr, hr]
    | cons b l' =>
      have hlen := hsub.length_le
      rw [length_cons] at hlen
      exact ih (by omega)

/-! ## Words -/

/-- A text of the format of `sscanf`. -/
def scanText (t s : Bytes) : Option Bytes := if t.isPrefixOf s then some (s.drop t.length) else none

/-- The conversion `%ns` of `sscanf`: the word, and what stands behind it. -/
def scanWord (n : ℕ) (s : Bytes) : Option (Bytes × Bytes) :=
  let s := s.dropWhile isSpace
  let word := (s.takeWhile fun b => !isSpace b).take n
  if word = [] then none else some (word, s.drop word.length)

theorem scanText_append (t r : Bytes) : scanText t (t ++ r) = some r := by
  rw [scanText, if_pos (List.isPrefixOf_iff_prefix.mpr (prefix_append t r)), drop_left]

theorem isSuffix_of_scanText (h : scanText t s = some r) : r <:+ s := by
  rw [scanText] at h
  split at h
  · rw [← some.inj h]
    exact drop_suffix _ _
  · cases h

theorem scanWord_append {n : ℕ} (hs : s ≠ []) (hspace : ∀ b ∈ s, isSpace b = false)
    (hlen : s.length ≤ n) (hr : r.head?.all isSpace = true) :
    scanWord n (s ++ r) = some (s, r) := by
  have hdrop : (s ++ r).dropWhile isSpace = s ++ r := by
    obtain ⟨b, s, rfl⟩ := exists_cons_of_ne_nil hs
    rw [cons_append, dropWhile_cons_of_neg]
    rw [hspace b mem_cons_self]
    exact Bool.false_ne_true
  have htake : (s ++ r).takeWhile (fun b => !isSpace b) = s := by
    rw [takeWhile_append_of_pos fun b hb => by rw [hspace b hb]; rfl]
    cases r with
    | nil => simp
    | cons b r =>
      have hb : isSpace b = true := hr
      simp [hb]
  rw [scanWord, hdrop, htake, take_of_length_le hlen, if_neg hs, drop_left]

/-- A word is what stands between its place and what is behind it. -/
theorem scanWord_eq_some {n : ℕ} {word : Bytes} (h : scanWord n s = some (word, r)) :
    word ≠ [] ∧ word ++ r <:+ s := by
  rw [scanWord] at h
  split at h
  case isTrue => cases h
  case isFalse hne =>
    cases h
    refine ⟨hne, ?_⟩
    have hword : (((s.dropWhile isSpace).takeWhile fun b => !isSpace b).take n) <+:
        s.dropWhile isSpace := (List.take_prefix ..).trans (List.takeWhile_prefix _)
    obtain ⟨r, hr⟩ := hword
    refine List.IsSuffix.trans ?_ (dropWhile_suffix isSpace)
    nth_rewrite 3 [← hr]
    rw [drop_left]
    exact ⟨[], hr⟩

end CString
