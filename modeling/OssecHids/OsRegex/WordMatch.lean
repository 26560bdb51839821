import Mathlib.Data.List.SplitOn
import OssecHids.OsRegex.Compile

/-!
# Word matches

`OS_WordMatch`: whether one of the alternatives of a pattern is found in a string. A pointer into a
string is the list of the bytes from it to the zero byte at the end; reading behind that byte makes
the result `none`.

- `scanRest_spec`, `scanFrom_spec`: the loops of `_InternalMatch`;
- `internalMatch_eq`: what it decides of the alternative that the pattern begins with;
- `osWordMatch_eq`: the answer, which is never `none`.
-/

open List

open CString Pcre2

namespace OsRegex

/-- The table `charmap`: capitals become small letters. -/
def charmap (b : UInt8) : UInt8 := tolower b

/-- How the comparison of the letters behind the first one ends. -/
inductive Scan
  /-- `*pt == last_char` -/
  | hit
  /-- The string is at its end. -/
  | ended
  /-- `goto error` -/
  | mismatch
  deriving DecidableEq

/-- The inner loop of `_InternalMatch`. -/
def scanRest (last_char : UInt8) : Bytes → Bytes → Option Scan
  | [], _ => none
  | p :: pt, st =>
    if p = last_char then some .hit
    else
      match st with
      | [] => none
      | c :: st =>
        if c = 0 then some .ended
        else if charmap p ≠ charmap c then some .mismatch
        else scanRest last_char pt st

/-- The loop of `_InternalMatch` over the places where the pattern may begin. -/
def scanFrom (last_char p : UInt8) (pt : Bytes) : Bytes → Option Bool
  | [] => none
  | c :: st =>
    let next :=
      match st with
      | [] => none
      | c' :: _ => if c' = 0 then some false else scanFrom last_char p pt st
    if charmap c = charmap p then
      match scanRest last_char pt st with
      | none => none
      | some .hit => some true
      | some .ended => some false
      | some .mismatch => next
    else next

/-- `_InternalMatch` -/
def internalMatch (pattern str : Bytes) (pattern_size : ℕ) : Option Bool :=
  match pattern[pattern_size]?, pattern with
  | some last_char, p :: pt =>
    if pattern_size = 0 then some true
    -- if '^' is specified, just a `strncasecmp`
    else if p = chr '^' then some (strncmpCaseEq true (pattern_size - 1) pt str)
    else
      match str with
      | [] => none
      | c :: _ => if c = 0 then some false else scanFrom last_char p pt str
  | _, _ => none

/-- The loop of `OS_WordMatch`, and the call behind it. -/
def wordMatchLoop (str : Bytes) : ℕ → Bytes → ℕ → Option Bool
  | 0, _, _ => none
  | fuel + 1, pattern, count =>
    match pattern[count]? with
    | none => none
    | some b =>
      let found := if b = chr '|' then internalMatch pattern str count else some false
      let pattern' := if b = chr '|' then pattern.drop (count + 1) else pattern
      let count' := if b = chr '|' then 0 else count + 1
      match found, pattern'[count']? with
      | some true, _ => some true
      | some false, some b' =>
        if b' ≠ 0 then wordMatchLoop str fuel pattern' count'
        else internalMatch pattern' str count'
      | _, _ => none

/-- `OS_WordMatch` -/
def osWordMatch (pattern str : Bytes) : Option Bool :=
  if pattern = [] then some false
  else wordMatchLoop (str ++ [(0 : UInt8)]) pattern.length (pattern ++ [(0 : UInt8)]) 0

/-! ## What is looked for -/

/-- The string has the text somewhere. -/
def Contains (caseless : Bool) (t s : Bytes) : Prop :=
  ∃ before rest, s = before ++ rest ∧ StartsWith caseless t rest

/-- An alternative is found: it is empty, or it is an anchor and a text that the string begins with,
or a text without an anchor that the string contains. -/
def Found (alternative s : Bytes) : Prop :=
  alternative = [] ∨ (∃ t, alternative = chr '^' :: t ∧ StartsWith true t s) ∨
    (alternative.headD 0 ≠ chr '^' ∧ Contains true alternative s)

section Scan

variable {t s : Bytes} {last_char p : UInt8}

theorem startsWith_nil (s : Bytes) : StartsWith true [] s := ⟨[], s, rfl, rfl⟩

theorem startsWith_cons {b c : UInt8} :
    StartsWith true (b :: t) (c :: s) ↔ charmap b = charmap c ∧ StartsWith true t s := by
  constructor
  · rintro ⟨x, rest, heq, hx⟩
    cases x with
    | nil => exact absurd hx.length_eq (by simp)
    | cons d x =>
      obtain ⟨rfl, rfl⟩ := List.cons.inj heq
      obtain ⟨hd, hx⟩ := List.cons.inj hx
      exact ⟨hd.symm, x, rest, rfl, hx⟩
  · rintro ⟨hbc, x, rest, rfl, hx⟩
    refine ⟨c :: x, rest, rfl, ?_⟩
    rw [Same, map_cons, map_cons, hx]
    congr 1
    exact hbc.symm

/-- The zero byte at the end of the string is no part of what it begins with. -/
theorem startsWith_append_zero (ht : ∀ b ∈ t, b ≠ 0) :
    StartsWith true t (s ++ [0]) ↔ StartsWith true t s := by
  induction t generalizing s with
  | nil => exact ⟨fun _ => startsWith_nil _, fun _ => startsWith_nil _⟩
  | cons b t ih =>
    rw [forall_mem_cons] at ht
    cases s with
    | nil =>
      rw [nil_append, startsWith_cons]
      constructor
      · rintro ⟨hb, -⟩
        exact absurd ((@fold_eq_zero true b).mp hb) ht.1
      · rintro ⟨x, rest, heq, hx⟩
        obtain ⟨rfl, -⟩ := append_eq_nil_iff.mp heq.symm
        exact absurd hx.length_eq (by simp)
    | cons c s => rw [cons_append, startsWith_cons, startsWith_cons, ih ht.2]

theorem not_startsWith_of_length {caseless : Bool} (h : s.length < t.length) :
    ¬ StartsWith caseless t s := by
  rintro ⟨x, rest, rfl, hx⟩
  have hlen := hx.length_eq
  rw [length_append] at h
  omega

theorem not_contains_of_length {caseless : Bool} (h : s.length < t.length) :
    ¬ Contains caseless t s := by
  rintro ⟨before, rest, rfl, hrest⟩
  rw [length_append] at h
  exact not_startsWith_of_length (by omega) hrest

theorem contains_cons {caseless : Bool} {c : UInt8} :
    Contains caseless t (c :: s) ↔ StartsWith caseless t (c :: s) ∨ Contains caseless t s := by
  constructor
  · rintro ⟨before, rest, heq, hrest⟩
    cases before with
    | nil =>
      rw [nil_append] at heq
      exact .inl (heq ▸ hrest)
    | cons d before =>
      obtain ⟨-, rfl⟩ := List.cons.inj heq
      exact .inr ⟨before, rest, rfl, hrest⟩
  · rintro (h | ⟨before, rest, rfl, hrest⟩)
    · exact ⟨[], c :: s, rfl, h⟩
    · exact ⟨c :: before, rest, rfl, hrest⟩

/-- The inner loop compares the text with the beginning of the string; it stops at the end of the
string only if that is too short. -/
theorem scanRest_spec (ht : ∀ b ∈ t, b ≠ last_char) (hs : ∀ b ∈ s, b ≠ 0) (r : Bytes) :
    ∃ result, scanRest last_char (t ++ last_char :: r) (s ++ [0]) = some result ∧
      (result = .hit ↔ StartsWith true t s) ∧ (result = .ended → s.length < t.length) := by
  induction t generalizing s with
  | nil =>
    refine ⟨.hit, ?_, ⟨fun _ => startsWith_nil s, fun _ => rfl⟩, nofun⟩
    rw [nil_append, scanRest.eq_def]
    exact if_pos rfl
  | cons b t ih =>
    rw [forall_mem_cons] at ht
    rw [cons_append, scanRest.eq_def]
    dsimp only
    rw [if_neg ht.1]
    cases s with
    | nil =>
      refine ⟨.ended, rfl, ⟨nofun, fun h => absurd h (not_startsWith_of_length ?_)⟩, fun _ => ?_⟩
      · exact Nat.succ_pos _
      · exact Nat.succ_pos _
    | cons c s =>
      rw [forall_mem_cons] at hs
      rw [cons_append]
      dsimp only
      rw [if_neg hs.1, startsWith_cons]
      by_cases hbc : charmap b = charmap c
      · obtain ⟨result, hresult, hhit, hended⟩ := ih ht.2 hs.2
        rw [if_neg (not_not_intro hbc)]
        refine ⟨result, hresult, hhit.trans ⟨fun h => ⟨hbc, h⟩, fun h => h.2⟩, fun h => ?_⟩
        exact Nat.succ_lt_succ (hended h)
      · rw [if_pos hbc]
        exact ⟨.mismatch, rfl, ⟨nofun, fun h => absurd h.1 hbc⟩, nofun⟩

/-- The outer loop finds the text wherever it is. -/
theorem scanFrom_spec (ht : ∀ b ∈ t, b ≠ last_char) (hs : ∀ b ∈ s, b ≠ 0) (hne : s ≠ [])
    (r : Bytes) :
    ∃ result, scanFrom last_char p (t ++ last_char :: r) (s ++ [0]) = some result ∧
      (result = true ↔ Contains true (p :: t) s) := by
  induction s with
  | nil => exact absurd rfl hne
  | cons c s ih =>
    rw [forall_mem_cons] at hs
    -- what the loop finds behind this place
    have hnext : ∃ result, (match s ++ [(0 : UInt8)] with
        | [] => none
        | c' :: _ => if c' = 0 then some false
          else scanFrom last_char p (t ++ last_char :: r) (s ++ [0])) = some result ∧
        (result = true ↔ Contains true (p :: t) s) := by
      cases s with
      | nil => exact ⟨false, rfl, nofun, fun h => absurd h (not_contains_of_length (Nat.succ_pos _))⟩
      | cons c' s =>
        have hc' : c' ≠ 0 := hs.2 c' mem_cons_self
        rw [cons_append]
        dsimp only
        rw [if_neg hc']
        exact ih hs.2 (cons_ne_nil _ _)
    obtain ⟨next, hnext, hfound⟩ := hnext
    rw [cons_append, scanFrom.eq_def, contains_cons, startsWith_cons]
    dsimp only
    rw [hnext]
    by_cases hp : charmap c = charmap p
    · obtain ⟨result, hresult, hhit, hended⟩ := scanRest_spec ht hs.2 r
      rw [if_pos hp, hresult]
      cases result with
      | hit => exact ⟨true, rfl, fun _ => .inl ⟨hp.symm, hhit.mp rfl⟩, fun _ => rfl⟩
      | ended =>
        have hshort := hended rfl
        refine ⟨false, rfl, nofun, ?_⟩
        rintro (⟨-, h⟩ | h)
        · exact absurd h (not_startsWith_of_length hshort)
        · exact absurd h (not_contains_of_length (Nat.lt_succ_of_lt hshort))
      | mismatch =>
        refine ⟨next, rfl, hfound.trans ⟨.inr, ?_⟩⟩
        rintro (⟨-, h⟩ | h)
        · exact absurd (hhit.mpr h) nofun
        · exact h
    · rw [if_neg hp]
      refine ⟨next, rfl, hfound.trans ⟨.inr, ?_⟩⟩
      rintro (⟨h, -⟩ | h)
      · exact absurd h.symm hp
      · exact h

end Scan

/-! ## The alternatives -/

section Alternatives

variable {alternative rest s : Bytes} {last_char : UInt8}

/-- `_InternalMatch` decides whether the alternative that the pattern begins with is found. -/
theorem internalMatch_eq (ht : ∀ b ∈ alternative, b ≠ 0 ∧ b ≠ last_char) (hs : ∀ b ∈ s, b ≠ 0) :
    ∃ result, internalMatch (alternative ++ last_char :: rest) (s ++ [0]) alternative.length =
      some result ∧ (result = true ↔ Found alternative s) := by
  have hlast : (alternative ++ last_char :: rest)[alternative.length]? = some last_char := by
    rw [getElem?_append_right (Nat.le_refl _), Nat.sub_self]
    rfl
  rw [internalMatch.eq_def, hlast]
  cases alternative with
  | nil => exact ⟨true, rfl, fun _ => .inl rfl, fun _ => rfl⟩
  | cons p t =>
    rw [forall_mem_cons] at ht
    rw [cons_append]
    dsimp only
    rw [length_cons, if_neg (Nat.succ_ne_zero _), Nat.add_sub_cancel]
    by_cases hanchor : p = chr '^'
    · subst hanchor
      have hz : ∀ b ∈ t, b ≠ 0 := fun b hb => (ht.2 b hb).1
      have hcompare : strncmpCaseEq true t.length (t ++ last_char :: rest) (s ++ [0]) = true ↔
          StartsWith true t s := by
        rw [strncmpCaseEq, map_append, strncmpEq_append _ _ (by rw [length_map]),
          ← strncmpCaseEq, strncmpCaseEq_iff hz, startsWith_append_zero hz]
      rw [if_pos rfl]
      refine ⟨_, rfl, hcompare.trans ⟨fun h => .inr (.inl ⟨t, rfl, h⟩), ?_⟩⟩
      rintro (h | ⟨t', ht', h⟩ | ⟨h, -⟩)
      · cases h
      · obtain rfl := (List.cons.inj ht').2
        exact h
      · exact absurd rfl h
    · rw [if_neg hanchor]
      have hfound : Found (p :: t) s ↔ Contains true (p :: t) s := by
        constructor
        · rintro (h | ⟨t', ht', -⟩ | ⟨-, h⟩)
          · cases h
          · exact absurd (List.cons.inj ht').1 hanchor
          · exact h
        · exact fun h => .inr (.inr ⟨hanchor, h⟩)
      rw [hfound]
      cases s with
      | nil =>
        exact ⟨false, rfl, iff_of_false Bool.false_ne_true (not_contains_of_length (Nat.succ_pos _))⟩
      | cons c s =>
        rw [cons_append]
        dsimp only
        rw [if_neg (hs c mem_cons_self)]
        exact scanFrom_spec (fun b hb => (ht.2 b hb).2) hs (cons_ne_nil _ _) rest

theorem wordMatchLoop_eq {pattern before : Bytes} {fuel : ℕ} (hfuel : pattern.length ≤ fuel)
    (hpattern : ∀ b ∈ pattern, b ≠ 0) (hne : pattern ≠ [])
    (hbefore : ∀ b ∈ before, b ≠ 0 ∧ b ≠ chr '|') (hs : ∀ b ∈ s, b ≠ 0) :
    ∃ result, wordMatchLoop (s ++ [0]) fuel (before ++ (pattern ++ [0])) before.length =
      some result ∧
      (result = true ↔ ∃ t ∈ (before ++ pattern).splitOn (chr '|'), Found t s) := by
  induction fuel generalizing before pattern with
  | zero => exact absurd (eq_nil_of_length_eq_zero (Nat.le_zero.mp hfuel)) hne
  | succ fuel ih =>
    obtain ⟨b, pattern, rfl⟩ := exists_cons_of_ne_nil hne
    rw [forall_mem_cons] at hpattern
    have hat : (before ++ (b :: pattern ++ [(0 : UInt8)]))[before.length]? = some b := by
      rw [getElem?_append_right (Nat.le_refl _), Nat.sub_self]
      rfl
    rw [wordMatchLoop, hat]
    dsimp only
    by_cases hbar : b = chr '|'
    · subst hbar
      rw [if_pos rfl, if_pos rfl, if_pos rfl]
      obtain ⟨result, hresult, hfound⟩ := @internalMatch_eq _ (pattern ++ [0]) _ (chr '|') hbefore hs
      have hdrop : (before ++ (chr '|' :: pattern ++ [(0 : UInt8)])).drop (before.length + 1) =
          pattern ++ [0] := by
        rw [← drop_drop, drop_left]
        rfl
      have hsplit : (before ++ chr '|' :: pattern).splitOn (chr '|') =
          before :: pattern.splitOn (chr '|') :=
        splitOn_append_cons_self_of_not_mem (fun h => (hbefore _ h).2 rfl) pattern
      have hcall : internalMatch (before ++ (chr '|' :: pattern ++ [(0 : UInt8)])) (s ++ [0])
          before.length = some result := hresult
      rw [hcall, hdrop, hsplit]
      cases result with
      | true => exact ⟨true, rfl, fun _ => ⟨before, mem_cons_self, hfound.mp rfl⟩, fun _ => rfl⟩
      | false =>
        have hnot : ¬ Found before s := fun h => Bool.false_ne_true (hfound.mpr h)
        cases pattern with
        | nil =>
          -- the last alternative is empty
          exact ⟨true, rfl, fun _ => ⟨[], by simp, .inl rfl⟩, fun _ => rfl⟩
        | cons c pattern =>
          obtain ⟨result, hresult, hrest⟩ := @ih (c :: pattern) []
            (Nat.le_of_succ_le_succ hfuel) hpattern.2 (cons_ne_nil _ _)
            (fun _ h => absurd h not_mem_nil)
          rw [cons_append]
          dsimp only [getElem?_cons_zero]
          rw [if_pos (hpattern.2 c mem_cons_self)]
          refine ⟨result, hresult, hrest.trans ?_⟩
          rw [nil_append]
          constructor
          · rintro ⟨t, ht, h⟩
            exact ⟨t, mem_cons_of_mem _ ht, h⟩
          · rintro ⟨t, ht, h⟩
            rcases mem_cons.mp ht with rfl | ht
            · exact absurd h hnot
            · exact ⟨t, ht, h⟩
    · rw [if_neg hbar, if_neg hbar, if_neg hbar]
      have hbefore' : ∀ c ∈ before ++ [b], c ≠ 0 ∧ c ≠ chr '|' := by
        intro c hc
        rcases mem_append.mp hc with hc | hc
        · exact hbefore c hc
        · rw [mem_singleton.mp hc]
          exact ⟨hpattern.1, hbar⟩
      have hlen : before.length + 1 = (before ++ [b]).length := by simp
      have hbytes : before ++ (b :: pattern ++ [(0 : UInt8)]) =
          (before ++ [b]) ++ (pattern ++ [0]) := by simp
      have htext : before ++ b :: pattern = (before ++ [b]) ++ pattern := by simp
      rw [hbytes, htext, hlen]
      cases pattern with
      | nil =>
        have hat' : ((before ++ [b]) ++ ([] ++ [(0 : UInt8)]))[(before ++ [b]).length]? = some 0 := by
          rw [getElem?_append_right (Nat.le_refl _), Nat.sub_self]
          rfl
        have hsplit : (before ++ [b] ++ []).splitOn (chr '|') = [before ++ [b]] := by
          rw [append_nil]
          exact splitOn_eq_singleton fun h => (hbefore' _ h).2 rfl
        rw [hat', hsplit]
        dsimp only
        rw [if_neg (by decide)]
        obtain ⟨result, hresult, hfound⟩ := @internalMatch_eq _ [] _ 0
          (fun c hc => ⟨(hbefore' c hc).1, (hbefore' c hc).1⟩) hs
        refine ⟨result, hresult, hfound.trans ?_⟩
        simp
      | cons c pattern =>
        have hat' : ((before ++ [b]) ++ (c :: pattern ++ [(0 : UInt8)]))[(before ++ [b]).length]? =
            some c := by
          rw [getElem?_append_right (Nat.le_refl _), Nat.sub_self]
          rfl
        rw [hat']
        dsimp only
        rw [if_pos (hpattern.2 c mem_cons_self)]
        exact ih (Nat.le_of_succ_le_succ hfuel) hpattern.2 (cons_ne_nil _ _) hbefore'

end Alternatives

/-- A word matches if and only if the pattern is not empty and one of its alternatives is found; no
byte outside of the two strings is read. -/
theorem osWordMatch_eq (pattern str : Bytes) (hpattern : ∀ b ∈ pattern, b ≠ 0)
    (hstr : ∀ b ∈ str, b ≠ 0) :
    ∃ result, osWordMatch pattern str = some result ∧
      (result = true ↔ pattern ≠ [] ∧ ∃ t ∈ pattern.splitOn (chr '|'), Found t str) := by
  rw [osWordMatch]
  split_ifs with hne
  · exact ⟨false, rfl, nofun, fun h => absurd hne h.1⟩
  · obtain ⟨result, hresult, hfound⟩ := @wordMatchLoop_eq _ _ [] _ (Nat.le_refl _) hpattern hne
      (fun _ h => absurd h not_mem_nil) hstr
    refine ⟨result, hresult, hfound.trans ?_⟩
    exact ⟨fun h => ⟨hne, h⟩, fun h => h.2⟩

/-- An anchored alternative is not found in the middle of the string. -/
theorem osWordMatch_eq_anchor :
    ∃ result, osWordMatch (lit "cron|^su") (lit "issu") = some result ∧
      (result = true ↔ lit "cron|^su" ≠ [] ∧
        ∃ t ∈ (lit "cron|^su").splitOn (chr '|'), Found t (lit "issu")) :=
  osWordMatch_eq (lit "cron|^su") (lit "issu") (forall_mem_of_all (by decide))
    (forall_mem_of_all (by decide))

/-- The alternative `^su` is a part of the string, but there it is an anchor. -/
theorem not_contains_imp_osWordMatch :
    ¬ ∀ pattern str : Bytes, pattern ≠ [] → (∀ b ∈ pattern, b ≠ 0) → (∀ b ∈ str, b ≠ 0) →
      (∃ t ∈ pattern.splitOn (chr '|'), Contains true t str) →
      osWordMatch pattern str = some true := by
  intro h
  have hcall := h (lit "^su") (lit "a^su") (by decide) (forall_mem_of_all (by decide))
    (forall_mem_of_all (by decide))
    ⟨lit "^su", by decide, lit "a", lit "^su", rfl, lit "^su", [], rfl, rfl⟩
  exact absurd hcall (by decide)

end OsRegex
