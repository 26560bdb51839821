import OssecHids.Lib.Pcre2
import OssecHids.Lib.Stream
import OssecHids.Lib.StringOrder

/-!
# Patterns of rootcheck

`pt_matches` and `pt_check_negate`: the sub-patterns of a pattern are joined by `" && "`, and all of
them have to hold. A pattern is cut at the first blank of what is left of it, if that blank starts a
separator.

- `Pieces`: the sub-patterns at which the loops stop;
- `ptMatches_of_pieces`, `ptCheckNegate_of_pieces`: the loops, over the pattern and its copy;
- `pieces_join_iff`: when the sub-patterns that were joined are the ones that are found;
- `ptMatches_join`: what a pattern of joined sub-patterns means.
-/

open List

open CString Pcre2

namespace Rootcheck

/-- `strcasecmp(s, t) == 0`, of strings without their terminators. -/
def strcasecmpEq (s t : Bytes) : Bool := s.map tolower == t.map tolower

/-- `strncasecmp(s, t, n) == 0` -/
def strncasecmpEq (n : ℕ) (s t : Bytes) : Bool := strcasecmpEq (s.take n) (t.take n)

/-! ## Definitions -/

/-- The blank at which a pattern is cut. -/
def separator (pattern : Bytes) : Option ℕ :=
  match strchr (chr ' ') pattern with
  | none => none
  | some tmp_pt =>
    if tmp_pt.getD 1 0 = chr '&' ∧ tmp_pt.getD 2 0 = chr '&' ∧ tmp_pt.getD 3 0 = chr ' ' then
      some (ptrDiff tmp_pt pattern)
    else none

section Matches

variable (osRegex : Bytes → Bytes → Bool)

/-- The comparison with a sub-pattern that has no `!`. `osRegex` is `OS_Regex`. -/
def comparison (s pattern : Bytes) : Bool :=
  if strncasecmpEq 2 pattern (lit "=:") then strcasecmpEq (pattern.drop 2) s
  else if strncasecmpEq 2 pattern (lit "r:") then osRegex (pattern.drop 2) s
  else if strncasecmpEq 2 pattern (lit "<:") then strcmpSign (pattern.drop 2) s == .lt
  else if strncasecmpEq 2 pattern (lit ">:") then strcmpSign (pattern.drop 2) s == .gt
  else strcasecmpEq pattern s

/-- A sub-pattern holds for `s`. -/
def holds (s pattern : Bytes) : Bool :=
  if pattern.headD 0 = chr '!' then !comparison osRegex s (pattern.drop 1)
  else comparison osRegex s pattern

/-- The loop of `pt_matches`. The pattern is at `pattern` in `buf`; behind it stands a zero while it
is compared. -/
def ptMatchesLoop (s : Bytes) : ℕ → Bytes → ℕ → Option (Bool × Bytes)
  | 0, _, _ => none
  | fuel + 1, buf, pattern =>
    match separator (buf.drop pattern) with
    | none => some (holds osRegex s (str (buf.drop pattern)), buf)
    | some k =>
      let cut := setByte buf (pattern + k) 0
      let ret_code := holds osRegex s (str (cut.drop pattern))
      let buf := setByte cut (pattern + k) (chr ' ')
      if ret_code then ptMatchesLoop s fuel buf (pattern + k + 4) else some (false, buf)

/-- `pt_matches`: the answer, and the pattern behind the call. -/
def ptMatches (s : Option Bytes) (pattern : Bytes) : Option (Bool × Bytes) :=
  match s with
  | none => some (false, pattern)
  | some s => ptMatchesLoop osRegex s (pattern.length + 1) pattern 0

end Matches

def ptCheckNegateLoop : ℕ → Bytes → ℕ → Option Bool
  | 0, _, _ => none
  | fuel + 1, mypattern, tmp_pattern =>
    match separator (mypattern.drop tmp_pattern) with
    | none => some (mypattern.getD tmp_pattern 0 == chr '!')
    | some k =>
      let mypattern := setByte mypattern (tmp_pattern + k) 0
      if mypattern.getD tmp_pattern 0 = chr '!' then
        ptCheckNegateLoop fuel mypattern (tmp_pattern + k + 4)
      else some false

/-- `pt_check_negate`, which cuts a copy of the pattern. -/
def ptCheckNegate (pattern : Bytes) : Option Bool :=
  ptCheckNegateLoop (pattern.length + 1) pattern 0

/-- A sub-pattern with a `!`. -/
def negated (pattern : Bytes) : Bool := pattern.headD 0 == chr '!'

/-- The sub-patterns at which the loops stop. -/
inductive Pieces : Bytes → List Bytes → Prop
  | last {p} (h : separator p = none) : Pieces p [p]
  | cut {a rest ps} (ha : chr ' ' ∉ a) (h : Pieces rest ps) :
      Pieces (a ++ (lit " && " ++ rest)) (a :: ps)

/-- Sub-patterns, one behind the other. -/
def join (ps : List Bytes) : Bytes := (lit " && ").intercalate ps

/-- Only the last sub-pattern has blanks, and the first of them starts no separator. -/
def Separable : List Bytes → Prop
  | [] => False
  | [p] => separator p = none
  | p :: ps => chr ' ' ∉ p ∧ Separable ps

/-! ## The cuts -/

variable {osRegex : Bytes → Bytes → Bool} {s p a rest front : Bytes} {ps : List Bytes} {k : ℕ}

theorem separator_append (ha : chr ' ' ∉ a) (hz : ∀ b ∈ a, b ≠ 0) (rest : Bytes) :
    separator (a ++ (lit " && " ++ rest)) = some a.length := by
  have hchr : strchr (chr ' ') (a ++ (lit " && " ++ rest)) = some (lit " && " ++ rest) :=
    strchr_append ha hz
  rw [separator, hchr]
  dsimp only
  rw [if_pos (by exact ⟨rfl, rfl, rfl⟩), ptrDiff, length_append, Nat.add_sub_cancel]

/-- A string is cut at its first blank only. -/
theorem separator_eq_some (h : separator p = some k) :
    ∃ a rest, p = a ++ (lit " && " ++ rest) ∧ chr ' ' ∉ a := by
  rw [separator] at h
  split at h
  case h_1 => cases h
  case h_2 tmp_pt hchr =>
    obtain ⟨a, r, rfl, rfl, ha⟩ := exists_of_strchr_eq_some hchr
    split_ifs at h with hsep
    obtain ⟨h1, h2, h3⟩ := hsep
    -- the three bytes are there, since none of them is the zero behind the end
    match r, h1, h2, h3 with
    | [], h1, _, _ => exact absurd h1 (by decide)
    | [_], _, h2, _ =>
      have hzero : 0 = chr '&' := h2
      exact absurd hzero (by decide)
    | [_, _], _, _, h3 =>
      have hzero : 0 = chr ' ' := h3
      exact absurd hzero (by decide)
    | b1 :: b2 :: b3 :: rest, h1, h2, h3 =>
      obtain rfl : b1 = chr '&' := h1
      obtain rfl : b2 = chr '&' := h2
      obtain rfl : b3 = chr ' ' := h3
      exact ⟨a, rest, rfl, ha⟩

theorem Pieces.ne_nil (h : Pieces p ps) : ps ≠ [] := by
  cases h with
  | last => exact cons_ne_nil _ _
  | cut => exact cons_ne_nil _ _

theorem exists_pieces (p : Bytes) : ∃ ps, Pieces p ps := by
  induction hn : p.length using Nat.strong_induction_on generalizing p with
  | _ n ih =>
    cases hsep : separator p with
    | none => exact ⟨[p], .last hsep⟩
    | some k =>
      obtain ⟨a, rest, rfl, ha⟩ := separator_eq_some hsep
      have hlt : rest.length < n := by
        rw [← hn, length_append, length_append]
        have hfour : (lit " && ").length = 4 := rfl
        omega
      obtain ⟨ps, hps⟩ := ih _ hlt rest rfl
      exact ⟨a :: ps, .cut ha hps⟩

/-! ## The loops -/

theorem cut_at (front : Bytes) (hz : ∀ b ∈ a, b ≠ 0) (rest : Bytes) :
    str ((setByte (front ++ (a ++ (lit " && " ++ rest))) (front.length + a.length) 0).drop
        front.length) = a ∧
      setByte (setByte (front ++ (a ++ (lit " && " ++ rest))) (front.length + a.length) 0)
        (front.length + a.length) (chr ' ') = front ++ (a ++ (lit " && " ++ rest)) := by
  have hset : ∀ b c : UInt8, setByte (front ++ (a ++ (b :: (lit "&& " ++ rest))))
      (front.length + a.length) c = front ++ (a ++ (c :: (lit "&& " ++ rest))) := by
    intro b c
    rw [setByte, set_append_right _ _ (Nat.le_add_right _ _), Nat.add_sub_cancel_left,
      set_append_right _ _ le_rfl, Nat.sub_self, set_cons_zero]
  have hblank : lit " && " ++ rest = chr ' ' :: (lit "&& " ++ rest) := rfl
  rw [hblank, hset, hset]
  refine ⟨?_, rfl⟩
  rw [drop_left, str_append_zero hz]

theorem next_at (front a rest : Bytes) :
    front ++ (a ++ (lit " && " ++ rest)) = front ++ a ++ lit " && " ++ rest ∧
      front.length + a.length + 4 = (front ++ a ++ lit " && ").length := by
  constructor
  · simp only [append_assoc]
  · rw [length_append, length_append]
    rfl

theorem behind_cut {a rest : Bytes} {fuel : ℕ} (hz : ∀ b ∈ a ++ (lit " && " ++ rest), b ≠ 0)
    (hfuel : (a ++ (lit " && " ++ rest)).length < fuel + 1) :
    (∀ b ∈ a, b ≠ 0) ∧ (∀ b ∈ rest, b ≠ 0) ∧ rest.length < fuel := by
  have hfour : (lit " && ").length = 4 := rfl
  rw [length_append, length_append] at hfuel
  exact ⟨fun b hb => hz b (mem_append_left _ hb),
    fun b hb => hz b (mem_append_right _ (mem_append_right _ hb)), by omega⟩

/-- The loop stops at the first sub-pattern that does not hold. -/
theorem ptMatchesLoop_of_pieces (h : Pieces p ps) (hz : ∀ b ∈ p, b ≠ 0) {fuel : ℕ}
    (hfuel : p.length < fuel) (front : Bytes) :
    ptMatchesLoop osRegex s fuel (front ++ p) front.length =
      some (ps.all (holds osRegex s), front ++ p) := by
  induction h generalizing fuel front with
  | @last p hsep =>
    obtain ⟨fuel, rfl⟩ : ∃ n, fuel = n + 1 := ⟨fuel - 1, by omega⟩
    rw [ptMatchesLoop, drop_left, hsep]
    rw [str_eq_self hz, all_cons, all_nil, Bool.and_true]
  | @cut a rest ps ha _ ih =>
    obtain ⟨fuel, rfl⟩ : ∃ n, fuel = n + 1 := ⟨fuel - 1, by omega⟩
    obtain ⟨hza, hzrest, hlt⟩ := behind_cut hz hfuel
    obtain ⟨hpiece, hback⟩ := cut_at front hza rest
    rw [ptMatchesLoop, drop_left, separator_append ha hza]
    dsimp only
    rw [hpiece, hback, all_cons]
    cases holds osRegex s a with
    | false => rfl
    | true =>
      obtain ⟨hbuf, hpos⟩ := next_at front a rest
      rw [if_pos rfl, hbuf, hpos, ih hzrest hlt, Bool.true_and]

/-- **`pt_matches` over the sub-patterns that it finds**; the pattern is left as it was. -/
theorem ptMatches_of_pieces (h : Pieces p ps) (hz : ∀ b ∈ p, b ≠ 0) :
    ptMatches osRegex (some s) p = some (ps.all (holds osRegex s), p) :=
  ptMatchesLoop_of_pieces h hz (Nat.lt_succ_self _) []

theorem getD_append_front (front : Bytes) (r : Bytes) :
    (front ++ r).getD front.length 0 = r.headD 0 := by
  cases r <;> simp

theorem ptCheckNegateLoop_of_pieces (h : Pieces p ps) (hz : ∀ b ∈ p, b ≠ 0) {fuel : ℕ}
    (hfuel : p.length < fuel) (front : Bytes) :
    ptCheckNegateLoop fuel (front ++ p) front.length = some (ps.all negated) := by
  induction h generalizing fuel front with
  | @last p hsep =>
    obtain ⟨fuel, rfl⟩ : ∃ n, fuel = n + 1 := ⟨fuel - 1, by omega⟩
    rw [ptCheckNegateLoop, drop_left, hsep]
    rw [getD_append_front, all_cons, all_nil, Bool.and_true, negated]
  | @cut a rest ps ha _ ih =>
    obtain ⟨fuel, rfl⟩ : ∃ n, fuel = n + 1 := ⟨fuel - 1, by omega⟩
    obtain ⟨hza, hzrest, hlt⟩ := behind_cut hz hfuel
    have hset : setByte (front ++ (a ++ (lit " && " ++ rest))) (front.length + a.length) 0 =
        front ++ a ++ (0 :: lit "&& ") ++ rest := by
      have hblank : lit " && " ++ rest = chr ' ' :: (lit "&& " ++ rest) := rfl
      rw [hblank, setByte, set_append_right _ _ (Nat.le_add_right _ _), Nat.add_sub_cancel_left,
        set_append_right _ _ le_rfl, Nat.sub_self, set_cons_zero]
      simp only [append_assoc, cons_append]
    have hhead : (front ++ a ++ (0 :: lit "&& ") ++ rest).getD front.length 0 = a.headD 0 := by
      rw [append_assoc, append_assoc, getD_append_front]
      cases a <;> rfl
    have hpos : front.length + a.length + 4 = (front ++ a ++ (0 :: lit "&& ")).length := by
      rw [length_append, length_append]
      rfl
    rw [ptCheckNegateLoop, drop_left, separator_append ha hza]
    dsimp only
    rw [hset, hhead, hpos, ih hzrest hlt, all_cons, negated]
    by_cases hneg : a.headD 0 = chr '!'
    · rw [if_pos hneg, beq_iff_eq.mpr hneg, Bool.true_and]
    · rw [if_neg hneg, beq_eq_false_iff_ne.mpr hneg, Bool.false_and]

/-- **`pt_check_negate` over the sub-patterns that it finds.** -/
theorem ptCheckNegate_of_pieces (h : Pieces p ps) (hz : ∀ b ∈ p, b ≠ 0) :
    ptCheckNegate p = some (ps.all negated) :=
  ptCheckNegateLoop_of_pieces h hz (Nat.lt_succ_self _) []

/-! ## Joined sub-patterns -/

theorem join_cons_cons (a p : Bytes) (ps : List Bytes) :
    join (a :: p :: ps) = a ++ (lit " && " ++ join (p :: ps)) := by
  rw [join, intercalate_cons_cons, append_assoc]
  rfl

theorem pieces_of_separable (h : Separable ps) : Pieces (join ps) ps := by
  induction ps with
  | nil => exact h.elim
  | cons a ps ih =>
    cases ps with
    | nil =>
      have hjoin : join [a] = a := intercalate_singleton ..
      rw [hjoin]
      exact .last h
    | cons p ps =>
      exact .cut h.1 (ih h.2)

theorem separable_of_pieces (h : Pieces p ps) : Separable ps := by
  induction h with
  | last hsep => exact hsep
  | @cut a rest ps ha h ih =>
    obtain ⟨q, qs, rfl⟩ := exists_cons_of_ne_nil h.ne_nil
    exact ⟨ha, ih⟩

theorem pieces_join_iff : Pieces (join ps) ps ↔ Separable ps :=
  ⟨separable_of_pieces, pieces_of_separable⟩

theorem mem_join_of_mem {b : UInt8} (h : b ∈ join ps) : (∃ p ∈ ps, b ∈ p) ∨ b ∈ lit " && " := by
  induction ps with
  | nil => exact absurd h not_mem_nil
  | cons a ps ih =>
    cases ps with
    | nil =>
      have hjoin : join [a] = a := intercalate_singleton ..
      rw [hjoin] at h
      exact .inl ⟨a, mem_singleton_self a, h⟩
    | cons p ps =>
      rw [join_cons_cons, mem_append, mem_append] at h
      rcases h with h | h | h
      · exact .inl ⟨a, mem_cons_self, h⟩
      · exact .inr h
      · rcases ih h with ⟨q, hq, hb⟩ | hb
        · exact .inl ⟨q, mem_cons_of_mem a hq, hb⟩
        · exact .inr hb

theorem ne_zero_of_mem_join (hz : ∀ p ∈ ps, ∀ b ∈ p, b ≠ 0) : ∀ b ∈ join ps, b ≠ 0 := by
  intro b hb
  rcases mem_join_of_mem hb with ⟨p, hp, hb⟩ | hb
  · exact hz p hp b hb
  · rintro rfl
    exact absurd hb (by decide)

/-- A sub-pattern of a separable pattern is one when it stands alone. -/
theorem Separable.separator_eq_none (h : Separable ps) (hp : p ∈ ps) : separator p = none := by
  induction ps with
  | nil => exact h.elim
  | cons a ps ih =>
    cases ps with
    | nil =>
      rw [mem_singleton.mp hp]
      exact h
    | cons q ps =>
      rcases mem_cons.mp hp with rfl | hp
      · cases hsep : separator p with
        | none => rfl
        | some k =>
          obtain ⟨a, rest, rfl, -⟩ := separator_eq_some hsep
          have hblank : chr ' ' ∈ lit " && " := by decide
          exact absurd (mem_append_right _ (mem_append_left _ hblank)) h.1
      · exact ih h.2 hp

/-- **What a pattern of joined sub-patterns means**, if only the last one has blanks: all of them have
to hold. The pattern is the same behind the call, whatever it is. -/
theorem ptMatches_join (osRegex : Bytes → Bytes → Bool) (ps : List Bytes)
    (hz : ∀ p ∈ ps, ∀ b ∈ p, b ≠ 0) :
    (Separable ps ↔ Pieces (join ps) ps) ∧
      (∀ s, ∃ ret_code, ptMatches osRegex (some s) (join ps) = some (ret_code, join ps)) ∧
      (Separable ps →
        (∀ s, ptMatches osRegex (some s) (join ps) = some (ps.all (holds osRegex s), join ps) ∧
          ∀ p ∈ ps, ptMatches osRegex (some s) p = some (holds osRegex s p, p)) ∧
        ptCheckNegate (join ps) = some (ps.all negated)) := by
  have hzjoin := ne_zero_of_mem_join hz
  refine ⟨pieces_join_iff.symm, fun s => ?_, fun h => ⟨fun s => ⟨?_, fun p hp => ?_⟩, ?_⟩⟩
  · obtain ⟨qs, hqs⟩ := exists_pieces (join ps)
    exact ⟨_, ptMatches_of_pieces hqs hzjoin⟩
  · exact ptMatches_of_pieces (pieces_of_separable h) hzjoin
  · rw [ptMatches_of_pieces (.last (h.separator_eq_none hp)) (hz p hp), all_cons, all_nil,
      Bool.and_true]
  · exact ptCheckNegate_of_pieces (pieces_of_separable h) hzjoin

/-- The last of two sub-patterns has a blank. -/
theorem ptMatches_join_two :
    ptMatches (fun _ _ => false) (some (lit "x y")) (join [lit "!a", lit "X y"]) =
        some (true, lit "!a && X y") ∧
      ptCheckNegate (join [lit "!a", lit "X y"]) = some false := by
  have hz : ∀ p ∈ [lit "!a", lit "X y"], ∀ b ∈ p, b ≠ 0 := by
    simp only [forall_mem_cons]
    exact ⟨forall_mem_of_all (by decide), forall_mem_of_all (by decide), nofun⟩
  have h := (ptMatches_join (fun _ _ => false) [lit "!a", lit "X y"] hz).2.2
    ⟨by decide, by rfl⟩
  exact ⟨(h.1 (lit "x y")).1, h.2⟩

/-- The first of two sub-patterns has a blank: both of them hold, and their pattern does not. One that
is not negated is overlooked. -/
theorem not_ptMatches_join :
    (holds (fun _ _ => false) (lit "a b") (lit "a b") = true ∧
      holds (fun _ _ => false) (lit "a b") (lit "A B") = true ∧
      ptMatches (fun _ _ => false) (some (lit "a b")) (join [lit "a b", lit "A B"]) =
        some (false, lit "a b && A B")) ∧
    negated (lit "c") = false ∧ ptCheckNegate (join [lit "!a b", lit "c"]) = some true := by
  decide

end Rootcheck
