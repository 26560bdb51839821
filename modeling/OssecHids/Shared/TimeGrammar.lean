import OssecHids.Shared.TimeRange

/-!
# The grammar of time ranges

What `OS_IsValidTime` takes, against the times that a range may be written with.

- `TimeText`, `RangeText`: a time and a range as they are written;
- `getHour_of_taken`, `taken_of_getHour`, `getHour_eq_none_iff`: what `__gethour` makes of a time;
- `readTimes_of_taken`, `taken_of_readTimes`, `readTimes_eq_none_iff`: the same of a range;
- `grammatical_iff_right`: which strings are read as the grammar says.
-/

open CString List Option

namespace ValidateOp

/-! ## Times as they are written -/

/-- Blanks. -/
def blanks (n : ℕ) : Bytes := List.replicate n (chr ' ')

/-- A time: the digits of the hour, the two characters behind the colon, and the two letters behind
some blanks. -/
structure TimeText where
  hour : Bytes
  minute : Option (UInt8 × UInt8)
  half : Option (ℕ × UInt8 × UInt8)
  deriving DecidableEq

namespace TimeText

variable (t : TimeText)

def minuteText : Bytes :=
  match t.minute with
  | none => []
  | some (x, y) => [chr ':', x, y]

def halfText : Bytes :=
  match t.half with
  | none => []
  | some (n, b, c) => blanks n ++ [b, c]

def text : Bytes := t.hour ++ (t.minuteText ++ t.halfText)

/-- The number of the minute. -/
def minutes : ℕ :=
  match t.minute with
  | none => 0
  | some (x, y) => digitsValue [x, y]

/-- The half of the day is the second one. -/
def pm : Bool :=
  match t.half with
  | none => false
  | some (_, b, _) => b == chr 'p' || b == chr 'P'

end TimeText

/-- `am` or `pm`, in letters of any case. -/
def IsHalf (b c : UInt8) : Prop :=
  ((b = chr 'a' ∨ b = chr 'A') ∨ b = chr 'p' ∨ b = chr 'P') ∧ (c = chr 'm' ∨ c = chr 'M')

/-- The hour has one or two digits, and the minute two, below 60. -/
structure TimeText.Numeric (t : TimeText) : Prop where
  hour : t.hour ≠ []
  minute : ∀ x y, t.minute = some (x, y) → isDigit x = true ∧ isDigit y = true
  minutes : t.minutes < 60

/-- The time denotes a minute of the day: an hour below 24, or one from 1 to 12 with a half of the
day. -/
structure TimeText.Denotes (t : TimeText) (m : ℕ) : Prop where
  digits : ∀ b ∈ t.hour, isDigit b = true
  short : t.hour.length ≤ 2
  numeric : t.Numeric
  value : match t.half with
    | none => digitsValue t.hour < 24 ∧ m = 60 * digitsValue t.hour + t.minutes
    | some (_, b, c) => IsHalf b c ∧ 1 ≤ digitsValue t.hour ∧ digitsValue t.hour ≤ 12 ∧
      m = 60 * (digitsValue t.hour % 12 + if t.pm then 12 else 0) + t.minutes

/-- A range, with the numbers of its blanks. -/
structure RangeText where
  before : ℕ
  /-- The blanks behind the `!`. -/
  bang : Option ℕ
  first : TimeText
  left : ℕ
  right : ℕ
  second : TimeText
  after : ℕ

namespace RangeText

def bangText : Option ℕ → Bytes
  | none => []
  | some n => chr '!' :: blanks n

def text (r : RangeText) : Bytes :=
  blanks r.before ++ (bangText r.bang ++ (r.first.text ++ (blanks r.left ++
    chr '-' :: (blanks r.right ++ (r.second.text ++ blanks r.after)))))

end RangeText

/-- The string is a range of two times, negated or not. -/
def DenotesRange (s : Bytes) (ng : Bool) (a b : ℕ) : Prop :=
  ∃ r : RangeText, r.text = s ∧ r.bang.isSome = ng ∧ r.first.Denotes a ∧ r.second.Denotes b

/-- `OS_IsValidTime` does not read behind the end of the string, and accepts it as the range that it
denotes. -/
def ReadAsDenoted (s : Bytes) : Prop :=
  ∃ result, readTimes s = some result ∧ ∀ ng first_hour second_hour,
    result = some (ng, first_hour, second_hour) ↔
      ∃ a b, DenotesRange s ng a b ∧ first_hour = clock a ∧ second_hour = clock b

/-! ## What is taken for a time -/

/-- What `__gethour` takes for a time. The hour may be missing, the minute is any two characters,
and 13 to 23 o'clock may be in the first half of the day. -/
structure TimeText.Taken (t : TimeText) : Prop where
  digits : ∀ b ∈ t.hour, isDigit b = true
  short : t.hour.length ≤ 2
  hour : digitsValue t.hour < 24
  half : ∀ n b c, t.half = some (n, b, c) → IsHalf b c ∧ (t.pm = true → digitsValue t.hour ≤ 12)
  /-- No blanks at the beginning. -/
  tight : t.hour = [] → t.minute = none → ∀ n b c, t.half = some (n, b, c) → n = 0

/-- A time that is taken for what it denotes: hour and minute are numbers, and with a half of the
day the hour is one of twelve, but not `12 am`. -/
def TimeText.Right (t : TimeText) : Prop :=
  t.Numeric ∧ (t.half = none ∨
    1 ≤ digitsValue t.hour ∧ digitsValue t.hour ≤ 12 ∧ (t.pm = true ∨ digitsValue t.hour ≠ 12))

/-- What `OS_IsValidTime` takes for a range. When there is nothing in front of the minus, the number
directly behind it is a negative one. -/
structure RangeText.Taken (r : RangeText) : Prop where
  first : r.first.Taken
  second : r.second.Taken
  sign : r.first.text = [] → r.right = 0 → digitsValue r.second.hour = 0

/-- The minute that `__gethour` reads. -/
def TimeText.read (t : TimeText) : ℕ :=
  60 * (if t.pm ∧ digitsValue t.hour ≠ 12 then digitsValue t.hour + 12 else digitsValue t.hour) +
    t.minutes

/-- The string ends within two characters behind the colon of the first time or the second one. -/
def Truncated (s : Bytes) : Prop :=
  ∃ n bang hour rest, (∀ b ∈ hour, isDigit b = true) ∧ hour.length ≤ 2 ∧ digitsValue hour < 24 ∧
    rest.length ≤ 1 ∧
    (s = blanks n ++ (RangeText.bangText bang ++ (hour ++ chr ':' :: rest)) ∨
     ∃ first left right, TimeText.Taken first ∧
      (first.text = [] → right = 0 → digitsValue hour = 0) ∧
      s = blanks n ++ (RangeText.bangText bang ++ (first.text ++ (blanks left ++
        chr '-' :: (blanks right ++ (hour ++ chr ':' :: rest))))))

/-- The string is taken for a range, but one of its times is not taken for what it denotes. -/
def Mistaken (s : Bytes) : Prop :=
  ∃ r : RangeText, r.text = s ∧ r.Taken ∧ ¬ (r.first.Right ∧ r.second.Right)

/-! ## Blanks -/

section Blanks

variable {p q : Bytes} {c : UInt8} {n : ℕ}

theorem rmWhite_blanks (n : ℕ) (q : Bytes) : rmWhite (blanks n ++ q) = rmWhite q := by
  induction n with
  | zero => rfl
  | succ n ih =>
    rw [blanks, replicate_succ, cons_append, rmWhite, if_pos rfl]
    exact ih

theorem rmWhite_cons (hc : c ≠ chr ' ') (q : Bytes) : rmWhite (c :: q) = some (c :: q) :=
  if_neg hc

theorem rmWhite_blanks_cons (hc : c ≠ chr ' ') (n : ℕ) (q : Bytes) :
    rmWhite (blanks n ++ c :: q) = some (c :: q) :=
  (rmWhite_blanks n (c :: q)).trans (rmWhite_cons hc q)

theorem exists_of_rmWhite (h : rmWhite p = some q) :
    ∃ n, p = blanks n ++ q ∧ q ≠ [] ∧ q.headD 0 ≠ chr ' ' := by
  induction p with
  | nil => exact nomatch h
  | cons b x ih =>
    rw [rmWhite] at h
    split_ifs at h with hb
    · obtain ⟨n, rfl, hq⟩ := ih h
      refine ⟨n + 1, ?_, hq⟩
      rw [hb, blanks, blanks, replicate_succ]
      rfl
    · cases h
      exact ⟨0, rfl, cons_ne_nil b x, hb⟩

theorem exists_rmWhite (h : ∃ b ∈ p, b ≠ chr ' ') : ∃ q, rmWhite p = some q := by
  induction p with
  | nil =>
    obtain ⟨b, hb, -⟩ := h
    cases hb
  | cons b x ih =>
    rw [rmWhite]
    split_ifs with hb
    · obtain ⟨b', hb', hne⟩ := h
      rcases mem_cons.mp hb' with rfl | hmem
      · exact absurd hb hne
      · exact ih ⟨b', hmem, hne⟩
    · exact ⟨b :: x, rfl⟩

/-- A pointer into a string that ends with the zero byte. -/
def Pointer (p : Bytes) : Prop := ∃ s, p = s ++ [0] ∧ ∀ b ∈ s, b ≠ (0 : UInt8)

theorem Pointer.ne_nil (h : Pointer p) : p ≠ [] := by
  obtain ⟨s, rfl, -⟩ := h
  exact append_ne_nil_of_right_ne_nil s (cons_ne_nil _ _)

theorem Pointer.tail (h : Pointer (c :: p)) (hc : c ≠ 0) : Pointer p := by
  obtain ⟨s, heq, hs⟩ := h
  cases s with
  | nil => exact absurd (List.cons.inj heq).1 hc
  | cons b s =>
    obtain ⟨rfl, rfl⟩ := List.cons.inj heq
    exact ⟨s, rfl, fun b hb => hs b (mem_cons_of_mem _ hb)⟩

theorem Pointer.eq_nil (h : Pointer (0 :: p)) : p = [] := by
  obtain ⟨s, heq, hs⟩ := h
  cases s with
  | nil => exact (List.cons.inj heq).2
  | cons b s => exact absurd (List.cons.inj heq).1.symm (hs b mem_cons_self)

theorem Pointer.append (h : Pointer (q ++ p)) (hq : ∀ b ∈ q, b ≠ 0) : Pointer p := by
  induction q with
  | nil => exact h
  | cons b q ih =>
    rw [cons_append] at h
    exact ih (h.tail (hq b mem_cons_self)) fun b' hb' => hq b' (mem_cons_of_mem _ hb')

theorem Pointer.split (h : Pointer (q ++ p)) (hp : p ≠ []) : Pointer p ∧ ∀ b ∈ q, b ≠ 0 := by
  have hq : ∀ b ∈ q, b ≠ 0 := by
    induction q with
    | nil => exact fun b hb => absurd hb not_mem_nil
    | cons b q ih =>
      rw [cons_append] at h
      have hb : b ≠ 0 := by
        rintro rfl
        exact append_ne_nil_of_right_ne_nil q hp h.eq_nil
      exact forall_mem_cons.mpr ⟨hb, ih (h.tail hb)⟩
  exact ⟨h.append hq, hq⟩

theorem ne_zero_blanks : ∀ b ∈ blanks n, b ≠ 0 := by
  intro b hb
  rw [eq_of_mem_replicate hb]
  decide

theorem Pointer.exists_rmWhite (h : Pointer p) : ∃ n q, rmWhite p = some q ∧ p = blanks n ++ q ∧
    Pointer q ∧ q.headD 0 ≠ chr ' ' := by
  obtain ⟨s, hp, hs⟩ := id h
  obtain ⟨q, hq⟩ := ValidateOp.exists_rmWhite (p := p) ⟨0, by
    rw [hp]
    exact mem_append_right _ mem_cons_self, by decide⟩
  obtain ⟨n, rfl, -, hhead⟩ := exists_of_rmWhite hq
  exact ⟨n, q, hq, rfl, h.append ne_zero_blanks, hhead⟩

end Blanks

/-! ## One time -/

section Hour

variable {t : TimeText} {p q r out : Bytes} {c : UInt8} {n : ℕ}

theorem atoi_short {ds : Bytes} (hd : ∀ b ∈ ds, isDigit b = true) (hne : ds ≠ []) (hlen : ds.length ≤ 2)
    (hr : isDigit (r.headD 0) = false) : atoi (ds ++ r) = digitsValue ds := by
  have hlt := digitsValue_lt_of_length hd (by omega)
  rw [atoi_digits_append hne hd hr, min_eq_left (by omega)]
  exact Int.bmod_eq_of_le (by omega) (by omega)

theorem ossecHour_clock {h m : ℕ} (hh : h < 24) (hm : m < 60) :
    ossecHour h m = clock (60 * h + m) := by
  have hnat : ∀ n : ℕ, fmtD0 2 n = fmtU0 2 n := fun n => by
    rw [fmtD0, if_neg (by omega), Int.natAbs_natCast]
  have hdiv : (60 * h + m) / 60 = h := by omega
  have hmod : (60 * h + m) % 60 = m := by omega
  have hlen := length_clock (t := 60 * h + m) (by omega)
  rw [ossecHour, hnat, hnat, snprintf]
  rw [clock, hdiv, hmod] at hlen ⊢
  exact take_of_length_le (by omega)

/-- The two characters of a minute are stepped over, and when they are digits they are read. -/
theorem getMinute_colon {x y : UInt8} (hc : isDigit c = false) :
    getMinute (chr ':' :: x :: y :: c :: r) =
      some (some (atoi (x :: y :: c :: r), c :: r)) := by
  have hvalid : invalidMinute (x :: y :: c :: r) = some false := by
    rw [invalidMinute]
    cases hx : isDigit x <;> cases hy : isDigit y <;> simp [hx, hy, hc]
  rw [getMinute, if_pos rfl, hvalid]
  rfl

theorem getMinute_of_ne (hc : c ≠ chr ':') : getMinute (c :: r) = some (some (0, c :: r)) :=
  if_neg hc

theorem getMinute_truncated {rest : Bytes} (hrest : rest.length ≤ 1) :
    getMinute (chr ':' :: (rest ++ [0])) = none := by
  have hinvalid : invalidMinute (rest ++ [0]) = none := by
    match rest, hrest with
    | [], _ => rfl
    | [x], _ =>
      rw [invalidMinute]
      cases isDigit x <;> simp [show isDigit 0 = false from rfl]
  rw [getMinute, if_pos rfl, hinvalid]
  rfl

/-- `a` or `p`, in any case. -/
def IsLetter (b : UInt8) : Prop := (b = chr 'a' ∨ b = chr 'A') ∨ b = chr 'p' ∨ b = chr 'P'

instance (b : UInt8) : Decidable (IsLetter b) :=
  inferInstanceAs (Decidable ((b = chr 'a' ∨ b = chr 'A') ∨ b = chr 'p' ∨ b = chr 'P'))

/-- The hour in the half of the day that the letter stands for. -/
def hourOf (b : UInt8) (chour : ℤ) : ℤ :=
  if (b = chr 'p' ∨ b = chr 'P') ∧ chour ≠ 12 then chour + 12 else chour

theorem getHalf_of_half {b : UInt8} {chour : ℤ} (cmin : ℤ) (h : IsHalf b c)
    (hchour : 0 ≤ chour ∧ chour < 24) (hpm : b = chr 'p' ∨ b = chr 'P' → chour ≤ 12) :
    getHalf chour cmin (b :: c :: q) = some (some (q, ossecHour (hourOf b chour) cmin)) := by
  obtain ⟨hb, hm⟩ := h
  rw [getHalf, hourOf]
  by_cases ha : b = chr 'a' ∨ b = chr 'A'
  · have hp : ¬ (b = chr 'p' ∨ b = chr 'P') := by
      rcases ha with rfl | rfl <;> decide
    rw [if_pos ha, if_pos hm, if_neg fun h => hp h.1]
  · have hp := hb.resolve_left ha
    have hhour := hpm hp
    rw [if_neg ha, if_pos hp, if_pos hm]
    by_cases htwelve : chour = 12
    · rw [if_neg (not_not.mpr htwelve), if_neg (by omega), if_neg fun h => h.2 htwelve]
    · rw [if_pos htwelve, if_neg (by omega), if_pos ⟨hp, htwelve⟩]

theorem getHalf_of_other (chour cmin : ℤ) (hc : ¬ IsLetter c) :
    getHalf chour cmin (c :: r) = some (some (c :: r, ossecHour chour cmin)) := by
  rw [getHalf.eq_def]
  exact (if_neg fun h => hc (.inl h)).trans (if_neg fun h => hc (.inr h))

theorem half_of_getHalf {b : UInt8} {chour cmin : ℤ}
    (h : getHalf chour cmin (b :: r) = some (some (q, out))) :
    (¬ IsLetter b ∧ q = b :: r ∧ out = ossecHour chour cmin) ∨
    ∃ c, r = c :: q ∧ IsHalf b c ∧ (b = chr 'p' ∨ b = chr 'P' → chour ≤ 12) ∧
      out = ossecHour (hourOf b chour) cmin := by
  rw [getHalf.eq_def] at h
  dsimp only at h
  by_cases ha : b = chr 'a' ∨ b = chr 'A'
  · have hp : ¬ (b = chr 'p' ∨ b = chr 'P') := by
      rcases ha with rfl | rfl <;> decide
    rw [if_pos ha] at h
    cases r with
    | nil => exact nomatch h
    | cons c r =>
      dsimp only at h
      by_cases hm : c = chr 'm' ∨ c = chr 'M'
      · rw [if_pos hm] at h
        obtain ⟨rfl, rfl⟩ := Prod.mk.inj (some.inj (some.inj h))
        refine .inr ⟨c, rfl, ⟨.inl ha, hm⟩, fun h => absurd h hp, ?_⟩
        rw [hourOf, if_neg fun h => hp h.1]
      · rw [if_neg hm] at h
        exact nomatch h
  · by_cases hp : b = chr 'p' ∨ b = chr 'P'
    · rw [if_neg ha, if_pos hp] at h
      cases r with
      | nil => exact nomatch h
      | cons c r =>
        dsimp only at h
        by_cases hm : c = chr 'm' ∨ c = chr 'M'
        · rw [if_pos hm] at h
          have hhour : hourOf b chour = if chour ≠ 12 then chour + 12 else chour := by
            rw [hourOf]
            exact if_congr (and_iff_right hp) rfl rfl
          rw [← hhour] at h
          by_cases hbad : hourOf b chour < 0 ∨ 24 ≤ hourOf b chour
          · rw [if_pos hbad] at h
            exact nomatch h
          · rw [if_neg hbad] at h
            obtain ⟨rfl, rfl⟩ := Prod.mk.inj (some.inj (some.inj h))
            refine .inr ⟨c, rfl, ⟨.inr hp, hm⟩, fun _ => ?_, rfl⟩
            rw [hhour] at hbad
            split_ifs at hbad <;> omega
        · rw [if_neg hm] at h
          exact nomatch h
    · rw [if_neg ha, if_neg hp] at h
      obtain ⟨rfl, rfl⟩ := Prod.mk.inj (some.inj (some.inj h))
      exact .inl ⟨fun h => h.elim ha hp, rfl, rfl⟩

theorem getHalf_isSome (chour cmin : ℤ) (h : Pointer (c :: r)) :
    (getHalf chour cmin (c :: r)).isSome = true := by
  by_cases hc : IsLetter c
  · have hne : c ≠ 0 := by
      rcases hc with (rfl | rfl) | rfl | rfl <;> decide
    obtain ⟨m, r, rfl⟩ := exists_cons_of_ne_nil (h.tail hne).ne_nil
    rw [getHalf]
    dsimp only
    split_ifs <;> rfl
  · rw [getHalf_of_other chour cmin hc]
    rfl

theorem getMinute_cases (h : Pointer (c :: r)) :
    (c ≠ chr ':' ∧ getMinute (c :: r) = some (some (0, c :: r))) ∨
    (c = chr ':' ∧ ∃ rest, rest.length ≤ 1 ∧ r = rest ++ [0] ∧ getMinute (c :: r) = none) ∨
    (c = chr ':' ∧ ∃ x y q, r = x :: y :: q ∧ x ≠ 0 ∧ y ≠ 0 ∧
      (getMinute (c :: r) = some none ∨ getMinute (c :: r) = some (some (atoi r, q)))) := by
  by_cases hc : c = chr ':'
  · subst hc
    obtain ⟨s, rfl, hs⟩ := h.tail (by decide)
    match s with
    | [] => exact .inr (.inl ⟨rfl, [], Nat.zero_le 1, rfl, getMinute_truncated (Nat.zero_le 1)⟩)
    | [x] => exact .inr (.inl ⟨rfl, [x], Nat.le_refl 1, rfl, getMinute_truncated (Nat.le_refl 1)⟩)
    | x :: y :: s =>
      refine .inr (.inr ⟨rfl, x, y, s ++ [0], rfl, hs x (by simp), hs y (by simp), ?_⟩)
      have hthird : ∃ z, (x :: y :: s ++ [(0 : UInt8)])[2]? = some z := by
        cases s with
        | nil => exact ⟨0, rfl⟩
        | cons z s => exact ⟨z, rfl⟩
      obtain ⟨z, hz⟩ := hthird
      have hinvalid : ∃ invalid, invalidMinute (x :: y :: s ++ [0]) = some invalid := by
        rw [invalidMinute, hz]
        cases hx : isDigit x <;> cases hy : isDigit y <;> simp [hx, hy]
      obtain ⟨invalid, hinvalid⟩ := hinvalid
      rw [getMinute, if_pos rfl, hinvalid]
      cases invalid
      · exact .inr rfl
      · exact .inl rfl
  · exact .inl ⟨hc, getMinute_of_ne hc⟩

theorem getHour_digits {ds : Bytes} (hd : ∀ b ∈ ds, isDigit b = true) (hc : isDigit c = false) :
    getHour (ds ++ c :: r) =
      if atoi (ds ++ c :: r) < 0 ∨ 24 ≤ atoi (ds ++ c :: r) then some none
      else if 2 < ds.length then some none
      else (getMinute (c :: r)).bind (behindMinute (atoi (ds ++ c :: r))) := by
  have hne : ds ++ c :: r ≠ [] := append_ne_nil_of_right_ne_nil _ (cons_ne_nil _ _)
  have hhead : isDigit ((c :: r).headD 0) = false := hc
  rw [getHour, if_neg hne, takeWhile_isDigit_append hd hhead, dropWhile_isDigit_append hd hhead]

theorem atoi_of_other (hspace : isSpace c = false) (hsign : c ≠ chr '-' ∧ c ≠ chr '+')
    (hdigit : isDigit c = false) : atoi (c :: r) = 0 := by
  have hdrop : (c :: r).dropWhile isSpace = c :: r :=
    dropWhile_cons_of_neg (by rw [hspace]; exact Bool.false_ne_true)
  have hsplit : splitSign (c :: r) = (false, c :: r) := by
    rw [splitSign, hdrop]
    exact (if_neg hsign.1).trans (if_neg hsign.2)
  have htake : (c :: r).takeWhile isDigit = [] :=
    takeWhile_cons_of_neg (by rw [hdigit]; exact Bool.false_ne_true)
  rw [atoi, strtol, hsplit]
  dsimp only
  rw [htake]
  rfl

/-- What the digits of an hour are followed by. -/
theorem halfText_cons (ht : t.Taken) (hc : c = chr '-' ∨ c = 0) (n : ℕ) (r : Bytes) :
    ∃ d v, t.halfText ++ (blanks n ++ c :: r) = d :: v ∧ isDigit d = false ∧ d ≠ chr ':' ∧
      rmWhite (d :: v) = some (match t.half with
        | none => c :: r
        | some (_, b, m) => b :: m :: (blanks n ++ c :: r)) := by
  have hblank : ∀ (k : ℕ) (b : UInt8) (s : Bytes), b ≠ chr ' ' → isDigit b = false → b ≠ chr ':' →
      ∃ d v, blanks k ++ b :: s = d :: v ∧ isDigit d = false ∧ d ≠ chr ':' ∧
        rmWhite (d :: v) = some (b :: s) := by
    intro k b s hb hdigit hcolon
    have hwhite := rmWhite_blanks_cons hb k s
    cases k with
    | zero => exact ⟨b, s, rfl, hdigit, hcolon, hwhite⟩
    | succ k => exact ⟨chr ' ', blanks k ++ b :: s, rfl, rfl, by decide, hwhite⟩
  rw [TimeText.halfText]
  cases hhalf : t.half with
  | none =>
    have hstop : c ≠ chr ' ' ∧ isDigit c = false ∧ c ≠ chr ':' := by
      rcases hc with rfl | rfl <;> decide
    exact hblank n c r hstop.1 hstop.2.1 hstop.2.2
  | some half =>
    obtain ⟨k, b, m⟩ := half
    have hletter : b ≠ chr ' ' ∧ isDigit b = false ∧ b ≠ chr ':' := by
      rcases (ht.half k b m hhalf).1.1 with (rfl | rfl) | rfl | rfl <;> decide
    have htext : blanks k ++ [b, m] ++ (blanks n ++ c :: r) =
        blanks k ++ b :: (m :: (blanks n ++ c :: r)) := by
      rw [append_assoc]
      rfl
    rw [htext]
    exact hblank k b _ hletter.1 hletter.2.1 hletter.2.2

theorem minuteText_cons (ht : t.Taken) (hc : c = chr '-' ∨ c = 0) (n : ℕ) (r : Bytes) :
    ∃ d v, t.minuteText ++ (t.halfText ++ (blanks n ++ c :: r)) = d :: v ∧ isDigit d = false := by
  rw [TimeText.minuteText]
  cases t.minute with
  | none =>
    obtain ⟨d, v, heq, hd, -⟩ := halfText_cons ht hc n r
    exact ⟨d, v, heq, hd⟩
  | some minute => exact ⟨chr ':', _, rfl, rfl⟩

theorem text_append (t : TimeText) (p : Bytes) :
    t.text ++ p = t.hour ++ (t.minuteText ++ (t.halfText ++ p)) := by
  rw [TimeText.text, append_assoc, append_assoc]

/-- The hour that is read. -/
theorem atoi_of_taken (ht : t.Taken) (hc : c = chr '-' ∨ c = 0)
    (hsign : t.text = [] → 0 ≤ atoi (blanks n ++ c :: r) ∧ atoi (blanks n ++ c :: r) < 24) :
    (0 ≤ atoi (t.text ++ (blanks n ++ c :: r)) ∧ atoi (t.text ++ (blanks n ++ c :: r)) < 24) ∧
    (t.pm = true → atoi (t.text ++ (blanks n ++ c :: r)) ≤ 12) ∧
    (t.hour ≠ [] → atoi (t.text ++ (blanks n ++ c :: r)) = digitsValue t.hour) := by
  by_cases hhour : t.hour = []
  case neg =>
    obtain ⟨d, v, hrest, hd⟩ := minuteText_cons ht hc n r
    have hval : atoi (t.text ++ (blanks n ++ c :: r)) = digitsValue t.hour := by
      rw [text_append, hrest]
      exact atoi_short ht.digits hhour ht.short hd
    rw [hval]
    refine ⟨⟨Int.natCast_nonneg _, Nat.cast_lt.mpr ht.hour⟩, fun hpm => ?_, fun _ => rfl⟩
    cases hhalf : t.half with
    | none =>
      rw [TimeText.pm, hhalf] at hpm
      cases hpm
    | some half => exact Nat.cast_le.mpr ((ht.half half.1 half.2.1 half.2.2 hhalf).2 hpm)
  case pos =>
    have hzero : atoi (t.text ++ (blanks n ++ c :: r)) = 0 ∨ t.text = [] ∧ t.half = none := by
      rw [text_append, hhour, nil_append]
      cases hminute : t.minute with
      | some minute =>
        rw [TimeText.minuteText, hminute]
        exact .inl (atoi_of_other (by decide) (by decide) (by decide))
      | none =>
        cases hhalf : t.half with
        | none =>
          refine .inr ⟨?_, rfl⟩
          rw [TimeText.text, TimeText.minuteText, TimeText.halfText, hhour, hminute, hhalf]
          rfl
        | some half =>
          obtain ⟨k, b, m⟩ := half
          obtain rfl := ht.tight hhour hminute k b m hhalf
          rw [TimeText.minuteText, TimeText.halfText, hminute, hhalf]
          have hother : isSpace b = false ∧ (b ≠ chr '-' ∧ b ≠ chr '+') ∧ isDigit b = false := by
            rcases (ht.half 0 b m hhalf).1.1 with (rfl | rfl) | rfl | rfl <;> decide
          exact .inl (atoi_of_other hother.1 hother.2.1 hother.2.2)
    rcases hzero with hzero | ⟨htext, hhalf⟩
    · rw [hzero]
      exact ⟨by decide, fun _ => by decide, fun h => absurd hhour h⟩
    · rw [htext, nil_append]
      refine ⟨hsign htext, fun hpm => ?_, fun h => absurd hhour h⟩
      rw [TimeText.pm, hhalf] at hpm
      cases hpm

/-- A time that is taken is stepped over, and read when it is one of numbers. -/
theorem getHour_of_taken (ht : t.Taken) (hc : c = chr '-' ∨ c = 0)
    (hsign : t.text = [] → 0 ≤ atoi (blanks n ++ c :: r) ∧ atoi (blanks n ++ c :: r) < 24) :
    ∃ q out, getHour (t.text ++ (blanks n ++ c :: r)) = some (some (q, out)) ∧
      rmWhite q = some (c :: r) ∧ (t.Numeric → out = clock t.read) := by
  obtain ⟨hchour, hpm, hvalue⟩ := atoi_of_taken ht hc hsign
  generalize hchour' : atoi (t.text ++ (blanks n ++ c :: r)) = chour at hchour hpm hvalue
  obtain ⟨d, v, hrest, hd⟩ := minuteText_cons ht hc n r
  have hcode : getHour (t.text ++ (blanks n ++ c :: r)) =
      (getMinute (d :: v)).bind (behindMinute chour) := by
    rw [text_append, hrest] at hchour' ⊢
    rw [getHour_digits ht.digits hd, hchour', if_neg (by omega), if_neg (not_lt.mpr ht.short)]
  obtain ⟨d', v', hhalf, hd', hcolon, hwhite⟩ := halfText_cons ht hc n r
  rw [hhalf] at hrest
  -- the minute
  have hminute : ∃ cmin, getMinute (d :: v) = some (some (cmin, d' :: v')) ∧
      (t.Numeric → cmin = t.minutes) := by
    cases hm : t.minute with
    | none =>
      rw [TimeText.minuteText, hm, nil_append] at hrest
      rw [← hrest]
      refine ⟨0, getMinute_of_ne hcolon, fun _ => ?_⟩
      rw [TimeText.minutes, hm]
      rfl
    | some minute =>
      obtain ⟨x, y⟩ := minute
      rw [TimeText.minuteText, hm] at hrest
      have htext : d :: v = chr ':' :: x :: y :: d' :: v' := hrest.symm
      rw [htext]
      refine ⟨_, getMinute_colon hd', fun hnumeric => ?_⟩
      have hdigits := hnumeric.minute x y hm
      have hxy : ∀ b ∈ [x, y], isDigit b = true := by
        intro b hb
        rcases mem_cons.mp hb with rfl | hb
        · exact hdigits.1
        · rw [mem_singleton.mp hb]
          exact hdigits.2
      have hhead : isDigit ((d' :: v').headD 0) = false := hd'
      have hval : atoi ([x, y] ++ d' :: v') = digitsValue [x, y] :=
        atoi_short hxy (cons_ne_nil _ _) (Nat.le_refl 2) hhead
      rw [TimeText.minutes, hm]
      exact hval
  obtain ⟨cmin, hgetMinute, hcmin⟩ := hminute
  have hcode' : getHour (t.text ++ (blanks n ++ c :: r)) =
      (rmWhite (d' :: v')).bind fun str => getHalf chour cmin str := by
    rw [hcode, hgetMinute]
    rfl
  rw [hcode', hwhite, bind_some]
  -- the half of the day
  cases hh : t.half with
  | none =>
    have hletter : ¬ IsLetter c := by
      rcases hc with rfl | rfl <;> decide
    have hblank : c ≠ chr ' ' := by
      rcases hc with rfl | rfl <;> decide
    refine ⟨_, _, getHalf_of_other chour cmin hletter, rmWhite_cons hblank r, fun hnumeric => ?_⟩
    have hread : t.read = 60 * digitsValue t.hour + t.minutes := by
      rw [TimeText.read, TimeText.pm, hh]
      rfl
    rw [hvalue hnumeric.hour, hcmin hnumeric, hread]
    exact ossecHour_clock ht.hour hnumeric.minutes
  | some half =>
    obtain ⟨k, b, m⟩ := half
    have hblank : c ≠ chr ' ' := by
      rcases hc with rfl | rfl <;> decide
    obtain ⟨hletters, hlimit⟩ := ht.half k b m hh
    have hpmb : t.pm = true ↔ b = chr 'p' ∨ b = chr 'P' := by
      rw [TimeText.pm, hh]
      rw [Bool.or_eq_true, beq_iff_eq, beq_iff_eq]
    refine ⟨_, _, getHalf_of_half cmin hletters hchour fun h => hpm (hpmb.mpr h),
      rmWhite_blanks_cons hblank n r, fun hnumeric => ?_⟩
    rw [hvalue hnumeric.hour, hcmin hnumeric, TimeText.read]
    have hhourOf : hourOf b (digitsValue t.hour) =
        ((if t.pm = true ∧ digitsValue t.hour ≠ 12 then digitsValue t.hour + 12
          else digitsValue t.hour : ℕ) : ℤ) := by
      rw [hourOf]
      have hiff : (b = chr 'p' ∨ b = chr 'P') ∧ (digitsValue t.hour : ℤ) ≠ 12 ↔
          t.pm = true ∧ digitsValue t.hour ≠ 12 := by
        rw [hpmb]
        exact and_congr_right' (not_congr (by omega))
      rw [if_congr hiff rfl rfl]
      split_ifs <;> rfl
    rw [hhourOf]
    refine ossecHour_clock ?_ hnumeric.minutes
    have hlt := ht.hour
    split_ifs with hafter
    · have hle := hlimit hafter.1
      omega
    · exact hlt

/-- What is left of a string behind its digits. -/
theorem exists_digits (h : Pointer p) : ∃ ds c r, p = ds ++ c :: r ∧
    (∀ b ∈ ds, isDigit b = true) ∧ isDigit c = false ∧ Pointer (c :: r) := by
  have hp : p.takeWhile isDigit ++ p.dropWhile isDigit = p := takeWhile_append_dropWhile
  have hds : ∀ b ∈ p.takeWhile isDigit, isDigit b = true := fun b hb => mem_takeWhile_imp hb
  have hne : p.dropWhile isDigit ≠ [] := by
    intro hnil
    obtain ⟨s, rfl, -⟩ := h
    have hzero := dropWhile_eq_nil_iff.mp hnil 0 (mem_append_right _ mem_cons_self)
    cases hzero
  obtain ⟨c, r, hcr⟩ := exists_cons_of_ne_nil hne
  have hc := isDigit_headD_dropWhile p
  rw [hcr] at hc hp hne
  refine ⟨_, c, r, hp.symm, hds, hc, ?_⟩
  rw [← hp] at h
  exact (h.split hne).1

theorem digitsValue_of_atoi {ds : Bytes} (hd : ∀ b ∈ ds, isDigit b = true) (hlen : ds.length ≤ 2)
    (hr : isDigit (r.headD 0) = false) (h : atoi (ds ++ r) < 24) : digitsValue ds < 24 := by
  by_cases hne : ds = []
  · rw [hne]
    decide
  · rw [atoi_short hd hne hlen hr] at h
    exact Nat.cast_lt.mp h

theorem getHour_truncated {ds rest : Bytes} (hd : ∀ b ∈ ds, isDigit b = true)
    (hlen : ds.length ≤ 2) (hval : digitsValue ds < 24) (hrest : rest.length ≤ 1) :
    getHour (ds ++ chr ':' :: (rest ++ [0])) = none := by
  have hchour : 0 ≤ atoi (ds ++ chr ':' :: (rest ++ [0])) ∧
      atoi (ds ++ chr ':' :: (rest ++ [0])) < 24 := by
    by_cases hne : ds = []
    · rw [hne, nil_append, atoi_of_other (by decide) (by decide) (by decide)]
      decide
    · rw [atoi_short hd hne hlen (by rfl)]
      exact ⟨Int.natCast_nonneg _, Nat.cast_lt.mpr hval⟩
  rw [getHour_digits hd (by decide), if_neg (by omega), if_neg (by omega),
    getMinute_truncated hrest]
  rfl

theorem truncated_of_getHour (hp : Pointer p) (h : getHour p = none) :
    ∃ ds rest, p = ds ++ chr ':' :: (rest ++ [0]) ∧ (∀ b ∈ ds, isDigit b = true) ∧
      ds.length ≤ 2 ∧ digitsValue ds < 24 ∧ rest.length ≤ 1 := by
  obtain ⟨ds, c, r, rfl, hd, hc, hpointer⟩ := exists_digits hp
  rw [getHour_digits hd hc] at h
  split_ifs at h with hchour hlen
  have hval := digitsValue_of_atoi (r := c :: r) hd (by omega) hc (by omega)
  rcases getMinute_cases hpointer with ⟨-, hminute⟩ | ⟨rfl, rest, hrest, rfl, -⟩ |
    ⟨rfl, x, y, q, rfl, hx, hy, hminute | hminute⟩
  · -- there are no minutes, and the letters are in the string
    obtain ⟨n, q, hwhite, hq, hpq, -⟩ := hpointer.exists_rmWhite
    obtain ⟨d, v, rfl⟩ := exists_cons_of_ne_nil hpq.ne_nil
    rw [hminute, bind_some, behindMinute, hwhite, bind_some] at h
    have hsome := getHalf_isSome (atoi (ds ++ c :: r)) 0 hpq
    rw [h] at hsome
    exact nomatch hsome
  · exact ⟨ds, rest, rfl, hd, by omega, hval, hrest⟩
  · rw [hminute] at h
    exact nomatch h
  · have hq : Pointer q := ((hpointer.tail (by decide)).tail hx).tail hy
    obtain ⟨n, q', hwhite, rfl, hpq, -⟩ := hq.exists_rmWhite
    obtain ⟨d, v, rfl⟩ := exists_cons_of_ne_nil hpq.ne_nil
    rw [hminute, bind_some, behindMinute, hwhite, bind_some] at h
    have hsome := getHalf_isSome (atoi (ds ++ chr ':' :: x :: y :: (blanks n ++ d :: v)))
      (atoi (x :: y :: (blanks n ++ d :: v))) hpq
    rw [h] at hsome
    exact nomatch hsome

/-- Behind the minute comes nothing, or a half of the day. -/
theorem half_of_behindMinute {chour cmin : ℤ} {u : Bytes} (hu : Pointer u)
    (h : behindMinute chour (some (cmin, u)) = some (some (q, out))) :
    q ≠ [] ∧ ((∃ n, u = blanks n ++ q) ∨
      ∃ n b m, u = blanks n ++ b :: m :: q ∧ IsHalf b m ∧
        (b = chr 'p' ∨ b = chr 'P' → chour ≤ 12)) := by
  obtain ⟨n, w, hwhite, rfl, hw, -⟩ := hu.exists_rmWhite
  obtain ⟨b, v, rfl⟩ := exists_cons_of_ne_nil hw.ne_nil
  rw [behindMinute, hwhite, bind_some] at h
  rcases half_of_getHalf h with ⟨-, rfl, -⟩ | ⟨m, rfl, hhalf, hpm, -⟩
  · exact ⟨cons_ne_nil _ _, .inl ⟨n, rfl⟩⟩
  · have hb : b ≠ 0 := by
      rcases hhalf.1 with (rfl | rfl) | rfl | rfl <;> decide
    have hm : m ≠ 0 := by
      rcases hhalf.2 with rfl | rfl <;> decide
    exact ⟨((hw.tail hb).tail hm).ne_nil, .inr ⟨n, b, m, rfl, hhalf, hpm⟩⟩

/-- What `__gethour` steps over is a time that it takes. -/
theorem taken_of_getHour (hp : Pointer p) (hblank : p.headD 0 ≠ chr ' ')
    (h : getHour p = some (some (q, out))) :
    ∃ t : TimeText, ∃ n, p = t.text ++ (blanks n ++ q) ∧ q ≠ [] ∧ t.Taken ∧
      0 ≤ atoi p ∧ atoi p < 24 := by
  obtain ⟨ds, c, r, rfl, hd, hc, hpointer⟩ := exists_digits hp
  rw [getHour_digits hd hc] at h
  by_cases hchour : atoi (ds ++ c :: r) < 0 ∨ 24 ≤ atoi (ds ++ c :: r)
  case pos =>
    rw [if_pos hchour] at h
    exact nomatch h
  by_cases hlen : 2 < ds.length
  case pos =>
    rw [if_neg hchour, if_pos hlen] at h
    exact nomatch h
  rw [if_neg hchour, if_neg hlen] at h
  have hval := digitsValue_of_atoi (r := c :: r) hd (by omega) hc (by omega)
  have hshort : ds.length ≤ 2 := not_lt.mp hlen
  have hrange : 0 ≤ atoi (ds ++ c :: r) ∧ atoi (ds ++ c :: r) < 24 := by omega
  -- the time is put together from its minute and what is behind it
  have hbuild : ∀ (minute : Option (UInt8 × UInt8)) (u : Bytes) (cmin : ℤ), Pointer u →
      c :: r = (TimeText.mk ds minute none).minuteText ++ u →
      behindMinute (atoi (ds ++ c :: r)) (some (cmin, u)) = some (some (q, out)) →
      ∃ t : TimeText, ∃ n, ds ++ c :: r = t.text ++ (blanks n ++ q) ∧ q ≠ [] ∧ t.Taken ∧
        0 ≤ atoi (ds ++ c :: r) ∧ atoi (ds ++ c :: r) < 24 := by
    intro minute u cmin hu htext hrest
    obtain ⟨hq, ⟨n, rfl⟩ | ⟨n, b, m, rfl, hhalf, hpm⟩⟩ := half_of_behindMinute hu hrest
    · refine ⟨⟨ds, minute, none⟩, n, ?_, hq, ⟨hd, hshort, hval, nofun, nofun⟩, hrange⟩
      rw [text_append, htext]
      rfl
    · have htext' : ds ++ c :: r = (TimeText.mk ds minute (some (n, b, m))).text ++
          (blanks 0 ++ q) := by
        rw [text_append, htext]
        simp only [TimeText.halfText, TimeText.minuteText, append_assoc]
        rfl
      refine ⟨⟨ds, minute, some (n, b, m)⟩, 0, htext', hq, ⟨hd, hshort, hval, ?_, ?_⟩, hrange⟩
      · intro n' b' m' heq
        obtain ⟨rfl, rfl, rfl⟩ : n = n' ∧ b = b' ∧ m = m' := by simpa using heq
        refine ⟨hhalf, fun h => ?_⟩
        by_cases hds : ds = []
        · rw [hds]
          exact Nat.zero_le 12
        · have hletter : b = chr 'p' ∨ b = chr 'P' := by simpa [TimeText.pm] using h
          have hle := hpm hletter
          rw [atoi_short hd hds (by omega) (r := c :: r) hc] at hle
          exact Nat.cast_le.mp hle
      · intro hds hminute n' b' m' heq
        obtain ⟨rfl, rfl, rfl⟩ : n = n' ∧ b = b' ∧ m = m' := by simpa using heq
        obtain rfl : ds = [] := hds
        obtain rfl : minute = none := hminute
        cases n with
        | zero => rfl
        | succ n =>
          rw [nil_append, htext] at hblank
          exact absurd rfl hblank
  rcases getMinute_cases hpointer with ⟨-, hminute⟩ | ⟨-, rest, -, -, hminute⟩ |
    ⟨rfl, x, y, u, rfl, hx, hy, hminute | hminute⟩
  · rw [hminute] at h
    exact hbuild none (c :: r) 0 hpointer rfl h
  · rw [hminute] at h
    exact nomatch h
  · rw [hminute] at h
    exact nomatch h
  · rw [hminute] at h
    exact hbuild (some (x, y)) u _ (((hpointer.tail (by decide)).tail hx).tail hy) rfl h

end Hour

/-! ## Ranges -/

section Range

variable {s p q f : Bytes} {c : UInt8} {n k : ℕ} {ng : Bool} {bang : Option ℕ} {t : TimeText}

theorem atoi_minus {ds r : Bytes} (k : ℕ) (hd : ∀ b ∈ ds, isDigit b = true) (hlen : ds.length ≤ 2)
    (hr : isDigit (r.headD 0) = false) :
    atoi (blanks k ++ chr '-' :: (ds ++ r)) = -(digitsValue ds : ℤ) := by
  have hspace : ∀ b ∈ blanks k, isSpace b = true := by
    intro b hb
    rw [eq_of_mem_replicate hb]
    rfl
  have hlt := digitsValue_lt_of_length hd (by omega)
  have hsplit : splitSign (blanks k ++ chr '-' :: (ds ++ r)) = (true, ds ++ r) :=
    splitSign_blanks_append hspace _
  rw [atoi, strtol, hsplit]
  dsimp only
  rw [takeWhile_isDigit_append hd hr, if_pos rfl, max_eq_right (by omega)]
  exact Int.bmod_eq_of_le (by omega) (by omega)

/-- What is read as an hour when there is nothing in front of the minus. -/
theorem atoi_minus_iff {ds r : Bytes} (k m : ℕ) (hd : ∀ b ∈ ds, isDigit b = true)
    (hlen : ds.length ≤ 2) (hr : isDigit (r.headD 0) = false) :
    0 ≤ atoi (blanks k ++ chr '-' :: (blanks m ++ (ds ++ r))) ∧
      atoi (blanks k ++ chr '-' :: (blanks m ++ (ds ++ r))) < 24 ↔
    (m = 0 → digitsValue ds = 0) := by
  cases m with
  | zero =>
    have hval : atoi (blanks k ++ chr '-' :: (blanks 0 ++ (ds ++ r))) = -(digitsValue ds : ℤ) :=
      atoi_minus k hd hlen hr
    rw [hval]
    constructor
    · exact fun h _ => by omega
    · intro h
      have hzero := h rfl
      omega
  | succ m =>
    have hval : atoi (blanks k ++ chr '-' :: (blanks (m + 1) ++ (ds ++ r))) = -(digitsValue [] : ℤ) :=
      @atoi_minus [] (blanks (m + 1) ++ (ds ++ r)) k (fun b hb => absurd hb not_mem_nil)
        (Nat.zero_le 2) rfl
    rw [hval]
    exact iff_of_true (by decide) nofun

/-- The blanks in front of a time are stepped over. -/
theorem rmWhite_taken (ht : t.Taken) (hc : c = chr '-' ∨ c = 0) (n : ℕ) (r : Bytes) :
    ∃ n', rmWhite (t.text ++ (blanks n ++ c :: r)) = some (t.text ++ (blanks n' ++ c :: r)) ∧
      (t.text ++ (blanks n' ++ c :: r)).headD 0 ≠ chr '!' := by
  have hhead : ∀ (b : UInt8) (u : Bytes), b ≠ chr ' ' ∧ b ≠ chr '!' →
      t.text ++ (blanks n ++ c :: r) = b :: u →
      ∃ n', rmWhite (t.text ++ (blanks n ++ c :: r)) = some (t.text ++ (blanks n' ++ c :: r)) ∧
        (t.text ++ (blanks n' ++ c :: r)).headD 0 ≠ chr '!' := by
    intro b u hb heq
    refine ⟨n, ?_, ?_⟩
    · rw [heq]
      exact rmWhite_cons hb.1 u
    · rw [heq]
      exact hb.2
  cases hhour : t.hour with
  | cons d ds =>
    have hdigit := ht.digits d (by rw [hhour]; exact mem_cons_self)
    refine hhead d (ds ++ (t.minuteText ++ (t.halfText ++ (blanks n ++ c :: r)))) ⟨?_, ?_⟩ ?_
    · rintro rfl
      cases hdigit
    · rintro rfl
      cases hdigit
    · rw [text_append, hhour]
      rfl
  | nil =>
    cases hminute : t.minute with
    | some minute =>
      refine hhead (chr ':') (minute.1 :: minute.2 :: (t.halfText ++ (blanks n ++ c :: r)))
        (by decide) ?_
      rw [text_append, hhour, TimeText.minuteText, hminute]
      rfl
    | none =>
      cases hhalf : t.half with
      | some half =>
        obtain ⟨m, b, d⟩ := half
        obtain rfl := ht.tight hhour hminute m b d hhalf
        refine hhead b (d :: (blanks n ++ c :: r)) ?_ ?_
        · rcases (ht.half 0 b d hhalf).1.1 with (rfl | rfl) | rfl | rfl <;> decide
        · rw [text_append, hhour, TimeText.minuteText, hminute, TimeText.halfText, hhalf]
          rfl
      | none =>
        have htext : t.text = [] := by
          rw [TimeText.text, hhour, TimeText.minuteText, hminute, TimeText.halfText, hhalf]
          rfl
        have hstop : c ≠ chr ' ' ∧ c ≠ chr '!' := by
          rcases hc with rfl | rfl <;> decide
        rw [htext, nil_append]
        exact ⟨0, rmWhite_blanks_cons hstop.1 n r, hstop.2⟩

/-- The beginning of a range is stepped over. -/
theorem readTimes_opening (hs : s ++ [0] = blanks n ++ (RangeText.bangText bang ++ p))
    (hp : rmWhite p = some q) (hq : q.headD 0 ≠ chr '!') :
    readTimes s = (getHour q).bind (behindFirst bang.isSome) := by
  rw [readTimes, hs, rmWhite_blanks]
  cases bang with
  | none =>
    have hng : (q.headD 0 == chr '!') = false := beq_eq_false_iff_ne.mpr hq
    rw [RangeText.bangText, nil_append, hp, bind_some]
    rw [hng]
    rfl
  | some m =>
    have hwhite : rmWhite (RangeText.bangText (some m) ++ p) =
        some (chr '!' :: (blanks m ++ p)) := rmWhite_cons (by decide) _
    have hdrop : (chr '!' :: (blanks m ++ p)).drop 1 = blanks m ++ p := rfl
    rw [hwhite, bind_some]
    dsimp only [headD_cons]
    rw [beq_self_eq_true, if_pos rfl, hdrop, rmWhite_blanks, hp]
    rfl

/-- Every string has such a beginning. -/
theorem exists_opening (hs : ∀ b ∈ s, b ≠ 0) :
    ∃ n bang p, s ++ [0] = blanks n ++ (RangeText.bangText bang ++ p) ∧ Pointer p ∧
      p.headD 0 ≠ chr ' ' ∧ readTimes s = (getHour p).bind (behindFirst bang.isSome) := by
  obtain ⟨n, p, hwhite, hp, hpointer, hblank⟩ := Pointer.exists_rmWhite ⟨s, rfl, hs⟩
  by_cases hbang : p.headD 0 = chr '!'
  · obtain ⟨b, p, rfl⟩ := exists_cons_of_ne_nil hpointer.ne_nil
    obtain rfl : b = chr '!' := hbang
    obtain ⟨m, q, hwhite', rfl, hq, hblank'⟩ := (hpointer.tail (by decide)).exists_rmWhite
    refine ⟨n, some m, q, hp, hq, hblank', ?_⟩
    have hdrop : (chr '!' :: (blanks m ++ q)).drop 1 = blanks m ++ q := rfl
    rw [readTimes, hwhite, bind_some]
    dsimp only [headD_cons]
    rw [beq_self_eq_true, if_pos rfl, hdrop, hwhite']
    rfl
  · refine ⟨n, none, p, hp, hpointer, hblank, ?_⟩
    obtain ⟨b, v, rfl⟩ := exists_cons_of_ne_nil hpointer.ne_nil
    exact readTimes_opening hp (rmWhite_cons hblank v) hbang

theorem behindFirst_minus (ng : Bool) (f : Bytes) {p' : Bytes} (hq : rmWhite q = some (chr '-' :: p))
    (hp : rmWhite p = some p') :
    behindFirst ng (some (q, f)) = (getHour p').bind (behindSecond ng f) := by
  have hdrop : (chr '-' :: p).drop 1 = p := rfl
  have hminus : ¬ (chr '-' :: p).headD 0 ≠ chr '-' := not_not.mpr rfl
  rw [behindFirst, hq, bind_some, if_neg hminus, hdrop, hp, bind_some]

theorem getHour_minus {ds r : Bytes} (ht : t.Taken) (hd : ∀ b ∈ ds, isDigit b = true)
    (hlen : ds.length ≤ 2) (hr : isDigit (r.headD 0) = false) {m : ℕ}
    (hsign : t.text = [] → m = 0 → digitsValue ds = 0) :
    ∃ q f, getHour (t.text ++ (blanks n ++ chr '-' :: (blanks m ++ (ds ++ r)))) =
        some (some (q, f)) ∧
      rmWhite q = some (chr '-' :: (blanks m ++ (ds ++ r))) ∧ (t.Numeric → f = clock t.read) :=
  getHour_of_taken ht (.inl rfl) fun htext =>
    (atoi_minus_iff n m hd hlen hr).mpr (hsign htext)

/-- A range that is taken is read to its end, its times when they are of numbers. -/
theorem readTimes_of_taken {r : RangeText} (hr : r.Taken) :
    ∃ f g, readTimes r.text = some (some (r.bang.isSome, f, g)) ∧
      (r.first.Numeric → f = clock r.first.read) ∧
      (r.second.Numeric → g = clock r.second.read) := by
  obtain ⟨before, bang, first, left, right, second, after⟩ := r
  obtain ⟨hfirst, hsecond, hsign⟩ := hr
  have htext : (RangeText.mk before bang first left right second after).text ++ [0] =
      blanks before ++ (RangeText.bangText bang ++ (first.text ++ (blanks left ++
        chr '-' :: (blanks right ++ (second.text ++ (blanks after ++ [0])))))) := by
    simp [RangeText.text]
  -- the first hour
  obtain ⟨n, hwhite, hbang⟩ := rmWhite_taken hfirst (.inl rfl) left
    (blanks right ++ (second.text ++ (blanks after ++ [0])))
  obtain ⟨d, v, hrest, hd⟩ := minuteText_cons hsecond (.inr rfl) after []
  have hhour : second.text ++ (blanks after ++ [0]) = second.hour ++ d :: v := by
    rw [text_append, hrest]
  obtain ⟨q, f, hget, hq, hf⟩ := getHour_minus (n := n) (r := d :: v) hfirst hsecond.digits
    hsecond.short hd hsign
  rw [← hhour] at hget hq
  rw [readTimes_opening htext hwhite hbang, hget, bind_some]
  -- the second one
  obtain ⟨n', hwhite', -⟩ := rmWhite_taken hsecond (.inr rfl) after []
  have hend : atoi (blanks n' ++ [0]) = 0 := by
    have hspace : ∀ b ∈ blanks n', isSpace b = true := by
      intro b hb
      rw [eq_of_mem_replicate hb]
      rfl
    rw [atoi, strtol, splitSign_blanks_append hspace]
    rfl
  obtain ⟨q', g, hget', hq', hg⟩ := getHour_of_taken (n := n') (r := []) hsecond (.inr rfl)
    fun _ => by rw [hend]; decide
  rw [behindFirst_minus _ f hq ((rmWhite_blanks right _).trans hwhite'), hget', bind_some,
    behindSecond, hq', bind_some]
  exact ⟨f, g, rfl, hf, hg⟩

theorem behindFirst_cases (ng : Bool) (f : Bytes) (hq : Pointer q) :
    behindFirst ng (some (q, f)) = some none ∨
    ∃ n right u, q = blanks n ++ chr '-' :: (blanks right ++ u) ∧ Pointer u ∧ u.headD 0 ≠ chr ' ' ∧
      behindFirst ng (some (q, f)) = (getHour u).bind (behindSecond ng f) := by
  obtain ⟨n, w, hwhite, rfl, hw, -⟩ := hq.exists_rmWhite
  obtain ⟨b, y, rfl⟩ := exists_cons_of_ne_nil hw.ne_nil
  by_cases hminus : b = chr '-'
  · subst hminus
    obtain ⟨right, u, hwhite', rfl, hu, hblank⟩ := (hw.tail (by decide)).exists_rmWhite
    exact .inr ⟨n, right, u, rfl, hu, hblank, behindFirst_minus ng f hwhite hwhite'⟩
  · have hne : (b :: y).headD 0 ≠ chr '-' := hminus
    rw [behindFirst, hwhite, bind_some, if_pos hne]
    exact .inl rfl

theorem behindSecond_cases (ng : Bool) (f g : Bytes) (hq : Pointer q) :
    behindSecond ng f (some (q, g)) = some none ∨
    ∃ n, q = blanks n ++ [0] ∧ behindSecond ng f (some (q, g)) = some (some (ng, f, g)) := by
  obtain ⟨n, w, hwhite, rfl, hw, -⟩ := hq.exists_rmWhite
  obtain ⟨b, y, rfl⟩ := exists_cons_of_ne_nil hw.ne_nil
  rw [behindSecond, hwhite, bind_some]
  by_cases hend : b = 0
  · subst hend
    obtain rfl := hw.eq_nil
    exact .inr ⟨n, rfl, rfl⟩
  · have hne : (b :: y).headD 0 ≠ 0 := hend
    rw [if_pos hne]
    exact .inl rfl

/-- What follows the first time when it is read. -/
theorem second_of_behindFirst {result : Option (Bytes × Bytes)} (hp : Pointer p)
    (hblank : p.headD 0 ≠ chr ' ') (hfirst : getHour p = some result)
    (hrest : behindFirst ng result ≠ some none) :
    ∃ (first : TimeText) (left right : ℕ) (u f : Bytes),
      p = first.text ++ (blanks left ++ chr '-' :: (blanks right ++ u)) ∧
      Pointer u ∧ u.headD 0 ≠ chr ' ' ∧ first.Taken ∧ (0 ≤ atoi p ∧ atoi p < 24) ∧
      behindFirst ng result = (getHour u).bind (behindSecond ng f) := by
  cases result with
  | none => exact absurd rfl hrest
  | some parts =>
    obtain ⟨q, f⟩ := parts
    obtain ⟨first, n, htext, hq, htaken, hrange⟩ := taken_of_getHour hp hblank hfirst
    have hpointer : Pointer q := by
      rw [htext, ← append_assoc] at hp
      exact (hp.split hq).1
    rcases behindFirst_cases ng f hpointer with hnone | ⟨n', right, u, rfl, hu, hblank', hcode⟩
    · exact absurd hnone hrest
    · refine ⟨first, n + n', right, u, f, ?_, hu, hblank', htaken, hrange, hcode⟩
      have hadd : blanks (n + n') = blanks n ++ blanks n' := replicate_add n n' _
      rw [htext, hadd, append_assoc]

/-- What is read is a range that is taken. -/
theorem taken_of_readTimes (hs : ∀ b ∈ s, b ≠ 0) {g : Bytes}
    (h : readTimes s = some (some (ng, f, g))) :
    ∃ r : RangeText, r.text = s ∧ r.Taken ∧ r.bang.isSome = ng := by
  obtain ⟨before, bang, p, htext, hp, hblank, hcode⟩ := exists_opening hs
  rw [hcode] at h
  obtain ⟨result, hfirst, hrest⟩ := bind_eq_some_iff.mp h
  have hne : behindFirst bang.isSome result ≠ some none := by
    rw [hrest]
    nofun
  obtain ⟨first, left, right, u, f', rfl, hu, hblank', htaken, hrange, hcode'⟩ :=
    second_of_behindFirst hp hblank hfirst hne
  rw [hcode'] at hrest
  obtain ⟨result', hsecond, hlast⟩ := bind_eq_some_iff.mp hrest
  cases result' with
  | none => exact nomatch hlast
  | some parts =>
    obtain ⟨q, g'⟩ := parts
    obtain ⟨second, m, rfl, hq, htaken', -⟩ := taken_of_getHour hu hblank' hsecond
    rw [← append_assoc] at hu
    rcases behindSecond_cases bang.isSome f' g' (hu.split hq).1 with hnone | ⟨m', rfl, hsome⟩
    · rw [hnone] at hlast
      exact nomatch hlast
    · rw [hsome] at hlast
      have hadd : blanks (m + m') = blanks m ++ blanks m' := replicate_add m m' _
      have hend : second.text ++ (blanks m ++ (blanks m' ++ [0])) =
          second.text ++ (blanks (m + m') ++ [0]) := by
        rw [hadd, append_assoc]
      rw [hend] at htext hrange
      refine ⟨⟨before, bang, first, left, right, second, m + m'⟩, ?_, ⟨htaken, htaken', ?_⟩, ?_⟩
      · have hsame : (RangeText.mk before bang first left right second (m + m')).text ++ [0] =
            s ++ [0] := by
          rw [htext]
          simp [RangeText.text]
        exact append_cancel_right hsame
      · intro hempty
        obtain ⟨d, v, hdigits, hd⟩ := minuteText_cons htaken' (.inr rfl) (m + m') []
        rw [hempty, nil_append, text_append, hdigits] at hrange
        exact (atoi_minus_iff (r := d :: v) left right htaken'.digits htaken'.short hd).mp hrange
      · exact (Prod.mk.inj (some.inj (some.inj hlast))).1

/-- The string is read behind its end exactly when it ends in a minute. -/
theorem readTimes_eq_none_iff (hs : ∀ b ∈ s, b ≠ 0) : readTimes s = none ↔ Truncated s := by
  constructor
  · intro h
    obtain ⟨before, bang, p, htext, hp, hblank, hcode⟩ := exists_opening hs
    have hcancel : ∀ x : Bytes, s ++ [0] = x ++ [0] → s = x := fun x => append_cancel_right
    rw [hcode] at h
    cases hfirst : getHour p with
    | none =>
      obtain ⟨ds, rest, rfl, hd, hlen, hval, hrest⟩ := truncated_of_getHour hp hfirst
      refine ⟨before, bang, ds, rest, hd, hlen, hval, hrest, .inl (hcancel _ ?_)⟩
      rw [htext]
      simp
    | some result =>
      rw [hfirst, bind_some] at h
      have hne : behindFirst bang.isSome result ≠ some none := by
        rw [h]
        nofun
      obtain ⟨first, left, right, u, f', rfl, hu, hblank', htaken, hrange, hcode'⟩ :=
        second_of_behindFirst hp hblank hfirst hne
      rw [hcode'] at h
      cases hsecond : getHour u with
      | none =>
        obtain ⟨ds, rest, rfl, hd, hlen, hval, hrest⟩ := truncated_of_getHour hu hsecond
        refine ⟨before, bang, ds, rest, hd, hlen, hval, hrest,
          .inr ⟨first, left, right, htaken, fun hempty => ?_, hcancel _ ?_⟩⟩
        · rw [hempty, nil_append] at hrange
          exact (atoi_minus_iff left right hd hlen rfl).mp hrange
        · rw [htext]
          simp
      | some result' =>
        rw [hsecond, bind_some] at h
        cases result' with
        | none => exact nomatch h
        | some parts =>
          obtain ⟨q, g'⟩ := parts
          obtain ⟨second, m, rfl, hq, -⟩ := taken_of_getHour hu hblank' hsecond
          rw [← append_assoc] at hu
          rcases behindSecond_cases bang.isSome f' g' (hu.split hq).1 with hnone | ⟨m', -, hsome⟩
          · rw [hnone] at h
            exact nomatch h
          · rw [hsome] at h
            exact nomatch h
  · rintro ⟨before, bang, ds, rest, hd, hlen, hval, hrest, rfl | ⟨first, left, right, htaken, hsign,
      rfl⟩⟩
    all_goals
      -- an hour and a colon are no blanks
      have hstart : ∃ b v, ds ++ chr ':' :: (rest ++ [0]) = b :: v ∧ b ≠ chr ' ' ∧ b ≠ chr '!' := by
        cases ds with
        | nil => exact ⟨chr ':', _, rfl, by decide, by decide⟩
        | cons b ds =>
          have hb := hd b mem_cons_self
          refine ⟨b, _, rfl, ?_, ?_⟩ <;>
            · rintro rfl
              cases hb
      obtain ⟨b, v, hbv, hblank, hbang⟩ := hstart
      have hwhite : rmWhite (ds ++ chr ':' :: (rest ++ [0])) =
          some (ds ++ chr ':' :: (rest ++ [0])) := by
        rw [hbv]
        exact rmWhite_cons hblank v
    · have htext : blanks before ++ (RangeText.bangText bang ++ (ds ++ chr ':' :: rest)) ++ [0] =
          blanks before ++ (RangeText.bangText bang ++ (ds ++ chr ':' :: (rest ++ [0]))) := by
        simp
      rw [readTimes_opening htext hwhite (by rw [hbv]; exact hbang),
        getHour_truncated hd hlen hval hrest]
      rfl
    · have htext : blanks before ++ (RangeText.bangText bang ++ (first.text ++ (blanks left ++
          chr '-' :: (blanks right ++ (ds ++ chr ':' :: rest))))) ++ [0] =
          blanks before ++ (RangeText.bangText bang ++ (first.text ++ (blanks left ++
            chr '-' :: (blanks right ++ (ds ++ chr ':' :: (rest ++ [0])))))) := by
        simp
      obtain ⟨n, hwhite', hbang'⟩ := rmWhite_taken htaken (.inl rfl) left
        (blanks right ++ (ds ++ chr ':' :: (rest ++ [0])))
      obtain ⟨q, f, hget, hq, -⟩ := getHour_minus (n := n) (r := chr ':' :: (rest ++ [0])) htaken hd
        hlen rfl hsign
      rw [readTimes_opening htext hwhite' hbang', hget, bind_some,
        behindFirst_minus _ f hq ((rmWhite_blanks right _).trans hwhite),
        getHour_truncated hd hlen hval hrest]
      rfl

/-- What a time takes of a string is determined. -/
theorem unique_time {t' : TimeText} {n' : ℕ} {c' : UInt8} {r r' : Bytes} (ht : t.Taken)
    (ht' : t'.Taken) (hc : c = chr '-' ∨ c = 0) (hc' : c' = chr '-' ∨ c' = 0)
    (h : t.text ++ (blanks n ++ c :: r) = t'.text ++ (blanks n' ++ c' :: r')) :
    t = t' ∧ c :: r = c' :: r' := by
  have hstop : c ≠ chr ' ' ∧ ¬ IsLetter c := by
    rcases hc with rfl | rfl <;> decide
  have hstop' : c' ≠ chr ' ' ∧ ¬ IsLetter c' := by
    rcases hc' with rfl | rfl <;> decide
  rw [text_append, text_append] at h
  -- the hours are the digits at the beginning
  obtain ⟨d, v, hdigits, hd⟩ := minuteText_cons ht hc n r
  obtain ⟨d', v', hdigits', hd'⟩ := minuteText_cons ht' hc' n' r'
  have hhour : t.hour = t'.hour := by
    have htake := congrArg (List.takeWhile isDigit) h
    rw [hdigits, hdigits'] at htake
    rwa [@takeWhile_isDigit_append _ ht.digits (d :: v) hd,
      @takeWhile_isDigit_append _ ht'.digits (d' :: v') hd'] at htake
  rw [hhour, append_cancel_left_eq] at h
  obtain ⟨e, w, hhalf, -, hcolon, hwhite⟩ := halfText_cons ht hc n r
  obtain ⟨e', w', hhalf', -, hcolon', hwhite'⟩ := halfText_cons ht' hc' n' r'
  -- a colon begins the minutes
  have hminute : t.minute = t'.minute ∧
      t.halfText ++ (blanks n ++ c :: r) = t'.halfText ++ (blanks n' ++ c' :: r') := by
    cases hm : t.minute with
    | none =>
      cases hm' : t'.minute with
      | none =>
        rw [TimeText.minuteText, TimeText.minuteText, hm, hm'] at h
        exact ⟨rfl, h⟩
      | some minute =>
        rw [TimeText.minuteText, TimeText.minuteText, hm, hm', hhalf] at h
        exact absurd (List.cons.inj h).1 hcolon
    | some minute =>
      cases hm' : t'.minute with
      | none =>
        rw [TimeText.minuteText, TimeText.minuteText, hm, hm', hhalf'] at h
        exact absurd (List.cons.inj h).1.symm hcolon'
      | some minute' =>
        obtain ⟨x, y⟩ := minute
        obtain ⟨x', y'⟩ := minute'
        rw [TimeText.minuteText, TimeText.minuteText, hm, hm'] at h
        simp only [cons_append, nil_append, List.cons.injEq, true_and] at h
        obtain ⟨rfl, rfl, h⟩ := h
        exact ⟨rfl, h⟩
  obtain ⟨hminute, h⟩ := hminute
  rw [hhalf, hhalf'] at h
  rw [← h, hwhite, some.injEq] at hwhite'
  -- a letter begins the half of the day
  have hresult : t.half = t'.half ∧ c :: r = c' :: r' := by
    cases hh : t.half with
    | none =>
      cases hh' : t'.half with
      | none =>
        rw [hh, hh'] at hwhite'
        exact ⟨rfl, hwhite'⟩
      | some half' =>
        obtain ⟨k, b, m⟩ := half'
        rw [hh, hh'] at hwhite'
        obtain rfl := (List.cons.inj hwhite').1
        exact absurd (ht'.half k c m hh').1.1 hstop.2
    | some half =>
      obtain ⟨k, b, m⟩ := half
      cases hh' : t'.half with
      | none =>
        rw [hh, hh'] at hwhite'
        obtain rfl := (List.cons.inj hwhite').1
        exact absurd (ht.half k b m hh).1.1 hstop'.2
      | some half' =>
        obtain ⟨k', b', m'⟩ := half'
        rw [hh, hh'] at hwhite'
        simp only [List.cons.injEq] at hwhite'
        obtain ⟨rfl, rfl, hrest⟩ := hwhite'
        have hend := congrArg rmWhite hrest
        rw [rmWhite_blanks_cons hstop.1, rmWhite_blanks_cons hstop'.1, some.injEq] at hend
        refine ⟨?_, hend⟩
        -- the same rest leaves the same number of blanks
        rw [← hhalf, ← hhalf', TimeText.halfText, TimeText.halfText, hh, hh', hrest] at h
        have hlen := congrArg List.length h
        simp only [length_append, blanks, length_replicate, length_cons, length_nil] at hlen
        obtain rfl : k = k' := by omega
        rfl
  refine ⟨?_, hresult.2⟩
  obtain ⟨hour, minute, half⟩ := t
  obtain ⟨hour', minute', half'⟩ := t'
  obtain rfl : hour = hour' := hhour
  obtain rfl : minute = minute' := hminute
  obtain rfl : half = half' := hresult.1
  rfl

/-- The times of a range that is taken are determined. -/
theorem unique_range {r r' : RangeText} (hr : r.Taken) (hr' : r'.Taken) (h : r.text = r'.text) :
    r.first = r'.first ∧ r.second = r'.second := by
  obtain ⟨before, bang, first, left, right, second, after⟩ := r
  obtain ⟨before', bang', first', left', right', second', after'⟩ := r'
  obtain ⟨hfirst, hsecond, -⟩ := hr
  obtain ⟨hfirst', hsecond', -⟩ := hr'
  rw [RangeText.text, RangeText.text] at h
  have hwhite := congrArg (fun s => rmWhite (s ++ [0])) h
  simp only [append_assoc, cons_append, rmWhite_blanks] at hwhite
  obtain ⟨n, hstrip, hbang⟩ := rmWhite_taken hfirst (.inl rfl) left
    (blanks right ++ (second.text ++ (blanks after ++ [0])))
  obtain ⟨n', hstrip', hbang'⟩ := rmWhite_taken hfirst' (.inl rfl) left'
    (blanks right' ++ (second'.text ++ (blanks after' ++ [0])))
  have hopen : ∀ (m : ℕ) (p : Bytes), rmWhite (RangeText.bangText (some m) ++ p) =
      some (chr '!' :: (blanks m ++ p)) := fun m p => rmWhite_cons (by decide) _
  -- behind the `!` or without one the first times begin
  have hfirsts : first.text ++ (blanks n ++ chr '-' :: (blanks right ++ (second.text ++
      (blanks after ++ [0])))) = first'.text ++ (blanks n' ++ chr '-' :: (blanks right' ++
        (second'.text ++ (blanks after' ++ [0])))) := by
    cases bang with
    | none =>
      cases bang' with
      | none =>
        rw [RangeText.bangText, nil_append, nil_append, hstrip, hstrip'] at hwhite
        exact some.inj hwhite
      | some m' =>
        rw [hopen, RangeText.bangText, nil_append, hstrip] at hwhite
        rw [some.inj hwhite] at hbang
        exact absurd rfl hbang
    | some m =>
      cases bang' with
      | none =>
        rw [hopen, RangeText.bangText, nil_append, hstrip'] at hwhite
        rw [← some.inj hwhite] at hbang'
        exact absurd rfl hbang'
      | some m' =>
        rw [hopen, hopen] at hwhite
        have hrest := congrArg rmWhite (List.cons.inj (some.inj hwhite)).2
        rw [rmWhite_blanks, rmWhite_blanks, hstrip, hstrip'] at hrest
        exact some.inj hrest
  obtain ⟨hsame, hrest⟩ := unique_time hfirst hfirst' (.inl rfl) (.inl rfl) hfirsts
  refine ⟨hsame, ?_⟩
  obtain ⟨k, hstrip, -⟩ := rmWhite_taken hsecond (.inr rfl) after []
  obtain ⟨k', hstrip', -⟩ := rmWhite_taken hsecond' (.inr rfl) after' []
  have hsecond'' := congrArg rmWhite (List.cons.inj hrest).2
  rw [rmWhite_blanks, rmWhite_blanks, hstrip, hstrip', some.injEq] at hsecond''
  exact (unique_time hsecond hsecond' (.inr rfl) (.inr rfl) hsecond'').1

end Range

/-! ## The law -/

section Law

variable {s : Bytes} {t : TimeText} {m : ℕ}

theorem TimeText.Denotes.taken (h : t.Denotes m) : t.Taken where
  digits := h.digits
  short := h.short
  hour := by
    have hvalue := h.value
    cases hhalf : t.half with
    | none =>
      rw [hhalf] at hvalue
      exact hvalue.1
    | some half =>
      obtain ⟨n, b, c⟩ := half
      rw [hhalf] at hvalue
      have hle := hvalue.2.2.1
      omega
  half n b c hhalf := by
    have hvalue := h.value
    rw [hhalf] at hvalue
    exact ⟨hvalue.1, fun _ => hvalue.2.2.1⟩
  tight hnil := absurd hnil h.numeric.hour

/-- A time that is right is one that denotes what is read. -/
theorem TimeText.Taken.denotes_iff (h : t.Taken) :
    t.Right ↔ t.Numeric ∧ t.Denotes t.read := by
  have hhalf := h.half
  constructor
  · rintro ⟨hnumeric, hright⟩
    refine ⟨hnumeric, h.digits, h.short, hnumeric, ?_⟩
    rw [TimeText.read]
    cases hh : t.half with
    | none =>
      have hpm : t.pm = false := by rw [TimeText.pm, hh]
      rw [hpm]
      exact ⟨h.hour, rfl⟩
    | some half =>
      obtain ⟨n, b, c⟩ := half
      rw [hh] at hright
      obtain ⟨hone, htwelve, hnoon⟩ := hright.resolve_left nofun
      refine ⟨(hhalf n b c hh).1, hone, htwelve, ?_⟩
      cases hpm : t.pm
      · have hne : digitsValue t.hour ≠ 12 := hnoon.resolve_left (by rw [hpm]; nofun)
        simp
        omega
      · simp
        split_ifs <;> omega
  · rintro ⟨hnumeric, hdenotes⟩
    refine ⟨hnumeric, ?_⟩
    have hvalue := hdenotes.value
    rw [TimeText.read] at hvalue
    cases hh : t.half with
    | none => exact .inl rfl
    | some half =>
      obtain ⟨n, b, c⟩ := half
      rw [hh] at hvalue
      obtain ⟨-, hone, htwelve, heq⟩ := hvalue
      refine .inr ⟨hone, htwelve, ?_⟩
      cases hpm : t.pm
      · refine .inr fun hnoon => ?_
        rw [hpm, hnoon] at heq
        simp at heq
      · exact .inl rfl

theorem TimeText.Denotes.unique {m' : ℕ} (h : t.Denotes m) (h' : t.Denotes m') : m = m' := by
  have hvalue := h.value
  have hvalue' := h'.value
  cases hh : t.half with
  | none =>
    rw [hh] at hvalue hvalue'
    exact hvalue.2.trans hvalue'.2.symm
  | some half =>
    rw [hh] at hvalue hvalue'
    exact hvalue.2.2.2.trans hvalue'.2.2.2.symm

theorem TimeText.Denotes.lt (h : t.Denotes m) : m < 1440 := by
  have hvalue := h.value
  have hminutes := h.numeric.minutes
  cases hh : t.half with
  | none =>
    rw [hh] at hvalue
    omega
  | some half =>
    rw [hh] at hvalue
    obtain ⟨-, -, -, heq⟩ := hvalue
    split_ifs at heq <;> omega

theorem TimeText.Taken.read_lt (h : t.Taken) (hnumeric : t.Numeric) : t.read < 1440 := by
  have hminutes := hnumeric.minutes
  have hhour := h.hour
  rw [TimeText.read]
  split_ifs with hpm
  · have hle : digitsValue t.hour ≤ 12 := by
      cases hh : t.half with
      | none =>
        rw [TimeText.pm, hh] at hpm
        exact absurd hpm.1 Bool.false_ne_true
      | some half => exact (h.half half.1 half.2.1 half.2.2 hh).2 hpm.1
    omega
  · omega

theorem clock_injective {a b : ℕ} (ha : a < 1440) (hb : b < 1440) (h : clock a = clock b) :
    a = b := by
  have hab := strncmp_clock ha hb 0 [] []
  have hbb := (strncmp_clock hb hb 0 [] []).1 rfl
  have hzero : strncmp 0 [] [] = 0 := rfl
  rw [h] at hab
  omega

theorem taken_of_denotes {r : RangeText} {a b : ℕ} (ha : r.first.Denotes a)
    (hb : r.second.Denotes b) : r.Taken where
  first := ha.taken
  second := hb.taken
  sign hempty := by
    rw [TimeText.text, append_eq_nil_iff] at hempty
    exact absurd hempty.1 ha.numeric.hour

/-- For every string, `OS_IsValidTime` reads nothing behind its end and accepts it as the range that
the grammar says, if and only if it does not end in a minute and is not mistaken for a range. -/
theorem readAsDenoted_iff (hs : ∀ b ∈ s, b ≠ 0) :
    ReadAsDenoted s ↔ ¬ Truncated s ∧ ¬ Mistaken s := by
  rw [← readTimes_eq_none_iff hs]
  constructor
  · rintro ⟨result, hresult, hread⟩
    refine ⟨fun hnone => ?_, ?_⟩
    · rw [hnone] at hresult
      exact nomatch hresult
    · rintro ⟨r, rfl, htaken, hwrong⟩
      obtain ⟨f, g, hcode, hf, hg⟩ := readTimes_of_taken htaken
      rw [hresult] at hcode
      obtain ⟨a, b, ⟨r', htext, -, ha, hb⟩, hfa, hgb⟩ := (hread _ f g).mp (some.inj hcode)
      -- the range that is denoted is the one that is taken
      obtain ⟨hfirst, hsecond⟩ := unique_range htaken (taken_of_denotes ha hb) htext.symm
      rw [← hfirst] at ha
      rw [← hsecond] at hb
      apply hwrong
      constructor
      · rw [hf ha.numeric] at hfa
        have heq := clock_injective (htaken.first.read_lt ha.numeric) ha.lt hfa
        exact htaken.first.denotes_iff.mpr ⟨ha.numeric, heq ▸ ha⟩
      · rw [hg hb.numeric] at hgb
        have heq := clock_injective (htaken.second.read_lt hb.numeric) hb.lt hgb
        exact htaken.second.denotes_iff.mpr ⟨hb.numeric, heq ▸ hb⟩
  · rintro ⟨hsome, hmistaken⟩
    have hright : ∀ r : RangeText, r.text = s → r.Taken → r.first.Right ∧ r.second.Right :=
      fun r htext htaken => by_contra fun hwrong => hmistaken ⟨r, htext, htaken, hwrong⟩
    obtain ⟨result, hresult⟩ := ne_none_iff_exists'.mp hsome
    refine ⟨result, hresult, fun ng f g => ⟨fun h => ?_, ?_⟩⟩
    · rw [h] at hresult
      obtain ⟨r, rfl, htaken, rfl⟩ := taken_of_readTimes hs hresult
      obtain ⟨hfirst, hsecond⟩ := hright r rfl htaken
      obtain ⟨f', g', hcode, hf, hg⟩ := readTimes_of_taken htaken
      rw [hresult, some.injEq, some.injEq, Prod.mk.injEq, Prod.mk.injEq] at hcode
      refine ⟨r.first.read, r.second.read, ⟨r, rfl, rfl,
        (htaken.first.denotes_iff.mp hfirst).2, (htaken.second.denotes_iff.mp hsecond).2⟩, ?_, ?_⟩
      · exact hcode.2.1.trans (hf hfirst.1)
      · exact hcode.2.2.trans (hg hsecond.1)
    · rintro ⟨a, b, ⟨r, rfl, rfl, ha, hb⟩, rfl, rfl⟩
      have htaken := taken_of_denotes ha hb
      obtain ⟨hfirst, hsecond⟩ := hright r rfl htaken
      obtain ⟨f', g', hcode, hf, hg⟩ := readTimes_of_taken htaken
      have hreada := ha.unique (htaken.first.denotes_iff.mp hfirst).2
      have hreadb := hb.unique (htaken.second.denotes_iff.mp hsecond).2
      rw [hresult, some.injEq] at hcode
      rw [hcode, hf ha.numeric, hg hb.numeric, hreada, hreadb]

/-- A range that is read as it is meant. -/
theorem readAsDenoted_iff_evening :
    ReadAsDenoted (lit "!9:30 pm-7") ↔ ¬ Truncated (lit "!9:30 pm-7") ∧ ¬ Mistaken (lit "!9:30 pm-7") :=
  readAsDenoted_iff (forall_mem_of_all (by decide))

/-- A minute of one digit is read behind the end of the string; `12 am` is noon, and a range without
times is one of midnight. -/
theorem not_readAsDenoted :
    readTimes (lit "8:00-10:5") = none ∧
    readTimes (lit "12 am-1") = some (some (false, lit "12:00", lit "01:00")) ∧
    readTimes (lit "-") = some (some (false, lit "00:00", lit "00:00")) ∧
    ¬ ReadAsDenoted (lit "8:00-10:5") := by
  have hnone : readTimes (lit "8:00-10:5") = none := by decide
  refine ⟨hnone, by decide, by decide, ?_⟩
  rintro ⟨result, hresult, -⟩
  rw [hnone] at hresult
  exact nomatch hresult

end Law

end ValidateOp
