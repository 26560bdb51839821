import Mathlib.Data.List.TakeWhile
import Mathlib.Tactic.Linarith

/-!
# C strings as byte lists

The C library functions that byte-oriented formats are written with, over lists of bytes. A
pointer into an array is the list of the bytes from it to the end of the array: `p + k` is
`p.drop k`, `*p` is `p.headD 0`, and a C string ends at its first zero byte.

- `fmtU`, `fmtU0`: the conversions `%u` and `%0wu` of `printf`;
- `atoi`, `scanU`: `atoi` and the conversion `%u` of `scanf`, for a 64-bit `long`;
- `toUInt32_atoi_fmtU0`, `scanU_fmtU`: reading back a printed number, with a non-digit behind
  it, returns the number.
-/

open List

namespace CString

/-- A byte array, or a pointer to the rest of one. -/
abbrev Bytes := List UInt8

/-- The byte of an ASCII character. -/
def chr (c : Char) : UInt8 := c.toUInt8

/-- The bytes of a string literal. -/
def lit (s : String) : Bytes := s.toList.map chr

theorem forall_mem_of_all {t : Bytes} {P : UInt8 → Prop} [DecidablePred P]
    (h : (t.all fun b => decide (P b)) = true) : ∀ b ∈ t, P b := fun b hb =>
  of_decide_eq_true (all_eq_true.mp h b hb)

/-- `isdigit`. -/
def isDigit (b : UInt8) : Bool := 48 ≤ b && b ≤ 57

/-- `isspace` in the C locale. -/
def isSpace (b : UInt8) : Bool := b == 32 || (9 ≤ b && b ≤ 13)

/-- The C string a pointer points to: the bytes before the first zero byte. -/
def str (s : Bytes) : Bytes := s.takeWhile (· != 0)

/-- `strchr(s, c)` for a nonzero `c`: the pointer to the first `c` of the string. -/
def strchr (c : UInt8) : Bytes → Option Bytes
  | [] => none
  | b :: s => if b = c then some (b :: s) else if b = 0 then none else strchr c s

/-- `strstr(s, t)`: the pointer to the first `t` of the string. -/
def strstr (t : Bytes) : Bytes → Option Bytes
  | [] => if t = [] then some [] else none
  | b :: s => if t.isPrefixOf (b :: s) then some (b :: s) else strstr t s

/-- `strncmp(s, t, n) == 0`. -/
def strncmpEq : ℕ → Bytes → Bytes → Bool
  | 0, _, _ => true
  | n + 1, s, t =>
    s.headD 0 == t.headD 0 && (s.headD 0 == 0 || strncmpEq n s.tail t.tail)

/-- The C string that `strncpy(dst, s, n)` followed by `dst[n] = '\0'` leaves in `dst`. -/
def strncpy (n : ℕ) (s : Bytes) : Bytes := str (s.take n)

/-- Overwrite the start of an array with `bs`. The rest of the array keeps its bytes. -/
def overwrite (bs buf : Bytes) : Bytes := bs ++ buf.drop bs.length

/-- `buf[i] = b`. -/
def setByte (buf : Bytes) (i : ℕ) (b : UInt8) : Bytes := buf.set i b

/-- The C string that `snprintf(buf, n, ...)` leaves in `buf`. -/
def snprintf (n : ℕ) (s : Bytes) : Bytes := s.take (n - 1)

/-- `p - base`, for a pointer `p` into the array that `base` points to. -/
def ptrDiff (p base : Bytes) : ℕ := base.length - p.length

/-- `n - k` for a 64-bit `size_t`. -/
def sizeSub (n k : ℕ) : ℕ := (n + 2 ^ 64 - k) % 2 ^ 64

@[simp]
theorem strncmpEq_self (n : ℕ) (s : Bytes) : strncmpEq n s s = true := by
  induction n generalizing s with
  | zero => rfl
  | succ n ih => simp [strncmpEq, ih]

/-- A string without zero bytes of at most `n` bytes survives `strncpy`, whatever follows. -/
theorem strncpy_append {n : ℕ} {s : Bytes} (hlen : s.length = n) (hz : ∀ b ∈ s, b ≠ 0)
    (rest : Bytes) : strncpy n (s ++ rest) = s := by
  have htake : (s ++ rest).take n = s := by rw [← hlen, take_left]
  rw [strncpy, htake, str, takeWhile_eq_self_iff]
  intro b hb
  simpa using hz b hb

theorem str_append_zero {s : Bytes} (hz : ∀ b ∈ s, b ≠ 0) (rest : Bytes) :
    str (s ++ 0 :: rest) = s := by
  rw [str, takeWhile_append_of_pos (by simpa using hz)]
  simp

theorem strncmpEq_append (n : ℕ) (t : Bytes) {s : Bytes} (hlen : n ≤ s.length) (rest : Bytes) :
    strncmpEq n (s ++ rest) t = strncmpEq n s t := by
  induction n generalizing s t with
  | zero => rfl
  | succ n ih =>
    cases s with
    | nil => cases hlen
    | cons b s =>
      rw [strncmpEq, strncmpEq, cons_append]
      dsimp only [headD_cons, tail_cons]
      rw [ih t.tail (Nat.le_of_succ_le_succ hlen)]

/-- A text that is found is at the beginning. -/
theorem append_of_strncmpEq {s t : Bytes} (ht : ∀ b ∈ t, b ≠ 0) (h : strncmpEq t.length s t = true) :
    s = t ++ s.drop t.length := by
  induction t generalizing s with
  | nil => rfl
  | cons b t ih =>
    have hb := ht b mem_cons_self
    rw [length_cons, strncmpEq, Bool.and_eq_true, Bool.or_eq_true, beq_iff_eq, beq_iff_eq,
      headD_cons, tail_cons] at h
    obtain ⟨hhead, htail⟩ := h
    cases s with
    | nil => exact absurd hhead.symm hb
    | cons c s =>
      obtain rfl : c = b := hhead
      have hrest : s = t ++ s.drop t.length :=
        ih (fun b' hb' => ht b' (mem_cons_of_mem _ hb')) (htail.resolve_left hb)
      rw [length_cons, drop_succ_cons, cons_append, ← hrest]

theorem ne_zero_of_notMem {s : Bytes} (h : 0 ∉ s) : ∀ b ∈ s, b ≠ 0 := by
  rintro b hb rfl
  exact h hb

theorem strncmpEq_comm (n : ℕ) (s t : Bytes) : strncmpEq n s t = strncmpEq n t s := by
  induction n generalizing s t with
  | zero => rfl
  | succ n ih =>
    rw [strncmpEq, strncmpEq, ih]
    by_cases h : s.headD 0 = t.headD 0
    · rw [h]
    · rw [beq_eq_false_iff_ne.mpr h, beq_eq_false_iff_ne.mpr (Ne.symm h), Bool.false_and,
        Bool.false_and]

theorem strncmpEq_iff_isPrefix {s t : Bytes} (hs : ∀ b ∈ s, b ≠ 0) :
    strncmpEq s.length s t = true ↔ s <+: t := by
  constructor
  · intro h
    rw [strncmpEq_comm] at h
    exact ⟨t.drop s.length, (append_of_strncmpEq hs h).symm⟩
  · rintro ⟨rest, rfl⟩
    rw [strncmpEq_comm, strncmpEq_append _ _ le_rfl, strncmpEq_self]

/-! ## Printing numbers -/

/-- The conversion `%u` of `printf`. -/
def fmtU (n : ℕ) : Bytes := (Nat.toDigits 10 n).map Char.toUInt8

/-- The conversion `%0wu` of `printf`: padded on the left with zeros to `w` characters. -/
def fmtU0 (w n : ℕ) : Bytes := List.replicate (w - (fmtU n).length) 48 ++ fmtU n

/-- The conversions `%d` and `%ld` of `printf`. -/
def fmtD (i : ℤ) : Bytes := if i < 0 then chr '-' :: fmtU i.natAbs else fmtU i.natAbs

/-- The number a run of digits stands for. -/
def digitsValue (s : Bytes) : ℕ := s.foldl (fun v b => 10 * v + (b.toNat - 48)) 0

private theorem toNat_toUInt8_of_isDigit {c : Char} (h : c.isDigit) :
    (c.toUInt8).toNat = c.toNat := by
  have hc : c.val ≤ 57 := by
    simp only [Char.isDigit, Bool.and_eq_true, decide_eq_true_eq] at h
    exact h.2
  have hn : c.val.toNat ≤ 57 := UInt32.le_iff_toNat_le.mp hc
  change c.val.toUInt8.toNat = c.val.toNat
  rw [UInt32.toNat_toUInt8]
  omega

private theorem isDigit_toUInt8 {c : Char} (h : c.isDigit) : isDigit c.toUInt8 := by
  have hn := toNat_toUInt8_of_isDigit h
  simp only [Char.isDigit, Bool.and_eq_true, decide_eq_true_eq] at h
  have h₁ : 48 ≤ c.val.toNat := UInt32.le_iff_toNat_le.mp h.1
  have h₂ : c.val.toNat ≤ 57 := UInt32.le_iff_toNat_le.mp h.2
  have hv : c.toUInt8.toNat = c.val.toNat := hn
  simp only [isDigit, Bool.and_eq_true, decide_eq_true_eq, UInt8.le_iff_toNat_le]
  rw [hv]
  exact ⟨h₁, h₂⟩

theorem isDigit_of_mem_fmtU {n : ℕ} {b : UInt8} (h : b ∈ fmtU n) : isDigit b := by
  obtain ⟨c, hc, rfl⟩ := mem_map.mp h
  exact isDigit_toUInt8 (Nat.isDigit_of_mem_toDigits (by decide) (by decide) hc)

theorem isDigit_of_mem_fmtU0 {w n : ℕ} {b : UInt8} (h : b ∈ fmtU0 w n) : isDigit b := by
  rcases mem_append.mp h with h | h
  · rw [eq_of_mem_replicate h]
    decide
  · exact isDigit_of_mem_fmtU h

@[simp]
theorem fmtU_ne_nil (n : ℕ) : fmtU n ≠ [] := by
  simp [fmtU]

theorem length_fmtU_le {w n : ℕ} (hw : 0 < w) (h : n < 10 ^ w) : (fmtU n).length ≤ w := by
  rw [fmtU, length_map]
  exact (Nat.length_toDigits_le_iff (by decide) hw).mpr h

/-- A number of at most `w` digits is printed by `%0wu` on exactly `w` characters. -/
theorem length_fmtU0 {w n : ℕ} (hw : 0 < w) (h : n < 10 ^ w) : (fmtU0 w n).length = w := by
  have := length_fmtU_le hw h
  rw [fmtU0, length_append, length_replicate]
  omega

private theorem foldl_map_toUInt8 (l : List Char) (hl : ∀ c ∈ l, c.isDigit) (v : ℕ) :
    (l.map Char.toUInt8).foldl (fun v b => 10 * v + (b.toNat - 48)) v
      = Nat.ofDigitChars 10 l v := by
  induction l generalizing v with
  | nil => simp
  | cons c l ih =>
    rw [map_cons, foldl_cons, ih (fun d hd => hl d (mem_cons_of_mem _ hd)),
      Nat.ofDigitChars_cons, toNat_toUInt8_of_isDigit (hl c mem_cons_self)]
    rfl

@[simp]
theorem digitsValue_fmtU (n : ℕ) : digitsValue (fmtU n) = n := by
  rw [digitsValue, fmtU, foldl_map_toUInt8 _
    (fun c hc => Nat.isDigit_of_mem_toDigits (by decide) (by decide) hc)]
  exact Nat.ofDigitChars_ten_toDigits

private theorem digitsValue_replicate_append (k : ℕ) (s : Bytes) :
    digitsValue (List.replicate k 48 ++ s) = digitsValue s := by
  induction k with
  | zero => rfl
  | succ k ih => rw [replicate_succ, cons_append, ← ih]; rfl

@[simp]
theorem digitsValue_fmtU0 (w n : ℕ) : digitsValue (fmtU0 w n) = n := by
  rw [fmtU0, digitsValue_replicate_append, digitsValue_fmtU]

theorem fmtU_injective : Function.Injective fmtU := fun m n h => by
  rw [← digitsValue_fmtU m, h, digitsValue_fmtU]

theorem mem_fmtD {i : ℤ} {b : UInt8} (h : b ∈ fmtD i) : b = chr '-' ∨ isDigit b := by
  rw [fmtD] at h
  split at h
  · exact (mem_cons.mp h).imp_right isDigit_of_mem_fmtU
  · exact .inr (isDigit_of_mem_fmtU h)

theorem notMem_fmtU {n : ℕ} {c : UInt8} (hc : isDigit c = false) : c ∉ fmtU n := fun h =>
  Bool.false_ne_true (hc.symm.trans (isDigit_of_mem_fmtU h))

theorem ne_zero_fmtD (i : ℤ) : ∀ b ∈ fmtD i, b ≠ 0 := by
  rintro b hb rfl
  rcases mem_fmtD hb with h | h <;> cases h

theorem fmtD_natCast (n : ℕ) : fmtD n = fmtU n := by
  rw [fmtD, if_neg (by omega), Int.natAbs_natCast]

theorem fmtD_injective : Function.Injective fmtD := by
  -- a digit is not a sign
  have hsign : ∀ m n, chr '-' :: fmtU m ≠ fmtU n := fun m n h => by
    have hmem : chr '-' ∈ fmtU n := by
      rw [← h]
      exact mem_cons_self
    exact absurd (isDigit_of_mem_fmtU hmem) (by decide)
  intro i j h
  rw [fmtD, fmtD] at h
  by_cases hi : i < 0
  · by_cases hj : j < 0
    · rw [if_pos hi, if_pos hj] at h
      have habs := fmtU_injective (List.cons.inj h).2
      omega
    · rw [if_pos hi, if_neg hj] at h
      exact absurd h (hsign _ _)
  · by_cases hj : j < 0
    · rw [if_neg hi, if_pos hj] at h
      exact absurd h.symm (hsign _ _)
    · rw [if_neg hi, if_neg hj] at h
      have habs := fmtU_injective h
      omega

theorem length_fmtD_le {w : ℕ} {i : ℤ} (hw : 0 < w) (h : i.natAbs < 10 ^ w) :
    (fmtD i).length ≤ w + 1 := by
  have hlen := length_fmtU_le hw h
  rw [fmtD]
  split
  · rw [length_cons]
    omega
  · omega

/-! ## Reading numbers -/

theorem takeWhile_append_of_headD {p : UInt8 → Bool} (s : Bytes) {r : Bytes}
    (hr : p (r.headD 0) = false) : (s ++ r).takeWhile p = s.takeWhile p := by
  induction s with
  | nil =>
    cases r with
    | nil => rfl
    | cons b r => simp [show p b = false from hr]
  | cons b s ih =>
    by_cases hb : p b = true
    · simp [hb, ih]
    · simp [hb]

theorem dropWhile_append_of_headD {p : UInt8 → Bool} (s : Bytes) {r : Bytes}
    (hr : p (r.headD 0) = false) : (s ++ r).dropWhile p = s.dropWhile p ++ r := by
  induction s with
  | nil =>
    cases r with
    | nil => rfl
    | cons b r => simp [show p b = false from hr]
  | cons b s ih =>
    by_cases hb : p b = true
    · simp [hb, ih]
    · simp [hb]

/-- A run of digits in front of a byte that is no digit is what a conversion reads. -/
theorem takeWhile_isDigit_append {ds : Bytes} (hd : ∀ b ∈ ds, isDigit b) {rest : Bytes}
    (hr : isDigit (rest.headD 0) = false) : (ds ++ rest).takeWhile isDigit = ds := by
  rw [takeWhile_append_of_headD ds hr, takeWhile_eq_self_iff]
  exact hd

theorem dropWhile_isDigit_append {ds : Bytes} (hd : ∀ b ∈ ds, isDigit b) {rest : Bytes}
    (hr : isDigit (rest.headD 0) = false) : (ds ++ rest).dropWhile isDigit = rest := by
  rw [dropWhile_append_of_headD ds hr, dropWhile_eq_nil_iff.mpr hd, nil_append]

/-- Skip the blanks in front of a number and read its optional sign; `true` is a minus. -/
def splitSign (s : Bytes) : Bool × Bytes :=
  let t := s.dropWhile isSpace
  if t.headD 0 = chr '-' then (true, t.tail)
  else if t.headD 0 = chr '+' then (false, t.tail)
  else (false, t)

theorem splitSign_of_isDigit {s : Bytes} (h : isDigit (s.headD 0)) : splitSign s = (false, s) := by
  cases s with
  | nil => cases h
  | cons b s =>
    have hb : isDigit b = true := h
    have hbd : 48 ≤ b.toNat ∧ b.toNat ≤ 57 := by
      simpa [isDigit, UInt8.le_iff_toNat_le] using hb
    have hne : ∀ k : UInt8, k.toNat < 48 → b ≠ k := by
      intro k hk he
      rw [he] at hbd
      omega
    have hsp : isSpace b = false := by
      have h32 : b ≠ 32 := hne 32 (by decide)
      have h13 : ¬ b.toNat ≤ 13 := by omega
      simp [isSpace, h32, UInt8.le_iff_toNat_le, h13]
    simp [splitSign, hsp, hne (chr '-') (by decide), hne (chr '+') (by decide)]

/-- `strtol(s, NULL, 10)` for a 64-bit `long`: the value saturates. -/
def strtol (s : Bytes) : ℤ :=
  let (neg, t) := splitSign s
  let v : ℤ := digitsValue (t.takeWhile isDigit)
  if neg then max (-2 ^ 63) (-v) else min v (2 ^ 63 - 1)

/-- `strtoul(s, NULL, base)` for a 64-bit `unsigned long` and a base up to ten: the value saturates,
and a minus is a negation modulo `2^64`. -/
def strtoul (base : ℕ) (s : Bytes) : ℕ :=
  let (neg, t) := splitSign s
  let digits := t.takeWhile fun b => isDigit b && b.toNat - 48 < base
  let v := digits.foldl (fun v b => base * v + (b.toNat - 48)) 0
  if 2 ^ 64 ≤ v then 2 ^ 64 - 1 else if neg then (2 ^ 64 - v) % 2 ^ 64 else v

/-- `atoi(s)`, which is `(int) strtol(s, NULL, 10)`. -/
def atoi (s : Bytes) : ℤ := Int.bmod (strtol s) (2 ^ 32)

/-- The conversion from `int` to `unsigned int`. -/
def toUInt32 (i : ℤ) : UInt32 := UInt32.ofInt i

/-- The conversion `%u` of `scanf`: the number and the input behind it. The digits go through
`strtoul`, which saturates at 64 bits, and the result is cut to 32 bits. -/
def scanU (s : Bytes) : Option (UInt32 × Bytes) :=
  let (neg, t) := splitSign s
  let ds := t.takeWhile isDigit
  if ds = [] then none
  else
    let v := min (digitsValue ds) (2 ^ 64 - 1)
    some (UInt32.ofNat (if neg then 2 ^ 64 - v else v), t.dropWhile isDigit)

private theorem headD_append {ds rest : Bytes} (h : ds ≠ []) :
    (ds ++ rest).headD 0 = ds.headD 0 := by
  cases ds with
  | nil => exact absurd rfl h
  | cons b ds => rfl

private theorem isDigit_headD {ds : Bytes} (hne : ds ≠ []) (hd : ∀ b ∈ ds, isDigit b) :
    isDigit (ds.headD 0) := by
  cases ds with
  | nil => exact absurd rfl hne
  | cons b ds => exact hd b mem_cons_self

theorem atoi_digits_append {ds : Bytes} (hne : ds ≠ []) (hd : ∀ b ∈ ds, isDigit b)
    {rest : Bytes} (hr : isDigit (rest.headD 0) = false) :
    atoi (ds ++ rest) = Int.bmod (min (digitsValue ds : ℤ) (2 ^ 63 - 1)) (2 ^ 32) := by
  have hsign : splitSign (ds ++ rest) = (false, ds ++ rest) :=
    splitSign_of_isDigit (by rw [headD_append hne]; exact isDigit_headD hne hd)
  simp [atoi, strtol, hsign, takeWhile_isDigit_append hd hr]

/-- `strtol` reads back what `%lu` printed for a number that a `long` can hold. -/
theorem strtol_fmtU_append {n : ℕ} (hn : n < 2 ^ 63) {rest : Bytes}
    (hr : isDigit (rest.headD 0) = false) : strtol (fmtU n ++ rest) = n := by
  have hd : ∀ b ∈ fmtU n, isDigit b := fun _ => isDigit_of_mem_fmtU
  have hsign : splitSign (fmtU n ++ rest) = (false, fmtU n ++ rest) :=
    splitSign_of_isDigit (by
      rw [headD_append (fmtU_ne_nil n)]; exact isDigit_headD (fmtU_ne_nil n) hd)
  have hmin : min (n : ℤ) (2 ^ 63 - 1) = n := by omega
  rw [strtol, hsign]
  simp only [takeWhile_isDigit_append hd hr, digitsValue_fmtU, hmin, Bool.false_eq_true, if_false]

/-- `atoi` reads back what `%d` printed for an `int`. -/
theorem atoi_fmtD_append (i : Int32) {rest : Bytes} (hr : isDigit (rest.headD 0) = false) :
    atoi (fmtD i.toInt ++ rest) = i.toInt := by
  have hlo : -2 ^ 31 ≤ i.toInt := i.le_toInt
  have hhi : i.toInt < 2 ^ 31 := i.toInt_lt
  have hcut : Int.bmod i.toInt (2 ^ 32) = i.toInt := Int.bmod_eq_of_le (by omega) (by omega)
  rw [atoi, fmtD]
  split
  case isTrue hneg =>
    have hd : ∀ b ∈ fmtU i.toInt.natAbs, isDigit b := fun _ => isDigit_of_mem_fmtU
    have hsign : splitSign (chr '-' :: fmtU i.toInt.natAbs ++ rest) =
        (true, fmtU i.toInt.natAbs ++ rest) := rfl
    have hmax : max (-2 ^ 63) (-(i.toInt.natAbs : ℤ)) = i.toInt := by omega
    rw [strtol, hsign]
    simp only [takeWhile_isDigit_append hd hr, digitsValue_fmtU, if_true, hmax, hcut]
  case isFalse hneg =>
    rw [strtol_fmtU_append (by omega) hr, Int.natAbs_of_nonneg (by omega), hcut]

/-- `atoi` reads nothing behind the end of the C string. -/
theorem atoi_append (s : Bytes) {r : Bytes} (hr : r.headD 0 = 0) : atoi (s ++ r) = atoi s := by
  have hdrop : (s ++ r).dropWhile isSpace = s.dropWhile isSpace ++ r :=
    dropWhile_append_of_headD s (by rw [hr]; decide)
  have htake : ∀ t : Bytes, (t ++ r).takeWhile isDigit = t.takeWhile isDigit :=
    fun t => takeWhile_append_of_headD t (by rw [hr]; decide)
  have hsign : (splitSign (s ++ r)).1 = (splitSign s).1 ∧
      (splitSign (s ++ r)).2.takeWhile isDigit = (splitSign s).2.takeWhile isDigit := by
    simp only [splitSign, hdrop]
    cases s.dropWhile isSpace with
    | nil =>
      -- nothing but blanks: a zero byte is neither a sign nor a digit
      have hminus : (0 : UInt8) ≠ chr '-' := by decide
      have hplus : (0 : UInt8) ≠ chr '+' := by decide
      simp only [nil_append, hr, headD_nil, hminus, hplus, if_false, true_and]
      exact htake []
    | cons b t =>
      have hcons : ((b :: t) ++ r).takeWhile isDigit = (b :: t).takeWhile isDigit :=
        htake (b :: t)
      by_cases hminus : b = chr '-'
      · simp [hminus, htake]
      · by_cases hplus : b = chr '+'
        · have hne : chr '+' ≠ chr '-' := by decide
          simp [hplus, hne, htake]
        · simpa [hminus, hplus] using hcons
  rw [atoi, atoi, strtol, strtol]
  simp only [hsign.1, hsign.2]

/-- `(unsigned int) atoi` reads back what `%0wu` printed for a 32-bit number. -/
theorem toUInt32_atoi_fmtU0 (w : ℕ) (n : UInt32) {rest : Bytes}
    (hr : isDigit (rest.headD 0) = false) :
    toUInt32 (atoi (fmtU0 w n.toNat ++ rest)) = n := by
  have hn : n.toNat < 2 ^ 32 := n.toNat_lt
  have hmin : min ((n.toNat : ℕ) : ℤ) (2 ^ 63 - 1) = n.toNat := by omega
  rw [atoi_digits_append (by simp [fmtU0]) (fun _ => isDigit_of_mem_fmtU0) hr,
    digitsValue_fmtU0, hmin]
  have hcut : (Int.bmod (n.toNat : ℤ) (2 ^ 32) % 2 ^ 32).toNat = n.toNat := by
    have hmod := Int.bmod_emod (x := (n.toNat : ℤ)) (m := 2 ^ 32)
    omega
  rw [toUInt32, UInt32.ofInt, hcut, UInt32.ofNat_toNat]

/-- `scanf`'s `%u` reads back what `printf`'s `%u` printed for a 32-bit number. -/
theorem scanU_fmtU (n : UInt32) {rest : Bytes} (hr : isDigit (rest.headD 0) = false) :
    scanU (fmtU n.toNat ++ rest) = some (n, rest) := by
  have hn : n.toNat < 2 ^ 32 := n.toNat_lt
  have hd : ∀ b ∈ fmtU n.toNat, isDigit b := fun _ => isDigit_of_mem_fmtU
  have hsign : splitSign (fmtU n.toNat ++ rest) = (false, fmtU n.toNat ++ rest) :=
    splitSign_of_isDigit (by
      rw [headD_append (fmtU_ne_nil _)]; exact isDigit_headD (fmtU_ne_nil _) hd)
  have hmin : min n.toNat (2 ^ 64 - 1) = n.toNat := by omega
  simp only [scanU, hsign, takeWhile_isDigit_append hd hr, dropWhile_isDigit_append hd hr,
    fmtU_ne_nil, digitsValue_fmtU, hmin, if_false, Bool.false_eq_true, UInt32.ofNat_toNat]

end CString
