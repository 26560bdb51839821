import OssecHids.Lib.Pcre2
import OssecHids.Lib.Stream

/-!
# Literal patterns

What the compilers of `OSMatch`, `OSRegex` and `OSPcre2` have in common. A pattern that is a text
with an anchor is not given to PCRE2, but compared with functions of the C library.

- `compileLiteral`: which comparison a pattern gets;
- `Literal.holds_iff`: what the comparisons decide;
- `osPcre2_eq`: the answer of `OS_Pcre2` to a pattern that is given to PCRE2.
-/

open List

open CString Pcre2

namespace OsRegex

def OS_PATTERN_MAXSIZE : ℕ := 2048
def OS_REGEX_MAXSIZE : ℕ := 3
def OS_REGEX_BADREGEX : ℕ := 6
def OS_REGEX_PATTERN_EMPTY : ℕ := 10

/-- What becomes of a compilation. -/
inductive Outcome (α : Type)
  | ok (reg : α)
  | error (error : ℕ)
  /-- It reads a byte outside of the pattern. -/
  | outOfBounds

/-! ## Comparisons -/

/-- `strcmp(s, t) == 0`, and `strcasecmp(s, t) == 0`. -/
def strcmpEq (caseless : Bool) (s t : Bytes) : Bool :=
  (str s).map (fold caseless) == (str t).map (fold caseless)

/-- `strncmp(s, t, n) == 0`, and `strncasecmp(s, t, n) == 0`. -/
def strncmpCaseEq (caseless : Bool) (n : ℕ) (s t : Bytes) : Bool :=
  strncmpEq n (s.map (fold caseless)) (t.map (fold caseless))

/-- The functions of the literal paths. -/
inductive Comparison
  | strcmp | strncmp | strrcmp
  | strcasecmp | strncasecmp | strrcasecmp
  deriving DecidableEq, Repr

/-- A pattern that is compared. -/
structure Literal where
  pattern : Bytes
  pattern_len : ℕ
  exec_function : Comparison
  deriving DecidableEq, Repr

/-- `OSRegex_Execute_strcmp` and the functions like it, which are those of `OSPcre2` as well: the
pointer that they return. -/
def Literal.execute (reg : Literal) (subject : Bytes) : Option Bytes :=
  let len := subject.length
  let full (caseless : Bool) :=
    if strcmpEq caseless reg.pattern subject then some (subject.drop reg.pattern_len) else none
  let start (caseless : Bool) :=
    if strncmpCaseEq caseless reg.pattern_len reg.pattern subject then
      some (subject.drop reg.pattern_len)
    else none
  let tail (caseless : Bool) :=
    if len ≥ reg.pattern_len ∧ strcmpEq caseless reg.pattern (subject.drop (len - reg.pattern_len))
    then some (subject.drop len)
    else none
  match reg.exec_function with
  | .strcmp => full false
  | .strncmp => start false
  | .strrcmp => tail false
  | .strcasecmp => full true
  | .strncasecmp => start true
  | .strrcasecmp => tail true

/-- The byte at an index of a string, its zero byte included. -/
def charAt (pattern : Bytes) (i : ℕ) : Option UInt8 := (pattern ++ [0])[i]?

/-- What a compiler does with a pattern that it could optimize, if it reads no byte outside of it;
the pattern may still be one for PCRE2. -/
def compileLiteral (pattern : Bytes) (caseless : Bool) : Option (Option Literal) :=
  let pattern_len := pattern.length
  (charAt pattern 0).bind fun first_char =>
    (charAt pattern (sizeSub pattern_len 1)).map fun last_char =>
      if first_char = chr '^' then
        if last_char = chr '$' then
          some {
            pattern := (pattern.drop 1).take (pattern_len - 2)
            pattern_len := pattern_len - 2
            exec_function := if caseless then .strcasecmp else .strcmp }
        else
          some {
            pattern := pattern.drop 1
            pattern_len := pattern_len - 1
            exec_function := if caseless then .strncasecmp else .strncmp }
      else if last_char = chr '$' then
        some {
          pattern := pattern.take (pattern_len - 1)
          pattern_len := pattern_len - 1
          exec_function := if caseless then .strrcasecmp else .strrcmp }
      else none

/-! ## Patterns of PCRE2 -/

/-- `OSPcre2` -/
inductive OSPcre2
  | pcre2Match (regex : Bytes → Option ℕ)
  | literal (reg : Literal)

/-- `OSPcre2_CouldBeOptimized` -/
def osPcre2CouldBeOptimized (pcre2 : Engine) (pattern : Bytes) : Bool :=
  ((pcre2 (lit "^\\^?[a-zA-Z0-9 !\"#%&',/:;<=>@_`~-]*\\$?$") false).bind fun preg =>
    preg pattern).isSome

/-- What is left to PCRE2. -/
def compilePcre2 {α : Type} (pcre2 : Engine) (pattern : Bytes) (caseless : Bool)
    (reg : (Bytes → Option ℕ) → α) : Outcome α :=
  match pcre2 pattern caseless with
  | none => .error OS_REGEX_BADREGEX
  | some regex => .ok (reg regex)

/-- `OSPcre2_Compile` -/
def osPcre2Compile (pcre2 : Engine) (pattern : Bytes) (caseless : Bool) : Outcome OSPcre2 :=
  if pattern.length = 0 then .error OS_REGEX_PATTERN_EMPTY
  else if osPcre2CouldBeOptimized pcre2 pattern then
    match compileLiteral pattern caseless with
    | none => .outOfBounds
    | some (some reg) => .ok (.literal reg)
    | some none => compilePcre2 pcre2 pattern caseless .pcre2Match
  else compilePcre2 pcre2 pattern caseless .pcre2Match

/-- `OSPcre2_Execute`, the pointer that it returns. -/
def osPcre2Execute (str : Bytes) : OSPcre2 → Option Bytes
  | .pcre2Match regex => (regex str).map fun i => str.drop i
  | .literal reg => reg.execute str

/-- `OS_Pcre2` -/
def osPcre2 (pcre2 : Engine) (pattern str : Bytes) : Bool :=
  match osPcre2Compile pcre2 pattern true with
  | .ok reg => (osPcre2Execute str reg).isSome
  | _ => false

/-! ## What the comparisons decide -/

variable {caseless : Bool} {s t : Bytes}

theorem fold_eq_zero (b : UInt8) : fold caseless b = 0 ↔ b = 0 := fold_eq_iff rfl

theorem strcmpEq_iff (hs : ∀ b ∈ s, b ≠ 0) (ht : ∀ b ∈ t, b ≠ 0) :
    strcmpEq caseless s t = true ↔ Same caseless t s := by
  rw [strcmpEq, str_eq_self hs, str_eq_self ht, beq_iff_eq, Same, eq_comm]

theorem strncmpCaseEq_iff (hs : ∀ b ∈ s, b ≠ 0) :
    strncmpCaseEq caseless s.length s t = true ↔ StartsWith caseless s t := by
  rw [strncmpCaseEq]
  induction s generalizing t with
  | nil => simpa [strncmpEq] using ⟨[], t, rfl, rfl⟩
  | cons b s ih =>
    obtain ⟨hb, hs⟩ := forall_mem_cons.mp hs
    have hb' : (fold caseless b == 0) = false :=
      beq_eq_false_iff_ne.mpr fun h => hb ((fold_eq_zero b).mp h)
    rw [length_cons, map_cons, strncmpEq, headD_cons, tail_cons, hb',
      Bool.false_or, Bool.and_eq_true, beq_iff_eq]
    cases t with
    | nil =>
      constructor
      · rintro ⟨hzero, -⟩
        exact absurd ((fold_eq_zero b).mp hzero) hb
      · rintro ⟨x, rest, heq, hx⟩
        obtain ⟨rfl, rfl⟩ := append_eq_nil_iff.mp heq.symm
        exact absurd hx.length_eq (by simp)
    | cons c t =>
      rw [map_cons, headD_cons, tail_cons, ih hs]
      constructor
      · rintro ⟨hbc, x, rest, rfl, hx⟩
        refine ⟨c :: x, rest, rfl, ?_⟩
        rw [Same, map_cons, map_cons, hbc, hx]
      · rintro ⟨x, rest, heq, hx⟩
        cases x with
        | nil => exact absurd hx.length_eq (by simp)
        | cons d x =>
          obtain ⟨rfl, rfl⟩ := List.cons.inj heq
          obtain ⟨hd, hx⟩ := List.cons.inj hx
          exact ⟨hd.symm, x, rest, rfl, hx⟩

theorem endsWith_iff :
    EndsWith caseless t s ↔ t.length ≤ s.length ∧ Same caseless (s.drop (s.length - t.length)) t := by
  constructor
  · rintro ⟨pre, x, rfl, hx⟩
    have hlen := hx.length_eq
    rw [length_append]
    refine ⟨by omega, ?_⟩
    rwa [← hlen, Nat.add_sub_cancel, drop_left]
  · rintro ⟨hlen, h⟩
    exact ⟨_, _, (take_append_drop _ _).symm, h⟩

/-- What a comparison decides. -/
def Literal.Holds (reg : Literal) (s : Bytes) : Prop :=
  match reg.exec_function with
  | .strcmp => Same false s reg.pattern
  | .strncmp => StartsWith false reg.pattern s
  | .strrcmp => EndsWith false reg.pattern s
  | .strcasecmp => Same true s reg.pattern
  | .strncasecmp => StartsWith true reg.pattern s
  | .strrcasecmp => EndsWith true reg.pattern s

theorem strrcmp_iff (hs : ∀ b ∈ s, b ≠ 0) (ht : ∀ b ∈ t, b ≠ 0) :
    s.length ≥ t.length ∧ strcmpEq caseless t (s.drop (s.length - t.length)) = true ↔
      EndsWith caseless t s := by
  rw [endsWith_iff, strcmpEq_iff ht fun b hb => hs b (mem_of_mem_drop hb)]

theorem Literal.isSome_execute {reg : Literal} (hlen : reg.pattern_len = reg.pattern.length)
    (hreg : ∀ b ∈ reg.pattern, b ≠ 0) (hs : ∀ b ∈ s, b ≠ 0) :
    (reg.execute s).isSome ↔ reg.Holds s := by
  obtain ⟨pattern, pattern_len, exec_function⟩ := reg
  obtain rfl : pattern_len = pattern.length := hlen
  cases exec_function <;>
    simp only [Literal.execute, Literal.Holds, ← strcmpEq_iff hreg hs, ← strncmpCaseEq_iff hreg,
      ← strrcmp_iff hs hreg, Option.isSome_ite]

/-! ## Which comparison a pattern gets -/

theorem charAt_last {pattern : Bytes} {b : UInt8} (hlen : pattern.length < 2 ^ 64) :
    charAt (pattern ++ [b]) (sizeSub (pattern ++ [b]).length 1) = some b := by
  have hindex : sizeSub (pattern ++ [b]).length 1 = pattern.length := by
    rw [sizeSub, length_append, length_singleton]
    omega
  rw [charAt, hindex, append_assoc, getElem?_append_right (Nat.le_refl _), Nat.sub_self]
  rfl

theorem compileLiteral_nil : compileLiteral [] caseless = none := by
  have hindex : sizeSub ([] : Bytes).length 1 = 2 ^ 64 - 1 := by decide
  have hout : charAt [] (2 ^ 64 - 1) = none := by
    rw [charAt, List.getElem?_eq_none_iff]
    decide
  rw [compileLiteral, hindex, hout]
  rfl

theorem compileLiteral_full (hlen : (chr '^' :: t).length < 2 ^ 64) :
    compileLiteral (chr '^' :: (t ++ [chr '$'])) caseless = some (some {
      pattern := t
      pattern_len := t.length
      exec_function := if caseless then .strcasecmp else .strcmp }) := by
  have hlast : charAt (chr '^' :: (t ++ [chr '$'])) (sizeSub (chr '^' :: (t ++ [chr '$'])).length 1) =
      some (chr '$') := @charAt_last (chr '^' :: t) (chr '$') hlen
  rw [compileLiteral, hlast]
  simp [charAt]

theorem compileLiteral_start {b : UInt8} (hlen : s.length < 2 ^ 64) (hhead : s ++ [b] = chr '^' :: t)
    (hb : b ≠ chr '$') :
    compileLiteral (chr '^' :: t) caseless = some (some {
      pattern := t
      pattern_len := t.length
      exec_function := if caseless then .strncasecmp else .strncmp }) := by
  have hlast : charAt (chr '^' :: t) (sizeSub (chr '^' :: t).length 1) = some b := by
    rw [← hhead]
    exact charAt_last hlen
  rw [compileLiteral, hlast]
  simp [charAt, hb]

theorem compileLiteral_tail (hlen : t.length < 2 ^ 64) (hhead : t.head? ≠ some (chr '^')) :
    compileLiteral (t ++ [chr '$']) caseless = some (some {
      pattern := t
      pattern_len := t.length
      exec_function := if caseless then .strrcasecmp else .strrcmp }) := by
  have hne : chr '$' ≠ chr '^' := by decide
  rw [compileLiteral, charAt_last hlen]
  cases t with
  | nil => simp [charAt, hne]
  | cons c t =>
    have hc : c ≠ chr '^' := fun heq => hhead (by rw [heq]; rfl)
    simp [charAt, hc]

theorem compileLiteral_none {b : UInt8} (hlen : s.length < 2 ^ 64)
    (hhead : (s ++ [b]).head? ≠ some (chr '^')) (hb : b ≠ chr '$') :
    compileLiteral (s ++ [b]) caseless = some none := by
  rw [compileLiteral, charAt_last hlen]
  cases s with
  | nil =>
    have hb' : b ≠ chr '^' := fun heq => hhead (by rw [heq]; rfl)
    simp [charAt, hb, hb']
  | cons c s =>
    have hc : c ≠ chr '^' := fun heq => hhead (by rw [heq]; rfl)
    simp [charAt, hb, hc]

/-! ## The answer of PCRE2 -/

variable {pcre2 : Engine} {pattern : Bytes} {alts : Alternatives}

theorem matches_opt_byte {b : UInt8} {start : Bool} {qs : List Piece}
    (hb : ∀ c, fold true b = fold true c → b = c) :
    Matches true (.opt (.byte b) :: qs) start s ↔
      (∃ rest, s = b :: rest ∧ Matches true qs false rest) ∨ Matches true qs start s := by
  rw [matches_opt, matches_one]
  refine or_congr ⟨?_, ?_⟩ Iff.rfl
  · rintro ⟨c, rest, rfl, hc, h⟩
    obtain rfl := hb c (beq_iff_eq.mp hc)
    exact ⟨rest, rfl, h⟩
  · rintro ⟨rest, rfl, h⟩
    exact ⟨b, rest, rfl, beq_iff_eq.mpr rfl, h⟩

theorem fold_dollar (c : UInt8) : fold true (chr '$') = fold true c → chr '$' = c := fun h =>
  ((fold_eq_iff rfl).mp h.symm).symm

theorem fold_caret (c : UInt8) : fold true (chr '^') = fold true c → chr '^' = c := fun h =>
  ((fold_eq_iff rfl).mp h.symm).symm

/-- The class in `OSPcre2_CouldBeOptimized`. -/
def plainAtom : Atom := .set false <|
  [(chr 'a', chr 'z'), (chr 'A', chr 'Z'), (chr '0', chr '9')] ++
    (lit " !\"#%&',/:;<=>@_\x60~-").map fun b => (b, b)

/-- The pattern of `OSPcre2_CouldBeOptimized`. -/
def plainPieces : List Piece :=
  [.bol, .opt (.byte (chr '^')), .star plainAtom, .opt (.byte (chr '$')), .eol]

theorem parse_osPcre2CouldBeOptimized :
    parse (lit "^\\^?[a-zA-Z0-9 !\"#%&',/:;<=>@_`~-]*\\$?$") = some [plainPieces] := by
  decide +kernel

theorem osPcre2CouldBeOptimized_eq (h : Documented pcre2) (pattern : Bytes) :
    osPcre2CouldBeOptimized pcre2 pattern = (search false [plainPieces] pattern).isSome := by
  obtain ⟨code, hcode, hspec⟩ := h.compile _ _ parse_osPcre2CouldBeOptimized false
  rw [osPcre2CouldBeOptimized, hcode, Option.bind_some, hspec]

theorem osPcre2_eq (h : Documented pcre2) (hne : pattern ≠ [])
    (hno : osPcre2CouldBeOptimized pcre2 pattern = false) (halts : parse pattern = some alts)
    (s : Bytes) : osPcre2 pcre2 pattern s = (search true alts s).isSome := by
  obtain ⟨code, hcode, hspec⟩ := h.compile _ alts halts true
  have hcompile : osPcre2Compile pcre2 pattern true = .ok (.pcre2Match code) := by
    rw [osPcre2Compile, if_neg (by simpa using hne), if_neg (by simp [hno]), compilePcre2, hcode]
  rw [osPcre2, hcompile]
  dsimp only
  rw [osPcre2Execute, Option.isSome_map, hspec]

end OsRegex
