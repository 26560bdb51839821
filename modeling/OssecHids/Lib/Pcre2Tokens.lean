import OssecHids.Lib.Pcre2

/-!
# Tokens of PCRE2 patterns

What the bytes of a pattern are to PCRE2 before they are put together: single bytes and classes,
quantifiers, assertions, groups and alternatives. A pattern that goes on with anything else, such as
an option, a verb or a class within a class, has no tokens.

- `tokens`: the tokens of a pattern;
- `tokens_eq_of_nextToken`: a pattern is read from its front.
-/

open CString List Option

namespace Pcre2

inductive Token
  /-- A single byte that is in a set. -/
  | one (holds : UInt8 → Bool)
  /-- `*` or `*?` -/
  | star
  /-- `+` or `+?` -/
  | plus
  | bol
  | eol
  | notNewline
  | opening
  | closing
  | bar

/-! ## Reading -/

/-- What is behind a backslash. -/
def escapedByte : Bytes → Option (UInt8 × Bytes)
  | [] => none
  | c :: rest =>
    if c = chr 't' then some (9, rest) else if isAlnum c then none else some (c, rest)

/-- A byte in a class. -/
def classByte : Bytes → Option (UInt8 × Bytes)
  | [] => none
  | b :: rest =>
    if b = chr '[' then none
    else if b = chr '\\' then escapedByte rest
    else some (b, rest)

/-- The rest of a class, up to its `]`. -/
def classRanges : ℕ → Bytes → Option (List (UInt8 × UInt8) × Bytes)
  | 0, _ => none
  | fuel + 1, text =>
    if text.head? = some (chr ']') then some ([], text.tail)
    else
      (classByte text).bind fun r =>
        if r.2.head? = some (chr '-') ∧ r.2.tail.head? ≠ some (chr ']') then
          (classByte r.2.tail).bind fun last =>
            if last.1 < r.1 then none
            else (classRanges fuel last.2).map fun e => ((r.1, last.1) :: e.1, e.2)
        else (classRanges fuel r.2).map fun e => ((r.1, r.1) :: e.1, e.2)

/-- What is behind a `[`. -/
def classAtom (text : Bytes) : Option (Atom × Bytes) :=
  let negated := text.head? = some (chr '^')
  let body := if negated then text.tail else text
  if body.head? = some (chr ']') then none
  else (classRanges (body.length + 1) body).map fun r => (.set negated r.1, r.2)

/-- Whether a `(` starts something else than a group. -/
def groupOption : Bytes → Bool
  | [] => false
  | b :: rest =>
    b == chr '?' || (b == chr '*' && rest.head?.any fun c => isAlnum c || c == chr ':')

/-- What is behind a quantifier and its `?`. -/
def behindQuantifier : Bytes → Option Bytes
  | [] => some []
  | b :: rest =>
    if b = chr '?' then some rest else if b = chr '+' then none else some (b :: rest)

/-- The first token of a pattern. -/
def nextToken (caseless : Bool) : Bytes → Option (Token × Bytes)
  | [] => none
  | b :: rest =>
    if b = chr '\\' then
      (escapedByte rest).map fun r => (.one ((Atom.byte r.1).holds caseless), r.2)
    else if b = chr '[' then (classAtom rest).map fun r => (.one (r.1.holds caseless), r.2)
    else if b = chr '(' then
      if (lit "?s:.)").isPrefixOf rest then some (.one fun _ => true, rest.drop 5)
      else if (lit "?!\\n)").isPrefixOf rest then some (.notNewline, rest.drop 5)
      else if groupOption rest then none
      else some (.opening, rest)
    else if b = chr ')' then some (.closing, rest)
    else if b = chr '|' then some (.bar, rest)
    else if b = chr '^' then some (.bol, rest)
    else if b = chr '$' then some (.eol, rest)
    else if b = chr '*' then (behindQuantifier rest).map fun rest => (.star, rest)
    else if b = chr '+' then (behindQuantifier rest).map fun rest => (.plus, rest)
    else if b ∈ metacharacters then none
    else some (.one ((Atom.byte b).holds caseless), rest)

def tokenLoop (caseless : Bool) : ℕ → Bytes → Option (List Token)
  | 0, [] => some []
  | 0, _ :: _ => none
  | _ + 1, [] => some []
  | fuel + 1, b :: rest =>
    (nextToken caseless (b :: rest)).bind fun r => (tokenLoop caseless fuel r.2).map (r.1 :: ·)

/-- The tokens of a pattern, if it has only the known ones. -/
def tokens (caseless : Bool) (text : Bytes) : Option (List Token) :=
  tokenLoop caseless text.length text

/-! ## A token takes some of the pattern -/

variable {caseless : Bool} {b c : UInt8} {text rest : Bytes} {t : Token} {ts : List Token}

theorem length_lt_of_escapedByte {r : UInt8 × Bytes} (h : escapedByte text = some r) :
    r.2.length < text.length := by
  cases text with
  | nil => cases h
  | cons c rest =>
    rw [escapedByte] at h
    split_ifs at h
    all_goals
      cases h
      exact Nat.lt_succ_self _

theorem length_lt_of_classByte {r : UInt8 × Bytes} (h : classByte text = some r) :
    r.2.length < text.length := by
  cases text with
  | nil => cases h
  | cons b rest =>
    rw [classByte] at h
    split_ifs at h
    · exact (length_lt_of_escapedByte h).trans (Nat.lt_succ_self _)
    · cases h
      exact Nat.lt_succ_self _

theorem length_le_of_classRanges {fuel : ℕ} {e : List (UInt8 × UInt8) × Bytes}
    (h : classRanges fuel text = some e) : e.2.length ≤ text.length := by
  induction fuel generalizing text e with
  | zero => cases h
  | succ fuel ih =>
    rw [classRanges] at h
    split_ifs at h with hend
    · cases h
      rw [length_tail]
      exact Nat.sub_le _ _
    · obtain ⟨r, hr, h⟩ := bind_eq_some_iff.mp h
      have hlt := length_lt_of_classByte hr
      split_ifs at h with hrange
      · obtain ⟨last, hlast, h⟩ := bind_eq_some_iff.mp h
        have hlt' := length_lt_of_classByte hlast
        rw [length_tail] at hlt'
        split_ifs at h
        obtain ⟨e, he, rfl⟩ := map_eq_some_iff.mp h
        have hle := ih he
        simp only
        omega
      · obtain ⟨e, he, rfl⟩ := map_eq_some_iff.mp h
        have hle := ih he
        simp only
        omega

theorem length_le_of_classAtom {r : Atom × Bytes} (h : classAtom text = some r) :
    r.2.length ≤ text.length := by
  rw [classAtom] at h
  split_ifs at h with hnegated
  all_goals
    obtain ⟨e, he, rfl⟩ := map_eq_some_iff.mp h
    have hle := length_le_of_classRanges he
    simp only [length_tail] at hle ⊢
    omega

theorem length_le_of_behindQuantifier (h : behindQuantifier text = some rest) :
    rest.length ≤ text.length := by
  cases text with
  | nil =>
    cases h
    exact le_rfl
  | cons b tail =>
    rw [behindQuantifier] at h
    split_ifs at h
    all_goals
      cases h
      simp

theorem length_lt_of_nextToken {r : Token × Bytes} (h : nextToken caseless text = some r) :
    r.2.length < text.length := by
  cases text with
  | nil => cases h
  | cons b rest =>
    rw [nextToken] at h
    rw [length_cons]
    split_ifs at h
    all_goals first
      | cases h
        simp only [length_drop]
        omega
      | obtain ⟨e, he, rfl⟩ := map_eq_some_iff.mp h
    · exact (length_lt_of_escapedByte he).trans (Nat.lt_succ_self _)
    · exact Nat.lt_succ_of_le (length_le_of_classAtom he)
    · exact Nat.lt_succ_of_le (length_le_of_behindQuantifier he)
    · exact Nat.lt_succ_of_le (length_le_of_behindQuantifier he)

/-! ## A pattern is read from its front -/

theorem tokenLoop_eq {n m : ℕ} (hn : text.length ≤ n) (hm : text.length ≤ m) :
    tokenLoop caseless n text = tokenLoop caseless m text := by
  induction n generalizing m text with
  | zero =>
    obtain rfl := length_eq_zero_iff.mp (Nat.le_zero.mp hn)
    cases m <;> rfl
  | succ n ih =>
    cases text with
    | nil => cases m <;> rfl
    | cons b rest =>
      obtain ⟨m, rfl⟩ : ∃ k, m = k + 1 := ⟨m - 1, by rw [length_cons] at hm; omega⟩
      rw [tokenLoop, tokenLoop]
      -- what is behind the token is shorter, so either fuel is enough for it
      refine Option.bind_congr fun r hr => ?_
      have hlt := length_lt_of_nextToken hr
      have heq : tokenLoop caseless n r.2 = tokenLoop caseless m r.2 := ih (by omega) (by omega)
      rw [heq]

theorem tokens_eq_of_nextToken (h : nextToken caseless text = some (t, rest)) :
    tokens caseless text = (tokens caseless rest).map (t :: ·) := by
  have hlt := length_lt_of_nextToken h
  cases text with
  | nil => cases h
  | cons b tail =>
    have heq : tokenLoop caseless tail.length rest = tokens caseless rest :=
      tokenLoop_eq (Nat.lt_succ_iff.mp hlt) le_rfl
    rw [tokens, length_cons, tokenLoop, h, bind_some, heq]

theorem nextToken_byte (hb : b ∉ metacharacters) :
    nextToken caseless (b :: rest) = some (.one ((Atom.byte b).holds caseless), rest) := by
  have hne : ∀ c ∈ metacharacters, b ≠ c := fun c hc h => hb (h ▸ hc)
  rw [nextToken]
  iterate 9 rw [if_neg (hne _ (by decide))]
  rw [if_neg hb]

theorem nextToken_escaped (hc : isAlnum c = false) :
    nextToken caseless (chr '\\' :: c :: rest) =
      some (.one ((Atom.byte c).holds caseless), rest) := by
  have hne : c ≠ chr 't' := by
    rintro rfl
    cases hc
  rw [nextToken, if_pos rfl, escapedByte, if_neg hne, hc]
  rfl

end Pcre2
