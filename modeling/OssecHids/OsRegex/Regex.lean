import Mathlib.Data.List.Basic
import Mathlib.Data.List.Find
import OssecHids.OsRegex.Compile

/-!
# OSRegex

`os_regex_compile.c` and `os_regex_execute.c`: patterns with classes and repetitions of their own. A
plain text with an anchor is compared; anything else is converted for PCRE2.

- `parse_convertRegex`: what PCRE2 reads in a converted text;
- `couldBeOptimized_iff_plain`: which patterns count as texts;
- `regex_sound_iff`: when a text is compared as PCRE2 would match it.
-/

open List Option

open CString Pcre2

namespace OsRegex

/-! ## Conversion -/

/-- `_replacement_map_regex` -/
def replacementMapRegex : List (Bytes × Bytes) := [
  (lit "\\p", lit "[()*+,.:;\\<=>?\\[\\]!\"'#%&$|\x7b\x7d-]"),
  (lit "\\s", lit "[ ]"),
  (lit "\\W", lit "[^A-Za-z0-9@_-]"),
  (lit "\\w", lit "[A-Za-z0-9@_-]"),
  (lit "\\d", lit "[0-9]"),
  (lit "\\D", lit "[^0-9]"),
  (lit "\\S", lit "[^ ]"),
  (lit "\\.", lit "(?s:.)"),
  (lit "$", lit "(?!\\n)$"),
  (lit ".", lit "\\."),
  (lit "[", lit "\\["),
  (lit "]", lit "\\]"),
  (lit "\x7b", lit "\\\x7b"),
  (lit "\x7d", lit "\\\x7d"),
  (lit "+", lit "\\+"),
  (lit "?", lit "\\?"),
  (lit "*", lit "\\*")]

/-- The bytes that may stand behind a backslash without being a class. -/
def escapable : Bytes := lit "t$()\x7b\x7d[]\\|<"

/-- The replacement at an offset and the bytes that it replaces; `none` is the jump to
`conversion_error`. -/
def convertRegexStep (pattern : Bytes) (pattern_offset : ℕ) (b : UInt8) (rest : Bytes) :
    Option (Bytes × ℕ) :=
  let ungreedy := 2 ≤ pattern_offset ∧ pattern[pattern_offset - 2]? = some (chr '\\')
  if ungreedy ∧ b = chr '*' then some (lit "*?", 1)
  else if ungreedy ∧ b = chr '+' then some (lit "+?", 1)
  else
    match replacementMapRegex.find? fun e => e.1.isPrefixOf (b :: rest) with
    | some e => some (e.2, e.1.length)
    | none =>
      match rest with
      | c :: _ =>
        if b = chr '\\' then if c ∈ escapable then some ([b, c], 2) else none
        else some ([b], 1)
      | [] => some ([b], 1)

/-- The loop of `OSRegex_ConvertRegex`. -/
def convertRegexLoop (pattern : Bytes) : ℕ → ℕ → Option Bytes
  | 0, _ => some []
  | fuel + 1, pattern_offset =>
    match pattern.drop pattern_offset with
    | [] => some []
    | b :: rest =>
      (convertRegexStep pattern pattern_offset b rest).bind fun r =>
        (convertRegexLoop pattern fuel (pattern_offset + r.2)).map fun converted =>
          r.1 ++ converted

/-- `OSRegex_ConvertRegex`, of a pattern that is not empty. `substitute` is the call of
`pcre2_substitute` with `OSREGEX_TO_PCRE2_FIX`; it gives a text when it substituted something. -/
def convertRegex (substitute : Bytes → Option Bytes) (pattern : Bytes) : Option Bytes :=
  (convertRegexLoop pattern pattern.length 0).map fun converted =>
    (substitute converted).getD converted

/-! ## Compilation and execution -/

/-- `OSRegex` -/
inductive OSRegex
  | pcre2Match (regex : Bytes → Option ℕ)
  | literal (reg : Literal)

/-- `OSRegex_CouldBeOptimized` -/
def osRegexCouldBeOptimized (pcre2 : Engine) (pattern2check : Bytes) : Bool :=
  osPcre2 pcre2 (lit "^\\^?[A-Za-z0-9 !\"#%&',/:;<=>@_`~-]*\\$?$") pattern2check

/-- What `OSRegex_Compile` leaves to PCRE2. -/
def compileConverted (pcre2 : Engine) (substitute : Bytes → Option Bytes) (pattern : Bytes)
    (caseless : Bool) : Outcome OSRegex :=
  match convertRegex substitute pattern with
  | none => .error OS_REGEX_BADREGEX
  | some converted => compilePcre2 pcre2 converted caseless .pcre2Match

/-- `OSRegex_Compile` -/
def osRegexCompile (pcre2 : Engine) (substitute : Bytes → Option Bytes) (pattern : Bytes)
    (caseless : Bool) : Outcome OSRegex :=
  if pattern.length > OS_PATTERN_MAXSIZE then .error OS_REGEX_MAXSIZE
  else if osRegexCouldBeOptimized pcre2 pattern then
    match compileLiteral pattern caseless with
    | none => .outOfBounds
    | some (some reg) => .ok (.literal reg)
    | some none => compileConverted pcre2 substitute pattern caseless
  else compileConverted pcre2 substitute pattern caseless

/-- `OSRegex_Execute`, the pointer that it returns. -/
def osRegexExecute (str : Bytes) : OSRegex → Option Bytes
  | .pcre2Match regex => (regex str).map fun i => str.drop i
  | .literal reg => reg.execute str

/-! ## What PCRE2 reads -/

variable {pcre2 : Engine} {substitute : Bytes → Option Bytes} {caseless : Bool} {b : UInt8}
  {p s t d : Bytes}

/-- The bytes of a text: none of them has a meaning in a pattern. -/
def plainBytes : Bytes :=
  lit "abcdefghijklmnopqrstuvwxyzABCDEFGHIJKLMNOPQRSTUVWXYZ0123456789" ++
    lit " !\"#%&',/:;<=>@_\x60~-"

/-- The bytes of the patterns that count as texts. -/
def textBytes : Bytes := plainBytes ++ lit "^$\n"

/-- A byte of a text as it is converted. -/
def convertByte (b : UInt8) : Bytes := if b = chr '$' then lit "(?!\\n)$" else [b]

/-- The pieces that a byte of a text stands for. -/
def piecesOf (b : UInt8) : List Piece :=
  if b = chr '^' then [.bol] else if b = chr '$' then [.notNewline, .eol] else [.one (.byte b)]

theorem mem_plainBytes :
    b ∈ plainBytes ↔ isAlnum b = true ∨ b ∈ lit " !\"#%&',/:;<=>@_\x60~-" := by
  rw [plainBytes, mem_append, mem_lit_alnum]

/-- What is no letter, no digit and none of the other bytes of a text is not met in one. -/
theorem notMem_plainBytes {l : Bytes} (hl : ∀ c ∈ l, isAlnum c = false)
    (hother : ∀ c ∈ lit " !\"#%&',/:;<=>@_\x60~-", c ∉ l) (hb : b ∈ plainBytes) : b ∉ l := by
  intro hmem
  rcases mem_plainBytes.mp hb with halnum | hb
  · exact absurd (hl b hmem) (by simp [halnum])
  · exact hother b hb hmem

theorem ne_of_mem_plainBytes (hb : b ∈ plainBytes) : b ≠ chr '^' ∧ b ≠ chr '$' := by
  have hno := notMem_plainBytes (l := lit "^$") (forall_mem_of_all (by decide))
    (forall_mem_of_all (by decide)) hb
  exact ⟨fun h => hno (h ▸ by decide), fun h => hno (h ▸ by decide)⟩

/-- No byte of a text says anything to PCRE2, the anchors aside. -/
theorem textBytes_spec (hb : b ∈ textBytes) : b ≠ 0 ∧ b ≠ chr '|' ∧
    (b ≠ chr '^' → b ≠ chr '$' → b ∉ metacharacters) ∧
    (chr '+' ∉ convertByte b ∧ chr '*' ∉ convertByte b) ∧
    quantifierFollows (convertByte b) = false := by
  rcases mem_append.mp hb with hb | hanchor
  · have hno := notMem_plainBytes (l := 0 :: metacharacters) (forall_mem_of_all (by decide))
      (forall_mem_of_all (by decide)) hb
    have hne : ∀ c ∈ 0 :: metacharacters, b ≠ c := fun c hc h => hno (h ▸ hc)
    have hconvert : convertByte b = [b] := if_neg (ne_of_mem_plainBytes hb).2
    have hquantifier : ∀ c ∈ lit "?*+\x7b", c ∈ metacharacters := forall_mem_of_all (by decide)
    refine ⟨hne _ (by decide), hne _ (by decide), fun _ _ h => hno (mem_cons_of_mem _ h), ?_, ?_⟩
    · rw [hconvert, mem_singleton, mem_singleton]
      exact ⟨(hne _ (by decide)).symm, (hne _ (by decide)).symm⟩
    · rw [hconvert, quantifierFollows, decide_eq_false_iff_not, head?_cons]
      intro hmem
      have hmem : b ∈ lit "?*+\x7b" := by simpa [lit] using hmem
      exact hno (mem_cons_of_mem _ (hquantifier b hmem))
  · clear hb
    revert b
    apply forall_mem_of_all
    decide

theorem mem_textBytes_of_mem_plainBytes (hb : b ∈ plainBytes) : b ∈ textBytes :=
  mem_append_left _ hb

/-- None of the bytes of a text is a backslash, so one byte decides about the replacement. -/
theorem isPrefixOf_of_ne (hb : b ≠ chr '\\') (rest : Bytes) {e : Bytes × Bytes}
    (he : e ∈ replacementMapRegex) : e.1.isPrefixOf (b :: rest) = e.1.isPrefixOf [b] := by
  have hkeys : ∀ e ∈ replacementMapRegex, e.1.length = 1 ∨ e.1.head? = some (chr '\\') := by
    decide
  obtain ⟨old, new⟩ := e
  rcases hkeys _ he with hlen | hhead
  · obtain ⟨c, rfl⟩ := length_eq_one_iff.mp hlen
    rfl
  · obtain ⟨tail, rfl⟩ := head?_eq_some_iff.mp hhead
    have hne : (chr '\\' == b) = false := beq_eq_false_iff_ne.mpr (Ne.symm hb)
    rw [isPrefixOf_cons_cons, isPrefixOf_cons_cons, hne, Bool.false_and, Bool.false_and]

theorem find?_textBytes (hb : b ∈ textBytes) :
    b ≠ chr '\\' ∧ replacementMapRegex.find? (fun e => e.1.isPrefixOf [b]) =
      if b = chr '$' then some (lit "$", lit "(?!\\n)$") else none := by
  rcases mem_append.mp hb with hb | hanchor
  · have hno := notMem_plainBytes (l := lit "\\$.[]\x7b\x7d+?*") (forall_mem_of_all (by decide))
      (forall_mem_of_all (by decide)) hb
    have hkeys : ∀ e ∈ replacementMapRegex, ∃ c ∈ lit "\\$.[]\x7b\x7d+?*", e.1.head? = some c := by
      decide
    refine ⟨fun h => hno (h ▸ by decide), ?_⟩
    rw [if_neg (ne_of_mem_plainBytes hb).2, find?_eq_none]
    intro e he hstarts
    obtain ⟨c, hc, hhead⟩ := hkeys e he
    obtain ⟨tail, htail⟩ := head?_eq_some_iff.mp hhead
    rw [htail, isPrefixOf_cons_cons, Bool.and_eq_true, beq_iff_eq] at hstarts
    exact hno (hstarts.1 ▸ hc)
  · clear hb
    revert b
    apply forall_mem_of_all
    decide

theorem convertRegexStep_textBytes {pattern : Bytes} (hp : ∀ c ∈ pattern, c ∈ textBytes)
    (hb : b ∈ textBytes) (n : ℕ) (rest : Bytes) :
    convertRegexStep pattern n b rest = some (convertByte b, 1) := by
  obtain ⟨hne, hfind⟩ := find?_textBytes hb
  have hungreedy : ¬(2 ≤ n ∧ pattern[n - 2]? = some (chr '\\')) := by
    rintro ⟨-, hget⟩
    exact (find?_textBytes (hp _ (mem_of_getElem? hget))).1 rfl
  have hcongr : replacementMapRegex.find? (fun e => e.1.isPrefixOf (b :: rest)) =
      replacementMapRegex.find? fun e => e.1.isPrefixOf [b] :=
    find?_congr fun e he => isPrefixOf_of_ne hne rest he
  rw [convertRegexStep.eq_def, hcongr, hfind, convertByte]
  rw [if_neg fun h => hungreedy h.1, if_neg fun h => hungreedy h.1]
  split_ifs with hdollar
  · rfl
  · cases rest <;> rfl

theorem convertRegexLoop_textBytes (hp : ∀ c ∈ p, c ∈ textBytes) {fuel n : ℕ}
    (hfuel : p.length ≤ n + fuel) :
    convertRegexLoop p fuel n = some ((p.drop n).flatMap convertByte) := by
  induction fuel generalizing n with
  | zero =>
    have hdrop : p.drop n = [] := drop_eq_nil_of_le hfuel
    rw [convertRegexLoop, hdrop, flatMap_nil]
  | succ fuel ih =>
    rw [convertRegexLoop]
    cases hdrop : p.drop n with
    | nil => rw [flatMap_nil]
    | cons b rest =>
      have hb : b ∈ textBytes := hp b (mem_of_mem_drop (hdrop ▸ mem_cons_self))
      have hrest : p.drop (n + 1) = rest := by rw [← drop_drop, hdrop, drop_one, tail_cons]
      dsimp only
      rw [convertRegexStep_textBytes hp hb, bind_some, ih (by omega), hrest, flatMap_cons, map_some]

/-- A text without `+` and `*` leaves nothing to substitute. -/
def NothingToSubstitute (substitute : Bytes → Option Bytes) : Prop :=
  ∀ text, chr '+' ∉ text → chr '*' ∉ text → substitute text = none

theorem convertRegex_textBytes (hsubstitute : NothingToSubstitute substitute)
    (hp : ∀ c ∈ p, c ∈ textBytes) : convertRegex substitute p = some (p.flatMap convertByte) := by
  have hno : ∀ b ∈ textBytes, chr '+' ∉ convertByte b ∧ chr '*' ∉ convertByte b := fun b hb =>
    (textBytes_spec hb).2.2.2.1
  have hnone : substitute (p.flatMap convertByte) = none := by
    refine hsubstitute _ ?_ ?_ <;> intro hmem <;> obtain ⟨b, hb, hmem⟩ := mem_flatMap.mp hmem
    · exact (hno b (hp b hb)).1 hmem
    · exact (hno b (hp b hb)).2 hmem
  rw [convertRegex, convertRegexLoop_textBytes hp (Nat.le_add_left _ _), drop_zero,
    map_some, hnone, getD_none]

theorem parsePiece_textBytes (hb : b ∈ textBytes) {rest : Bytes}
    (hrest : quantifierFollows rest = false) (hdollar : b ≠ chr '$') :
    ∃ piece, piecesOf b = [piece] ∧ parsePiece (b :: rest) = some (piece, rest) := by
  have hmeta : b ≠ chr '^' → b ≠ chr '$' → b ∉ metacharacters := (textBytes_spec hb).2.2.1
  rw [piecesOf]
  split_ifs with hcaret
  · exact ⟨_, rfl, hcaret ▸ parsePiece_bol hrest⟩
  · exact ⟨_, rfl, parsePiece_byte (hmeta hcaret hdollar) hrest⟩

theorem quantifierFollows_textBytes (hp : ∀ c ∈ p, c ∈ textBytes) :
    quantifierFollows (p.flatMap convertByte) = false := by
  cases p with
  | nil => rfl
  | cons b p =>
    have hhead : (convertByte b ++ p.flatMap convertByte).head? = (convertByte b).head? := by
      rw [convertByte]
      split_ifs <;> rfl
    rw [flatMap_cons, quantifierFollows, hhead]
    exact (textBytes_spec (hp b mem_cons_self)).2.2.2.2

theorem parseLoop_textBytes (hp : ∀ c ∈ p, c ∈ textBytes) {fuel : ℕ}
    (hfuel : (p.flatMap convertByte).length < fuel) :
    parseLoop fuel (p.flatMap convertByte) = some [p.flatMap piecesOf] := by
  induction p generalizing fuel with
  | nil =>
    obtain ⟨fuel, rfl⟩ := Nat.exists_eq_add_one.mpr hfuel
    rfl
  | cons b p ih =>
    obtain ⟨hb, hp⟩ := forall_mem_cons.mp hp
    have hrest := quantifierFollows_textBytes hp
    rw [flatMap_cons, length_append] at hfuel
    rw [flatMap_cons, flatMap_cons]
    by_cases hdollar : b = chr '$'
    · -- two pieces, the assertion in front of the anchor
      have hlen : (convertByte b).length = 7 := by rw [hdollar]; decide
      obtain ⟨fuel, rfl⟩ : ∃ fuel', fuel = fuel' + 2 := ⟨fuel - 2, by omega⟩
      have hloop : parseLoop fuel (p.flatMap convertByte) = _ := ih hp (by omega)
      have hconvert : convertByte b = lit "(?!\\n)" ++ [chr '$'] := by rw [hdollar]; decide
      have hpieces : piecesOf b = [.notNewline, .eol] := by rw [hdollar]; decide
      have hparen : lit "(?!\\n)" = chr '(' :: lit "?!\\n)" := by decide
      have heol : parseLoop (fuel + 1) (chr '$' :: p.flatMap convertByte) =
          some [.eol :: p.flatMap piecesOf] :=
        parseLoop_piece (by decide) (parsePiece_eol hrest) hloop
      have hpiece : parsePiece (lit "(?!\\n)" ++ chr '$' :: p.flatMap convertByte) = _ :=
        parsePiece_notNewline rfl
      rw [hconvert, hpieces, append_assoc, singleton_append]
      rw [hparen, cons_append] at hpiece ⊢
      exact parseLoop_piece (by decide) hpiece heol
    · obtain ⟨fuel, rfl⟩ := Nat.exists_eq_add_one.mpr (lt_of_le_of_lt (Nat.zero_le _) hfuel)
      have hconvert : convertByte b = [b] := if_neg hdollar
      obtain ⟨piece, hpieces, hpiece⟩ := parsePiece_textBytes hb hrest hdollar
      have hbar : b ≠ chr '|' := (textBytes_spec hb).2.1
      rw [hconvert, length_singleton] at hfuel
      rw [hconvert, hpieces]
      exact parseLoop_piece hbar hpiece (ih hp (by omega))

theorem parse_convertRegex (hp : ∀ c ∈ p, c ∈ textBytes) :
    parse (p.flatMap convertByte) = some [p.flatMap piecesOf] :=
  parseLoop_textBytes hp (Nat.lt_succ_self _)

/-! ## Which patterns count as texts -/

/-- The class in `OSRegex_CouldBeOptimized`. -/
def wordAtom : Atom := .set false <|
  [(chr 'A', chr 'Z'), (chr 'a', chr 'z'), (chr '0', chr '9')] ++
    (lit " !\"#%&',/:;<=>@_\x60~-").map fun b => (b, b)

theorem wordAtom_holds (b : UInt8) : wordAtom.holds true b = true ↔ b ∈ plainBytes := by
  rw [wordAtom, holds_append_map (forall_mem_of_all (by decide)), mem_plainBytes, ← holds_alnum true,
    Bool.bne_false, Bool.or_eq_true, decide_eq_true_iff]
  exact Iff.rfl

/-- The pattern of `OSRegex_CouldBeOptimized`. -/
def regexPieces : List Piece :=
  [.bol, .opt (.byte (chr '^')), .star wordAtom, .opt (.byte (chr '$')), .eol]

theorem parse_osRegexCouldBeOptimized :
    parse (lit "^\\^?[A-Za-z0-9 !\"#%&',/:;<=>@_`~-]*\\$?$") = some [regexPieces] := by
  decide +kernel

/-- What may be behind a text. -/
def endings : List Bytes := [[], lit "$", lit "\n", lit "$\n"]

theorem matches_plain_end {start : Bool} :
    Matches true [.star wordAtom, .opt (.byte (chr '$')), .eol] start s ↔
      ∃ t, (∀ b ∈ t, b ∈ plainBytes) ∧ ∃ d ∈ endings, s = t ++ d := by
  simp only [matches_star, matches_opt_byte fold_dollar, matches_eol, matches_nil, and_true,
    wordAtom_holds]
  constructor
  · rintro ⟨t, _, rfl, ht, ⟨_, rfl, rfl | rfl⟩ | rfl | rfl⟩
    · exact ⟨t, ht, lit "$", by decide, rfl⟩
    · exact ⟨t, ht, lit "$\n", by decide, rfl⟩
    · exact ⟨t, ht, [], by decide, rfl⟩
    · exact ⟨t, ht, lit "\n", by decide, rfl⟩
  · rintro ⟨t, ht, d, hd, rfl⟩
    simp only [endings, mem_cons, not_mem_nil, or_false] at hd
    rcases hd with rfl | rfl | rfl | rfl
    · exact ⟨t, [], rfl, ht, .inr (.inl rfl)⟩
    · exact ⟨t, _, rfl, ht, .inl ⟨_, rfl, .inl rfl⟩⟩
    · exact ⟨t, _, rfl, ht, .inr (.inr rfl)⟩
    · exact ⟨t, _, rfl, ht, .inl ⟨_, rfl, .inr rfl⟩⟩

/-- The patterns that count as texts, the empty one among them. -/
theorem couldBeOptimized_iff_plain (h : Documented pcre2) :
    osRegexCouldBeOptimized pcre2 p = true ↔
      ∃ t, (∀ b ∈ t, b ∈ plainBytes) ∧ ∃ d ∈ endings, p = t ++ d ∨ p = chr '^' :: (t ++ d) := by
  have hnot : osPcre2CouldBeOptimized pcre2
      (lit "^\\^?[A-Za-z0-9 !\"#%&',/:;<=>@_`~-]*\\$?$") = false := by
    rw [osPcre2CouldBeOptimized_eq h]
    decide +kernel
  rw [osRegexCouldBeOptimized, osPcre2_eq h (by decide) hnot parse_osRegexCouldBeOptimized,
    regexPieces, search_bol, matches_opt_byte fold_caret]
  simp only [matches_plain_end]
  constructor
  · rintro (⟨_, rfl, t, ht, d, hd, rfl⟩ | ⟨t, ht, d, hd, rfl⟩)
    · exact ⟨t, ht, d, hd, .inr rfl⟩
    · exact ⟨t, ht, d, hd, .inl rfl⟩
  · rintro ⟨t, ht, d, hd, rfl | rfl⟩
    · exact .inr ⟨t, ht, d, hd, rfl⟩
    · exact .inl ⟨_, rfl, t, ht, d, hd, rfl⟩

/-! ## The two verdicts -/

/-- What PCRE2 says to the converted pattern. -/
def convertedVerdict (pcre2 : Engine) (substitute : Bytes → Option Bytes) (caseless : Bool)
    (p s : Bytes) : Bool :=
  match convertRegex substitute p with
  | none => false
  | some converted =>
    match pcre2 converted caseless with
    | none => false
    | some regex => (regex s).isSome

theorem convertedVerdict_eq (h : Documented pcre2) (hsubstitute : NothingToSubstitute substitute)
    (hp : ∀ c ∈ p, c ∈ textBytes) :
    convertedVerdict pcre2 substitute caseless p s =
      (search caseless [p.flatMap piecesOf] s).isSome := by
  obtain ⟨code, hcode, hspec⟩ := h.compile _ _ (parse_convertRegex hp) caseless
  rw [convertedVerdict, convertRegex_textBytes hsubstitute hp]
  dsimp only
  rw [hcode]
  dsimp only
  rw [hspec]

theorem flatMap_piecesOf (ht : ∀ b ∈ t, b ∈ plainBytes ++ lit "\n") :
    t.flatMap piecesOf = bytes t := by
  have hpiece : ∀ b ∈ plainBytes ++ lit "\n", piecesOf b = [.one (.byte b)] := by
    intro b hb
    rcases mem_append.mp hb with hb | hb
    · rw [piecesOf, if_neg (ne_of_mem_plainBytes hb).1, if_neg (ne_of_mem_plainBytes hb).2]
    · rw [mem_singleton.mp hb]
      rfl
  induction t with
  | nil => rfl
  | cons b t ih =>
    obtain ⟨hb, ht⟩ := forall_mem_cons.mp ht
    rw [flatMap_cons, hpiece b hb, ih ht]
    rfl

theorem verdict_caret (ht : ∀ b ∈ t, b ∈ plainBytes ++ lit "\n") :
    (search caseless [(chr '^' :: t).flatMap piecesOf] s).isSome ↔ StartsWith caseless t s := by
  rw [flatMap_cons, flatMap_piecesOf ht]
  exact search_bol_bytes

theorem verdict_full (ht : ∀ b ∈ t, b ∈ plainBytes ++ lit "\n") :
    (search caseless [(chr '^' :: (t ++ lit "$")).flatMap piecesOf] s).isSome ↔
      Same caseless s t := by
  rw [flatMap_cons, flatMap_append, flatMap_piecesOf ht]
  exact search_bol_bytes_end

theorem verdict_dollar (ht : ∀ b ∈ t, b ∈ plainBytes ++ lit "\n") :
    (search caseless [(t ++ lit "$").flatMap piecesOf] s).isSome ↔ EndsWith caseless t s := by
  rw [flatMap_append, flatMap_piecesOf ht]
  exact search_bytes_end

/-- Nothing is behind the very end, so a newline behind the anchor never matches. -/
theorem verdict_line (ht : ∀ b ∈ t, b ∈ plainBytes ++ lit "\n") :
    ¬(search caseless [(chr '^' :: (t ++ lit "$\n")).flatMap piecesOf] s).isSome := by
  have hpieces : (chr '^' :: (t ++ lit "$\n")).flatMap piecesOf =
      .bol :: (bytes t ++ [.notNewline, .eol, .one (.byte (chr '\n'))]) := by
    rw [flatMap_cons, flatMap_append, flatMap_piecesOf ht]
    rfl
  rw [hpieces, search_bol, matches_bytes]
  rintro ⟨x, rest, -, -, hrest⟩
  rw [matches_notNewline, matches_eol, matches_one] at hrest
  obtain ⟨hhead, rfl | rfl, c, tail, hend, -⟩ := hrest
  · exact absurd hend.symm (cons_ne_nil _ _)
  · exact hhead rfl

theorem osRegexCompile_literal {reg : Literal} (hmax : p.length ≤ OS_PATTERN_MAXSIZE)
    (hopt : osRegexCouldBeOptimized pcre2 p = true)
    (hcompile : compileLiteral p caseless = some (some reg)) :
    osRegexCompile pcre2 substitute p caseless = .ok (.literal reg) := by
  rw [osRegexCompile, if_neg (not_lt.mpr hmax), if_pos hopt, hcompile]

theorem osRegexCompile_pcre2 (h : Documented pcre2) (hsubstitute : NothingToSubstitute substitute)
    (hp : ∀ c ∈ p, c ∈ textBytes) (hmax : p.length ≤ OS_PATTERN_MAXSIZE)
    (hopt : osRegexCouldBeOptimized pcre2 p = true)
    (hcompile : compileLiteral p caseless = some none) :
    ∃ reg, osRegexCompile pcre2 substitute p caseless = .ok reg ∧
      (osRegexExecute s reg).isSome = convertedVerdict pcre2 substitute caseless p s := by
  obtain ⟨code, hcode, hspec⟩ := h.compile _ _ (parse_convertRegex hp) caseless
  refine ⟨.pcre2Match code, ?_, ?_⟩
  · rw [osRegexCompile, if_neg (not_lt.mpr hmax), if_pos hopt, hcompile]
    rw [compileConverted, convertRegex_textBytes hsubstitute hp]
    dsimp only
    rw [compilePcre2, hcode]
  · rw [convertedVerdict_eq h hsubstitute hp, osRegexExecute, isSome_map, hspec]

/-- A pattern is compiled without reading outside of it, and what is compiled gives the verdict of
the converted pattern. -/
def Sound (pcre2 : Engine) (substitute : Bytes → Option Bytes) (caseless : Bool) (p s : Bytes) :
    Prop :=
  ∃ reg, osRegexCompile pcre2 substitute p caseless = .ok reg ∧
    (osRegexExecute s reg).isSome = convertedVerdict pcre2 substitute caseless p s

theorem sound_literal_iff (h : Documented pcre2) (hsubstitute : NothingToSubstitute substitute)
    (hp : ∀ c ∈ p, c ∈ textBytes) (hmax : p.length ≤ OS_PATTERN_MAXSIZE)
    (hopt : osRegexCouldBeOptimized pcre2 p = true) {reg : Literal}
    (hcompile : compileLiteral p caseless = some (some reg))
    (hlen : reg.pattern_len = reg.pattern.length) (hreg : ∀ b ∈ reg.pattern, b ∈ textBytes)
    (hs : ∀ b ∈ s, b ≠ 0) :
    Sound pcre2 substitute caseless p s ↔
      (reg.Holds s ↔ (search caseless [p.flatMap piecesOf] s).isSome) := by
  rw [← Literal.isSome_execute hlen (fun b hb => (textBytes_spec (hreg b hb)).1) hs,
    ← convertedVerdict_eq h hsubstitute hp, Sound, osRegexCompile_literal hmax hopt hcompile,
    ← Bool.eq_iff_iff]
  constructor
  · rintro ⟨reg', hreg', heq⟩
    obtain rfl := Outcome.ok.inj hreg'
    exact heq
  · intro heq
    exact ⟨_, rfl, heq⟩

theorem not_sound_nil (hopt : osRegexCouldBeOptimized pcre2 [] = true) :
    ¬Sound pcre2 substitute caseless [] s := by
  rintro ⟨reg, hreg, -⟩
  rw [osRegexCompile, if_neg (by decide), if_pos hopt, compileLiteral_nil] at hreg
  cases hreg

theorem sound_text (h : Documented pcre2) (hsubstitute : NothingToSubstitute substitute)
    (hp : ∀ c ∈ p, c ∈ textBytes) (hmax : p.length ≤ OS_PATTERN_MAXSIZE)
    (hopt : osRegexCouldBeOptimized pcre2 p = true) {pre : Bytes} (hlast : p = pre ++ [b])
    (hb : b ≠ chr '$') (hcaret : chr '^' ∉ p) : Sound pcre2 substitute caseless p s := by
  refine osRegexCompile_pcre2 h hsubstitute hp hmax hopt ?_
  have hlen : pre.length < 2 ^ 64 := by
    rw [hlast, length_append, OS_PATTERN_MAXSIZE] at hmax
    omega
  subst hlast
  exact compileLiteral_none hlen (fun hhead => hcaret (mem_of_mem_head? hhead)) hb

theorem sound_dollar (h : Documented pcre2) (hsubstitute : NothingToSubstitute substitute)
    (ht : ∀ b ∈ t, b ∈ plainBytes) (hp : ∀ c ∈ t ++ lit "$", c ∈ textBytes)
    (hmax : (t ++ lit "$").length ≤ OS_PATTERN_MAXSIZE)
    (hopt : osRegexCouldBeOptimized pcre2 (t ++ lit "$") = true) (hs : ∀ b ∈ s, b ≠ 0) :
    Sound pcre2 substitute caseless (t ++ lit "$") s := by
  have hlen : t.length < 2 ^ 64 := by
    rw [length_append, OS_PATTERN_MAXSIZE] at hmax
    omega
  have hhead : t.head? ≠ some (chr '^') := fun hhead =>
    (ne_of_mem_plainBytes (ht _ (mem_of_mem_head? hhead))).1 rfl
  rw [sound_literal_iff h hsubstitute hp hmax hopt (compileLiteral_tail hlen hhead) rfl
    (fun b hb => hp b (mem_append_left _ hb)) hs,
    verdict_dollar fun b hb => mem_append_left _ (ht b hb)]
  cases caseless <;> rfl

theorem sound_full (h : Documented pcre2) (hsubstitute : NothingToSubstitute substitute)
    (ht : ∀ b ∈ t, b ∈ plainBytes) (hp : ∀ c ∈ chr '^' :: (t ++ lit "$"), c ∈ textBytes)
    (hmax : (chr '^' :: (t ++ lit "$")).length ≤ OS_PATTERN_MAXSIZE)
    (hopt : osRegexCouldBeOptimized pcre2 (chr '^' :: (t ++ lit "$")) = true)
    (hs : ∀ b ∈ s, b ≠ 0) : Sound pcre2 substitute caseless (chr '^' :: (t ++ lit "$")) s := by
  have hlen : (chr '^' :: t).length < 2 ^ 64 := by
    rw [length_cons, length_append, OS_PATTERN_MAXSIZE] at hmax
    rw [length_cons]
    omega
  rw [sound_literal_iff h hsubstitute hp hmax hopt (compileLiteral_full hlen) rfl
    (fun b hb => hp b (mem_cons_of_mem _ (mem_append_left _ hb))) hs,
    verdict_full fun b hb => mem_append_left _ (ht b hb)]
  cases caseless <;> rfl

/-- A pattern that starts with `^` and does not end with `$`: all that is behind the `^` is
compared. -/
theorem sound_caret_iff (h : Documented pcre2) (hsubstitute : NothingToSubstitute substitute)
    (hp : ∀ c ∈ chr '^' :: t, c ∈ textBytes) (hmax : (chr '^' :: t).length ≤ OS_PATTERN_MAXSIZE)
    (hopt : osRegexCouldBeOptimized pcre2 (chr '^' :: t) = true)
    (hlast : t.getLast? ≠ some (chr '$')) (hs : ∀ b ∈ s, b ≠ 0) :
    Sound pcre2 substitute caseless (chr '^' :: t) s ↔
      (StartsWith caseless t s ↔
        (search caseless [(chr '^' :: t).flatMap piecesOf] s).isSome) := by
  obtain ⟨pre, b, hpre⟩ : ∃ pre b, pre ++ [b] = chr '^' :: t :=
    ⟨_, _, dropLast_append_getLast (cons_ne_nil _ _)⟩
  have hlen : pre.length < 2 ^ 64 := by
    rw [← hpre, length_append, OS_PATTERN_MAXSIZE] at hmax
    omega
  have hb : b ≠ chr '$' := by
    rintro rfl
    have hget := congrArg List.getLast? hpre
    rw [getLast?_concat, getLast?_cons] at hget
    cases hend : t.getLast? with
    | none =>
      rw [hend] at hget
      cases hget
    | some c =>
      rw [hend] at hget
      exact hlast (hend.trans hget.symm)
  rw [sound_literal_iff h hsubstitute hp hmax hopt (compileLiteral_start hlen hpre hb) rfl
    (fun b hb => hp b (mem_cons_of_mem _ hb)) hs]
  cases caseless <;> rfl

/-- A plain text is compared as PCRE2 would match it, unless the text is empty and nothing in front
of it can be read, or its `$` stands in front of a newline and is compared as such. -/
theorem regex_sound_iff (h : Documented pcre2) (hsubstitute : NothingToSubstitute substitute)
    (hmax : p.length ≤ OS_PATTERN_MAXSIZE) (hopt : osRegexCouldBeOptimized pcre2 p = true)
    (hs : ∀ b ∈ s, b ≠ 0) :
    Sound pcre2 substitute caseless p s ↔
      p ≠ [] ∧ ¬∃ t, p = chr '^' :: (t ++ lit "$\n") ∧ StartsWith caseless (t ++ lit "$\n") s := by
  obtain ⟨t, ht, d, hd, hcases⟩ := (couldBeOptimized_iff_plain h).mp hopt
  have hends : ∀ b ∈ d, b = chr '$' ∨ b = chr '\n' := by
    simp only [endings, mem_cons, not_mem_nil, or_false] at hd
    rcases hd with rfl | rfl | rfl | rfl <;> exact forall_mem_of_all (by decide)
  have htd : ∀ b ∈ t ++ d, b ∈ textBytes ∧ b ≠ chr '^' := by
    intro b hb
    rcases mem_append.mp hb with hb | hb
    · exact ⟨mem_textBytes_of_mem_plainBytes (ht b hb), (ne_of_mem_plainBytes (ht b hb)).1⟩
    · rcases hends b hb with rfl | rfl
      · exact ⟨mem_append_right _ (by decide), by decide⟩
      · exact ⟨mem_append_right _ (by decide), by decide⟩
  have hdollar : chr '$' ∉ t := fun hmem => (ne_of_mem_plainBytes (ht _ hmem)).2 rfl
  rcases hcases with rfl | rfl
  · -- the pattern does not start with `^`
    have hno : ¬∃ u, t ++ d = chr '^' :: (u ++ lit "$\n") ∧
        StartsWith caseless (u ++ lit "$\n") s := by
      rintro ⟨u, heq, -⟩
      exact (htd (chr '^') (heq ▸ mem_cons_self)).2 rfl
    rw [and_iff_left hno]
    have hp : ∀ c ∈ t ++ d, c ∈ textBytes := fun c hc => (htd c hc).1
    have hcaret : chr '^' ∉ t ++ d := fun hmem => (htd _ hmem).2 rfl
    by_cases hnil : t ++ d = []
    · rw [hnil] at hopt ⊢
      exact iff_of_false (not_sound_nil hopt) (not_not_intro rfl)
    · refine iff_of_true ?_ hnil
      by_cases hlast : (t ++ d).getLast hnil = chr '$'
      · have hd' : d = lit "$" := by
          have hends' : ∀ d ∈ endings, d = [] ∨ d = lit "$" ∨ d.getLast? = some (chr '\n') := by
            decide
          rcases hends' d hd with rfl | rfl | hlast'
          · exact absurd (hlast ▸ getLast_mem hnil) (by rwa [append_nil])
          · rfl
          · have hget := getLast?_eq_some_getLast hnil
            rw [hlast, getLast?_append, hlast', some_or] at hget
            exact absurd hget (by decide)
        subst hd'
        exact sound_dollar h hsubstitute ht hp hmax hopt hs
      · exact sound_text h hsubstitute hp hmax hopt (dropLast_append_getLast hnil).symm hlast
          hcaret
  · have hp : ∀ c ∈ chr '^' :: (t ++ d), c ∈ textBytes :=
      forall_mem_cons.mpr
        ⟨mem_append_right _ (by decide), fun c hc => (htd c hc).1⟩
    rw [and_iff_right (cons_ne_nil _ _)]
    by_cases hd' : d = [] ∨ d = lit "\n"
    · -- all that is behind the `^` is text
      have hnew : ∀ b ∈ t ++ d, b ∈ plainBytes ++ lit "\n" := by
        intro b hb
        rcases mem_append.mp hb with hb | hb
        · exact mem_append_left _ (ht b hb)
        · rcases hd' with rfl | rfl
          · exact absurd hb not_mem_nil
          · exact mem_append_right _ hb
      have hnot : chr '$' ∉ t ++ d := by
        intro hmem
        rcases mem_append.mp (hnew _ hmem) with hplain | hnewline
        · exact (ne_of_mem_plainBytes hplain).2 rfl
        · exact absurd hnewline (by decide)
      refine iff_of_true ?_ ?_
      · rw [sound_caret_iff h hsubstitute hp hmax hopt
          (fun hget => hnot (mem_of_getLast? hget)) hs]
        exact (verdict_caret hnew).symm
      · rintro ⟨u, heq, -⟩
        have hmem : chr '$' ∈ u ++ lit "$\n" := mem_append_right _ (by decide)
        rw [← (List.cons.inj heq).2] at hmem
        exact hnot hmem
    · have hline : ∀ b ∈ t, b ∈ plainBytes ++ lit "\n" := fun b hb =>
        mem_append_left _ (ht b hb)
      have hd'' : d = lit "$" ∨ d = lit "$\n" := by
        simp only [endings, mem_cons, not_mem_nil, or_false] at hd
        rcases hd with hd | hd | hd | hd
        · exact absurd (Or.inl hd) hd'
        · exact Or.inl hd
        · exact absurd (Or.inr hd) hd'
        · exact Or.inr hd
      rcases hd'' with rfl | rfl
      · refine iff_of_true (sound_full h hsubstitute ht hp hmax hopt hs) ?_
        rintro ⟨u, heq, -⟩
        have hget := congrArg List.getLast? (List.cons.inj heq).2
        rw [getLast?_append_of_ne_nil _ (by decide),
          getLast?_append_of_ne_nil _ (by decide)] at hget
        exact absurd hget (by decide)
      · -- the newline behind the `$`
        have hlast : (t ++ lit "$\n").getLast? ≠ some (chr '$') := by
          rw [getLast?_append_of_ne_nil _ (by decide)]
          decide
        rw [sound_caret_iff h hsubstitute hp hmax hopt hlast hs, iff_false_right (verdict_line hline)]
        refine not_congr ⟨fun hstart => ⟨t, rfl, hstart⟩, ?_⟩
        rintro ⟨u, heq, hstart⟩
        rwa [(List.cons.inj heq).2]

/-- A text between both anchors. -/
theorem regex_sound_full : Sound reference (fun _ => none) true (lit "^foo$") (lit "FOO") := by
  refine (regex_sound_iff documented_reference (fun _ _ _ => rfl) (by decide) ?_
    (by decide +kernel)).mpr ⟨by decide, ?_⟩
  · exact (couldBeOptimized_iff_plain documented_reference).mpr
      ⟨lit "foo", by decide +kernel, lit "$", by decide, Or.inr rfl⟩
  · rintro ⟨t, heq, -⟩
    have hget := congrArg List.getLast? (List.cons.inj heq).2
    rw [getLast?_append_of_ne_nil _ (by decide)] at hget
    exact absurd hget (by decide)

/-- The empty pattern counts as a text, and its last byte is read in front of it. -/
theorem not_regex_sound_empty :
    osRegexCouldBeOptimized reference [] = true ∧
      osRegexCompile reference (fun _ => none) [] true = .outOfBounds := by
  have hopt : osRegexCouldBeOptimized reference [] = true :=
    (couldBeOptimized_iff_plain documented_reference).mpr
      ⟨[], by simp, [], by decide, Or.inl rfl⟩
  refine ⟨hopt, ?_⟩
  rw [osRegexCompile, if_neg (by decide), if_pos hopt, compileLiteral_nil]

end OsRegex
