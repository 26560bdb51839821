import Mathlib.Data.List.Basic
import OssecHids.OsRegex.Compile

/-!
# OSMatch

`os_match_compile.c` and `os_match_execute.c`: patterns that are texts, with anchors, and lists of
such patterns. A text with an anchor is compared; anything else is converted for PCRE2.

- `parse_convertMatch`: what PCRE2 reads in a converted pattern;
- `couldBeOptimized_iff`: which patterns count as texts;
- `match_agrees_iff`: when a list of patterns matches as its members do.
-/

open List

open CString Pcre2

namespace OsRegex

/-! ## Conversion -/

/-- The first entry of a replacement map that a pattern starts with. -/
def replacement (map : List (Bytes × Bytes)) (p : Bytes) : Option (Bytes × Bytes) :=
  map.find? fun e => e.1.isPrefixOf p

/-- `_replacement_map_match` -/
def replacementMapMatch : List (Bytes × Bytes) := [
  (lit ".", lit "\\."), (lit "[", lit "\\["), (lit "]", lit "\\]"),
  (lit "\x7b", lit "\\\x7b"), (lit "\x7d", lit "\\\x7d"), (lit "+", lit "\\+"),
  (lit "?", lit "\\?"), (lit "*", lit "\\*"), (lit "(", lit "\\("),
  (lit ")", lit "\\)"), (lit "\\", lit "\\\\")]

/-- The loop of `OSRegex_ConvertMatch`. -/
def convertMatchLoop : ℕ → Bytes → Bytes
  | 0, _ => []
  | _ + 1, [] => []
  | fuel + 1, b :: rest =>
    match replacement replacementMapMatch (b :: rest) with
    | some e => e.2 ++ convertMatchLoop fuel ((b :: rest).drop e.1.length)
    | none => b :: convertMatchLoop fuel rest

/-- `OSRegex_ConvertMatch` -/
def convertMatch (pattern : Bytes) : Bytes := convertMatchLoop pattern.length pattern

/-! ## Compilation and execution -/

/-- `OSMatch` -/
inductive OSMatch
  | executeTrue
  | pcre2Match (regex : Bytes → Option ℕ)
  | literal (reg : Literal)

/-- `OSMatch_CouldBeOptimized` -/
def osMatchCouldBeOptimized (pcre2 : Engine) (pattern2check : Bytes) : Bool :=
  osPcre2 pcre2 (lit "^\\^?[^$|^]+\\$?$") pattern2check

/-- `OSMatch_Compile` -/
def osMatchCompile (pcre2 : Engine) (pattern : Bytes) (caseless : Bool) : Outcome OSMatch :=
  let pcre2Match := compilePcre2 pcre2 (convertMatch pattern) caseless .pcre2Match
  if pattern.length > OS_PATTERN_MAXSIZE then .error OS_REGEX_MAXSIZE
  else if pattern.length = 0 then .ok .executeTrue
  else if osMatchCouldBeOptimized pcre2 pattern then
    match compileLiteral pattern caseless with
    | none => .outOfBounds
    | some (some reg) => .ok (.literal reg)
    | some none => pcre2Match
  else pcre2Match

/-- `OSMatch_Execute_strcmp` and the functions like it. -/
def Literal.executeMatch (reg : Literal) (subject : Bytes) (len : ℕ) : Bool :=
  match reg.exec_function with
  | .strcmp => strcmpEq false reg.pattern subject
  | .strncmp => strncmpCaseEq false reg.pattern_len reg.pattern subject
  | .strrcmp =>
    decide (len ≥ reg.pattern_len) &&
      strcmpEq false reg.pattern (subject.drop (len - reg.pattern_len))
  | .strcasecmp => len == reg.pattern_len && strcmpEq true reg.pattern subject
  | .strncasecmp => strncmpCaseEq true reg.pattern_len reg.pattern subject
  | .strrcasecmp =>
    decide (len ≥ reg.pattern_len) &&
      strcmpEq true reg.pattern (subject.drop (len - reg.pattern_len))

/-- `OSMatch_Execute` -/
def osMatchExecute (str : Bytes) (str_len : ℕ) : OSMatch → Bool
  | .executeTrue => true
  | .pcre2Match regex => (regex (str.take str_len)).isSome
  | .literal reg => reg.executeMatch str str_len

/-! ## What PCRE2 reads -/

variable {pcre2 : Engine} {caseless : Bool} {b : UInt8} {p s t : Bytes} {ps : List Bytes}

/-- The bytes that are converted. -/
def escaped : Bytes := lit ".[]\x7b\x7d+?*()\\"

/-- A byte as it is converted. -/
def escape (b : UInt8) : Bytes := if b ∈ escaped then [chr '\\', b] else [b]

/-- The piece that a byte stands for. -/
def pieceOf (b : UInt8) : Piece :=
  if b = chr '^' then .bol else if b = chr '$' then .eol else .one (.byte b)

/-- The pieces between the bars. -/
def pieces : Bytes → Alternatives
  | [] => [[]]
  | b :: rest =>
    if b = chr '|' then [] :: pieces rest
    else
      match pieces rest with
      | [] => [[pieceOf b]]
      | ps :: alts => (pieceOf b :: ps) :: alts

theorem replacement_match (b : UInt8) (rest : Bytes) :
    replacement replacementMapMatch (b :: rest) =
      if b ∈ escaped then some ([b], [chr '\\', b]) else none := by
  have hmap : replacementMapMatch = escaped.map fun c => ([c], [chr '\\', c]) := rfl
  rw [hmap]
  induction escaped with
  | nil => rfl
  | cons c l ih =>
    have hfind : replacement (([c], [chr '\\', c]) :: l.map fun c => ([c], [chr '\\', c]))
        (b :: rest) = if b = c then some ([c], [chr '\\', c])
          else replacement (l.map fun c => ([c], [chr '\\', c])) (b :: rest) := by
      rw [replacement, find?_cons, isPrefixOf_cons_cons]
      by_cases hb : b = c
      · simp [hb]
      · have hbeq : (c == b) = false := beq_eq_false_iff_ne.mpr (Ne.symm hb)
        rw [hbeq, Bool.false_and, if_neg hb, replacement]
    rw [map_cons, hfind, ih]
    by_cases hb : b = c
    · simp [hb]
    · simp [hb]

theorem convertMatch_cons (b : UInt8) (p : Bytes) :
    convertMatch (b :: p) = escape b ++ convertMatch p := by
  rw [convertMatch, length_cons, convertMatchLoop, replacement_match, escape, convertMatch]
  split_ifs <;> rfl

/-- An escaped byte says nothing to PCRE2, and the bytes that do are escaped. -/
theorem escape_spec (b : UInt8) : quantifierFollows (escape b) = false ∧
    ((escape b).head? = some (chr '|') → b = chr '|') ∧
    if b ∈ escaped then isAlnum b = false ∧ b ≠ chr '^' ∧ b ≠ chr '$'
    else b ≠ chr '|' → b ≠ chr '^' → b ≠ chr '$' → b ∉ metacharacters := by
  have hescaped : ∀ b ∈ escaped, isAlnum b = false ∧ b ≠ chr '^' ∧ b ≠ chr '$' :=
    forall_mem_of_all (by decide)
  have hmeta : ∀ b ∈ metacharacters,
      b ∈ escaped ∨ b = chr '|' ∨ b = chr '^' ∨ b = chr '$' :=
    forall_mem_of_all (by decide)
  have hquantifier : ∀ b ∈ lit "?*+\x7b", b ∈ escaped := forall_mem_of_all (by decide)
  rw [escape]
  split_ifs with hb
  · have hbackslash : chr '\\' ≠ chr '|' := by decide
    exact ⟨rfl, fun h => absurd (Option.some.inj h) hbackslash, hescaped b hb⟩
  · refine ⟨?_, fun h => Option.some.inj h, fun hbar hcaret hdollar hmem => ?_⟩
    · rw [quantifierFollows, decide_eq_false_iff_not, head?_cons]
      intro hmem
      have hmem : b ∈ lit "?*+\x7b" := by simpa [lit] using hmem
      exact hb (hquantifier b hmem)
    · rcases hmeta b hmem with h | h | h | h
      · exact hb h
      · exact hbar h
      · exact hcaret h
      · exact hdollar h

theorem head?_escape_append (b : UInt8) (p : Bytes) : (escape b ++ p).head? = (escape b).head? := by
  rw [escape]
  split_ifs <;> rfl

theorem quantifierFollows_convertMatch (p : Bytes) : quantifierFollows (convertMatch p) = false := by
  cases p with
  | nil => rfl
  | cons b p =>
    rw [convertMatch_cons, quantifierFollows, head?_escape_append]
    exact (escape_spec b).1

theorem parsePiece_escape_append (hbar : b ≠ chr '|') (p : Bytes) :
    parsePiece (escape b ++ convertMatch p) = some (pieceOf b, convertMatch p) := by
  have h := quantifierFollows_convertMatch p
  have hspec := (escape_spec b).2.2
  rw [escape, pieceOf]
  by_cases hescaped : b ∈ escaped
  · rw [if_pos hescaped] at hspec
    obtain ⟨halnum, hcaret, hdollar⟩ := hspec
    rw [if_pos hescaped, if_neg hcaret, if_neg hdollar]
    exact parsePiece_escape halnum h
  · rw [if_neg hescaped] at hspec ⊢
    split_ifs with hcaret hdollar
    · rw [hcaret]
      exact parsePiece_bol h
    · rw [hdollar]
      exact parsePiece_eol h
    · exact parsePiece_byte (hspec hbar hcaret hdollar) h

theorem pieces_ne_nil (p : Bytes) : pieces p ≠ [] := by
  cases p with
  | nil => exact cons_ne_nil _ _
  | cons b p =>
    rw [pieces]
    split_ifs
    · exact cons_ne_nil _ _
    · cases pieces p <;> exact cons_ne_nil _ _

theorem parseLoop_convertMatch {fuel : ℕ} (h : p.length < fuel) :
    parseLoop fuel (convertMatch p) = some (pieces p) := by
  induction p generalizing fuel with
  | nil =>
    obtain ⟨fuel, rfl⟩ := Nat.exists_eq_add_one.mpr h
    rfl
  | cons b p ih =>
    obtain ⟨fuel, rfl⟩ := Nat.exists_eq_add_one.mpr (lt_of_le_of_lt (Nat.zero_le _) h)
    have hrest := ih (Nat.lt_of_succ_lt_succ h)
    rw [convertMatch_cons, pieces]
    by_cases hbar : b = chr '|'
    · have hescape : escape b = [chr '|'] := by rw [hbar]; decide
      rw [if_pos hbar, hescape]
      exact parseLoop_bar hrest
    · obtain ⟨alt, alts, halts⟩ := exists_cons_of_ne_nil (pieces_ne_nil p)
      rw [halts] at hrest ⊢
      have hpiece := parsePiece_escape_append hbar p
      rw [if_neg hbar]
      obtain ⟨c, rest, hc⟩ : ∃ c rest, escape b ++ convertMatch p = c :: rest := by
        rw [escape]
        split_ifs <;> exact ⟨_, _, rfl⟩
      have hcbar : c ≠ chr '|' := by
        have hhead : (escape b).head? = some c := by
          rw [← head?_escape_append b (convertMatch p), hc]
          rfl
        rintro rfl
        exact hbar ((escape_spec b).2.1 hhead)
      rw [hc] at hpiece ⊢
      exact parseLoop_piece hcbar hpiece hrest

theorem length_le_convertMatch (p : Bytes) : p.length ≤ (convertMatch p).length := by
  induction p with
  | nil => exact Nat.zero_le _
  | cons b p ih =>
    rw [convertMatch_cons, length_append, length_cons, escape]
    split_ifs <;> simp <;> omega

theorem parse_convertMatch (p : Bytes) : parse (convertMatch p) = some (pieces p) :=
  parseLoop_convertMatch (Nat.lt_succ_of_le (length_le_convertMatch p))

/-! ## Which patterns count as texts -/

/-- The bytes that a text of `OSMatch_CouldBeOptimized` is free of. -/
def Text (t : Bytes) : Prop := t ≠ [] ∧ ∀ b ∈ t, b ∉ lit "$|^"

/-- The class in `OSMatch_CouldBeOptimized`. -/
def textAtom : Atom := .set true [(chr '$', chr '$'), (chr '|', chr '|'), (chr '^', chr '^')]

theorem textAtom_holds (b : UInt8) : textAtom.holds true b = true ↔ b ∉ lit "$|^" := by
  have hatom : textAtom = .set true ([] ++ (lit "$|^").map fun c => (c, c)) := rfl
  have hnil : (Atom.set false []).holds true b = false := rfl
  rw [hatom, holds_append_map (forall_mem_of_all (by decide)), hnil, Bool.false_or, Bool.bne_true,
    Bool.not_eq_true', decide_eq_false_iff_not]

/-- The pattern of `OSMatch_CouldBeOptimized`. -/
def literalPieces : List Piece :=
  [.bol, .opt (.byte (chr '^')), .plus textAtom, .opt (.byte (chr '$')), .eol]

theorem parse_couldBeOptimized :
    parse (lit "^\\^?[^$|^]+\\$?$") = some [literalPieces] := by
  decide +kernel

/-- Some bytes of a text, and the end that `\$?$` leaves. -/
theorem matches_text_end {start : Bool} :
    Matches true [.plus textAtom, .opt (.byte (chr '$')), .eol] start s ↔
      ∃ t, Text t ∧ (s = t ∨ s = t ++ lit "$" ∨ s = t ++ lit "$\n") := by
  rw [matches_plus, matches_one]
  simp only [matches_star, matches_opt_byte fold_dollar, matches_eol, matches_nil, and_true,
    textAtom_holds]
  constructor
  · rintro ⟨c, _, rfl, hc, x, _, rfl, hx, hend⟩
    have hmem : ∀ b ∈ c :: x, b ∉ lit "$|^" := forall_mem_cons.mpr ⟨hc, hx⟩
    rcases hend with ⟨_, rfl, rfl | rfl⟩ | rfl | rfl
    · exact ⟨c :: x, ⟨cons_ne_nil _ _, hmem⟩, .inr (.inl rfl)⟩
    · exact ⟨c :: x, ⟨cons_ne_nil _ _, hmem⟩, .inr (.inr rfl)⟩
    · refine ⟨c :: x, ⟨cons_ne_nil _ _, hmem⟩, .inl ?_⟩
      rw [append_nil]
    · -- a newline at the end is a byte of the text as well
      refine ⟨c :: (x ++ [chr '\n']), ⟨cons_ne_nil _ _, ?_⟩, .inl rfl⟩
      intro b hb
      rw [← cons_append] at hb
      rcases mem_append.mp hb with hb | hb
      · exact hmem b hb
      · rw [mem_singleton.mp hb]
        decide
  · rintro ⟨t, ⟨hne, hmem⟩, hs⟩
    obtain ⟨c, x, rfl⟩ := exists_cons_of_ne_nil hne
    obtain ⟨hc, hx⟩ := forall_mem_cons.mp hmem
    rcases hs with rfl | rfl | rfl
    · exact ⟨c, x, rfl, hc, x, [], (append_nil x).symm, hx, .inr (.inl rfl)⟩
    · exact ⟨c, x ++ lit "$", rfl, hc, x, _, rfl, hx, .inl ⟨_, rfl, .inl rfl⟩⟩
    · exact ⟨c, x ++ lit "$\n", rfl, hc, x, _, rfl, hx, .inl ⟨_, rfl, .inr rfl⟩⟩

/-- The patterns that count as texts: the text may have an anchor on either side, and a newline
behind the last anchor goes unnoticed. -/
theorem couldBeOptimized_iff (h : Documented pcre2) :
    osMatchCouldBeOptimized pcre2 p = true ↔
      ∃ t, Text t ∧ ((p = t ∨ p = t ++ lit "$" ∨ p = t ++ lit "$\n") ∨
        (p = chr '^' :: t ∨ p = chr '^' :: (t ++ lit "$") ∨ p = chr '^' :: (t ++ lit "$\n"))) := by
  have hnot : osPcre2CouldBeOptimized pcre2 (lit "^\\^?[^$|^]+\\$?$") = false := by
    rw [osPcre2CouldBeOptimized_eq h]
    decide +kernel
  rw [osMatchCouldBeOptimized, osPcre2_eq h (by decide) hnot parse_couldBeOptimized, literalPieces,
    search_bol, matches_opt_byte fold_caret]
  simp only [matches_text_end]
  constructor
  · rintro (⟨rest, rfl, t, ht, hrest⟩ | ⟨t, ht, hp⟩)
    · refine ⟨t, ht, .inr ?_⟩
      simpa only [List.cons.injEq, true_and] using hrest
    · exact ⟨t, ht, .inl hp⟩
  · rintro ⟨t, ht, hp | hp | hp | hp⟩
    · exact .inr ⟨t, ht, hp⟩
    · exact .inl ⟨_, hp, t, ht, .inl rfl⟩
    · exact .inl ⟨_, hp, t, ht, .inr (.inl rfl)⟩
    · exact .inl ⟨_, hp, t, ht, .inr (.inr rfl)⟩

theorem Text.caret_notMem (ht : Text t) : chr '^' ∉ t := fun hmem => ht.2 _ hmem (by decide)

theorem Text.dollar_notMem (ht : Text t) : chr '$' ∉ t := fun hmem => ht.2 _ hmem (by decide)

theorem Text.head?_append_ne (ht : Text t) (x : Bytes) : (t ++ x).head? ≠ some (chr '^') := by
  obtain ⟨c, t, rfl⟩ := exists_cons_of_ne_nil ht.1
  intro heq
  exact ht.caret_notMem (Option.some.inj heq ▸ mem_cons_self)

theorem map_pieceOf (ht : Text t) : t.map pieceOf = bytes t := by
  refine map_congr_left fun b hb => ?_
  have hcaret : b ≠ chr '^' := ne_of_mem_of_not_mem hb ht.caret_notMem
  have hdollar : b ≠ chr '$' := ne_of_mem_of_not_mem hb ht.dollar_notMem
  rw [pieceOf, if_neg hcaret, if_neg hdollar]

/-! ## One pattern alone -/

/-- A pattern matches when it is compiled alone. -/
def MatchesAlone (pcre2 : Engine) (caseless : Bool) (p s : Bytes) : Prop :=
  ∃ reg, osMatchCompile pcre2 p caseless = .ok reg ∧ osMatchExecute s s.length reg = true

/-- A pattern matches as PCRE2 documents it. -/
def MatchesPattern (caseless : Bool) (p s : Bytes) : Prop :=
  (search caseless [p.map pieceOf] s).isSome

theorem Literal.executeMatch_iff {reg : Literal} (hlen : reg.pattern_len = reg.pattern.length)
    (hreg : ∀ b ∈ reg.pattern, b ≠ 0) (hs : ∀ b ∈ s, b ≠ 0) :
    reg.executeMatch s s.length = true ↔ reg.Holds s := by
  obtain ⟨pattern, pattern_len, exec_function⟩ := reg
  obtain rfl : pattern_len = pattern.length := hlen
  have hcase : s.length = pattern.length ∧ Same true s pattern ↔ Same true s pattern :=
    and_iff_right_of_imp Same.length_eq
  cases exec_function <;>
    simp only [Literal.executeMatch, Literal.Holds, Bool.and_eq_true, decide_eq_true_eq, beq_iff_eq,
      ← strncmpCaseEq_iff hreg, ← strrcmp_iff hs hreg, strcmpEq_iff hreg hs, hcase]

theorem matchesAlone_of_literal {reg : Literal} (hmax : p.length ≤ OS_PATTERN_MAXSIZE) (hne : p ≠ [])
    (hopt : osMatchCouldBeOptimized pcre2 p = true)
    (hcompile : compileLiteral p caseless = some (some reg))
    (hlen : reg.pattern_len = reg.pattern.length) (hreg : ∀ b ∈ reg.pattern, b ≠ 0)
    (hs : ∀ b ∈ s, b ≠ 0) : MatchesAlone pcre2 caseless p s ↔ reg.Holds s := by
  have hok : osMatchCompile pcre2 p caseless = .ok (.literal reg) := by
    rw [osMatchCompile, if_neg (not_lt.mpr hmax), if_neg (by simpa using hne), if_pos hopt,
      hcompile]
  rw [MatchesAlone, hok, ← Literal.executeMatch_iff hlen hreg hs]
  simp [osMatchExecute]

theorem search_pieces (hbar : chr '|' ∉ p) : pieces p = [p.map pieceOf] := by
  induction p with
  | nil => rfl
  | cons b p ih =>
    obtain ⟨hb, hbar⟩ := not_or.mp (mem_cons.not.mp hbar)
    rw [pieces, if_neg (Ne.symm hb), ih hbar]
    rfl

/-- A pattern that is given to PCRE2. -/
theorem osMatchCompile_pcre2 (h : Documented pcre2) (hmax : p.length ≤ OS_PATTERN_MAXSIZE)
    (hne : p ≠ [])
    (hno : osMatchCouldBeOptimized pcre2 p = false ∨ compileLiteral p caseless = some none) :
    ∃ code, osMatchCompile pcre2 p caseless = .ok (.pcre2Match code) ∧
      ∀ s, code s = search caseless (pieces p) s := by
  obtain ⟨code, hcode, hspec⟩ := h.compile _ _ (parse_convertMatch p) caseless
  refine ⟨code, ?_, hspec⟩
  have hpcre2 : compilePcre2 pcre2 (convertMatch p) caseless OSMatch.pcre2Match =
      .ok (.pcre2Match code) := by
    rw [compilePcre2, hcode]
  rw [osMatchCompile, if_neg (not_lt.mpr hmax), if_neg (by simpa using hne)]
  rcases hno with hno | hno
  · rw [hno, if_neg Bool.false_ne_true]
    exact hpcre2
  · rw [hno]
    split_ifs <;> exact hpcre2

theorem matchesAlone_of_pcre2 (h : Documented pcre2) (hmax : p.length ≤ OS_PATTERN_MAXSIZE)
    (hne : p ≠ []) (hbar : chr '|' ∉ p)
    (hno : osMatchCouldBeOptimized pcre2 p = false ∨ compileLiteral p caseless = some none) :
    MatchesAlone pcre2 caseless p s ↔ MatchesPattern caseless p s := by
  obtain ⟨code, hcode, hspec⟩ := osMatchCompile_pcre2 h hmax hne hno
  rw [MatchesAlone, hcode, MatchesPattern, ← search_pieces hbar, ← hspec]
  simp [osMatchExecute]

/-! ## Where the two differ -/

/-- The subject matches only as PCRE2 documents the pattern: its `$` stands in front of the last
newline, or the newline of the pattern is the last one. -/
def OnlyPattern (caseless : Bool) (p s : Bytes) : Prop :=
  ∃ t x, Text t ∧ s = x ++ lit "\n" ∧
    (((p = chr '^' :: (t ++ lit "$") ∨ p = chr '^' :: (t ++ lit "$\n")) ∧ Same caseless x t) ∨
      (p = t ++ lit "$" ∧ EndsWith caseless t x ∧ ¬EndsWith caseless t s))

/-- The subject matches only the text that the pattern is taken for: its `$` is compared. -/
def OnlyLiteral (caseless : Bool) (p s : Bytes) : Prop :=
  ∃ t, Text t ∧ p = chr '^' :: (t ++ lit "$\n") ∧ StartsWith caseless (t ++ lit "$\n") s

variable {d d' t' : Bytes}

theorem Text.append_inj (ht : Text t) (ht' : Text t') (hd : d = [] ∨ d.head? = some (chr '$'))
    (hd' : d' = [] ∨ d'.head? = some (chr '$')) (heq : t ++ d = t' ++ d') : t = t' ∧ d = d' := by
  have htake : ∀ {t d : Bytes}, Text t → (d = [] ∨ d.head? = some (chr '$')) →
      (t ++ d).takeWhile (· != chr '$') = t := by
    intro t d ht hd
    have hne : ∀ b ∈ t, (b != chr '$') = true := fun b hb =>
      bne_iff_ne.mpr (ne_of_mem_of_not_mem hb ht.dollar_notMem)
    rw [takeWhile_append_of_pos hne]
    rcases hd with rfl | hd
    · simp
    · obtain ⟨rest, rfl⟩ := head?_eq_some_iff.mp hd
      simp
  have htt' : t = t' := by rw [← htake ht hd, heq, htake ht' hd']
  exact ⟨htt', append_cancel_left (htt' ▸ heq)⟩

theorem onlyPattern_append (ht : Text t) (hd : d = [] ∨ d.head? = some (chr '$')) :
    OnlyPattern caseless (t ++ d) s ↔
      d = lit "$" ∧ ∃ x, s = x ++ lit "\n" ∧ EndsWith caseless t x ∧ ¬EndsWith caseless t s := by
  constructor
  · rintro ⟨t', x, ht', rfl, ⟨heq | heq, -⟩ | ⟨heq, hx⟩⟩
    · exact absurd (congrArg List.head? heq) (ht.head?_append_ne d)
    · exact absurd (congrArg List.head? heq) (ht.head?_append_ne d)
    · obtain ⟨rfl, rfl⟩ := ht.append_inj ht' hd (.inr rfl) heq
      exact ⟨rfl, x, rfl, hx⟩
  · rintro ⟨rfl, x, rfl, hx⟩
    exact ⟨t, x, ht, rfl, .inr ⟨rfl, hx⟩⟩

theorem onlyPattern_caret (ht : Text t) (hd : d = [] ∨ d.head? = some (chr '$')) :
    OnlyPattern caseless (chr '^' :: (t ++ d)) s ↔
      (d = lit "$" ∨ d = lit "$\n") ∧ ∃ x, s = x ++ lit "\n" ∧ Same caseless x t := by
  constructor
  · rintro ⟨t', x, ht', rfl, ⟨heq | heq, hx⟩ | ⟨heq, -⟩⟩
    · obtain ⟨rfl, rfl⟩ := ht.append_inj ht' hd (.inr rfl) (List.cons.inj heq).2
      exact ⟨.inl rfl, x, rfl, hx⟩
    · obtain ⟨rfl, rfl⟩ := ht.append_inj ht' hd (.inr rfl) (List.cons.inj heq).2
      exact ⟨.inr rfl, x, rfl, hx⟩
    · exact absurd (congrArg List.head? heq.symm) (ht'.head?_append_ne _)
  · rintro ⟨rfl | rfl, x, rfl, hx⟩
    · exact ⟨t, x, ht, rfl, .inl ⟨.inl rfl, hx⟩⟩
    · exact ⟨t, x, ht, rfl, .inl ⟨.inr rfl, hx⟩⟩

theorem not_onlyLiteral_append (ht : Text t) : ¬OnlyLiteral caseless (t ++ d) s := by
  rintro ⟨t', -, heq, -⟩
  exact ht.head?_append_ne d (congrArg List.head? heq)

theorem onlyLiteral_caret (ht : Text t) (hd : d = [] ∨ d.head? = some (chr '$')) :
    OnlyLiteral caseless (chr '^' :: (t ++ d)) s ↔
      d = lit "$\n" ∧ StartsWith caseless (t ++ lit "$\n") s := by
  constructor
  · rintro ⟨t', ht', heq, hs⟩
    obtain ⟨rfl, rfl⟩ := ht.append_inj ht' hd (.inr rfl) (List.cons.inj heq).2
    exact ⟨rfl, hs⟩
  · rintro ⟨rfl, hs⟩
    exact ⟨t, ht, rfl, hs⟩

/-! ## What a pattern says -/

theorem matchesPattern_caret (ht : Text t) :
    MatchesPattern caseless (chr '^' :: t) s ↔ StartsWith caseless t s := by
  rw [MatchesPattern, map_cons, map_pieceOf ht]
  exact search_bol_bytes

theorem matchesPattern_full (ht : Text t) :
    MatchesPattern caseless (chr '^' :: (t ++ lit "$")) s ↔
      Same caseless s t ∨ ∃ x, s = x ++ lit "\n" ∧ Same caseless x t := by
  rw [MatchesPattern, map_cons, map_append, map_pieceOf ht]
  exact search_bol_bytes_eol

theorem matchesPattern_dollar (ht : Text t) :
    MatchesPattern caseless (t ++ lit "$") s ↔
      EndsWith caseless t s ∨ ∃ x, s = x ++ lit "\n" ∧ EndsWith caseless t x := by
  rw [MatchesPattern, map_append, map_pieceOf ht]
  exact search_bytes_eol

theorem matchesPattern_line (ht : Text t) :
    MatchesPattern caseless (chr '^' :: (t ++ lit "$\n")) s ↔
      ∃ x, s = x ++ lit "\n" ∧ Same caseless x t := by
  have hpieces : (chr '^' :: (t ++ lit "$\n")).map pieceOf =
      .bol :: (bytes t ++ [.eol, .one (.byte (chr '\n'))]) := by
    rw [map_cons, map_append, map_pieceOf ht]
    rfl
  rw [MatchesPattern, hpieces, search_bol, matches_bytes]
  simp only [matches_eol, matches_one, matches_nil, and_true]
  constructor
  · rintro ⟨x, _, rfl, hx, hend, c, rest, rfl, -⟩
    rcases hend with hend | hend
    · exact absurd hend (cons_ne_nil _ _)
    · exact ⟨x, by rw [hend]; rfl, hx⟩
  · rintro ⟨x, rfl, hx⟩
    exact ⟨x, _, rfl, hx, .inr rfl, chr '\n', [], rfl, beq_iff_eq.mpr rfl⟩

/-! ## What a pattern is taken for -/

theorem lt_size_of_le (hmax : p.length ≤ OS_PATTERN_MAXSIZE) : p.length < 2 ^ 64 :=
  lt_of_le_of_lt hmax (by decide)

theorem matchesAlone_full (h : Documented pcre2) (ht : Text t)
    (hmax : (chr '^' :: (t ++ lit "$")).length ≤ OS_PATTERN_MAXSIZE)
    (hp : ∀ b ∈ chr '^' :: (t ++ lit "$"), b ≠ 0) (hs : ∀ b ∈ s, b ≠ 0) :
    MatchesAlone pcre2 caseless (chr '^' :: (t ++ lit "$")) s ↔ Same caseless s t := by
  have hopt := (couldBeOptimized_iff h).mpr ⟨t, ht, .inr (.inr (.inl rfl))⟩
  have hlen : (chr '^' :: t).length < 2 ^ 64 := by
    have := lt_size_of_le hmax
    simp only [length_cons, length_append] at this ⊢
    omega
  rw [matchesAlone_of_literal hmax (cons_ne_nil _ _) hopt (compileLiteral_full hlen) rfl
    (fun b hb => hp b (mem_cons_of_mem _ (mem_append_left _ hb))) hs]
  cases caseless <;> rfl

theorem matchesAlone_dollar (h : Documented pcre2) (ht : Text t)
    (hmax : (t ++ lit "$").length ≤ OS_PATTERN_MAXSIZE)
    (hp : ∀ b ∈ t ++ lit "$", b ≠ 0) (hs : ∀ b ∈ s, b ≠ 0) :
    MatchesAlone pcre2 caseless (t ++ lit "$") s ↔ EndsWith caseless t s := by
  have hopt := (couldBeOptimized_iff h).mpr ⟨t, ht, .inl (.inr (.inl rfl))⟩
  have hlen : t.length < 2 ^ 64 := by
    have := lt_size_of_le hmax
    simp only [length_append] at this
    omega
  have hhead : t.head? ≠ some (chr '^') := by
    have hhead := ht.head?_append_ne []
    rwa [append_nil] at hhead
  rw [matchesAlone_of_literal hmax (append_ne_nil_of_left_ne_nil ht.1 _) hopt
    (compileLiteral_tail hlen hhead) rfl (fun b hb => hp b (mem_append_left _ hb)) hs]
  cases caseless <;> rfl

/-- A pattern that starts with `^` and does not end with `$`: all that is behind the `^` is
compared. -/
theorem matchesAlone_caret (hopt : osMatchCouldBeOptimized pcre2 p = true)
    {pre : Bytes} (hlast : p = pre ++ [b]) (hb : b ≠ chr '$') (hhead : p = chr '^' :: t)
    (hmax : p.length ≤ OS_PATTERN_MAXSIZE) (hp : ∀ b ∈ p, b ≠ 0) (hs : ∀ b ∈ s, b ≠ 0) :
    MatchesAlone pcre2 caseless p s ↔ StartsWith caseless t s := by
  have hlen : pre.length < 2 ^ 64 := by
    have := lt_size_of_le hmax
    rw [hlast, length_append] at this
    omega
  subst hhead
  rw [matchesAlone_of_literal hmax (cons_ne_nil _ _) hopt
    (compileLiteral_start hlen hlast.symm hb) rfl
    (fun b hb => hp b (mem_cons_of_mem _ hb)) hs]
  cases caseless <;> rfl

theorem matchesAlone_text (h : Documented pcre2) {pre : Bytes} (hlast : p = pre ++ [b])
    (hb : b ≠ chr '$') (hhead : p.head? ≠ some (chr '^')) (hbar : chr '|' ∉ p)
    (hmax : p.length ≤ OS_PATTERN_MAXSIZE) :
    MatchesAlone pcre2 caseless p s ↔ MatchesPattern caseless p s := by
  have hlen : pre.length < 2 ^ 64 := by
    have := lt_size_of_le hmax
    rw [hlast, length_append] at this
    omega
  have hne : p ≠ [] := by
    rw [hlast]
    exact append_ne_nil_of_right_ne_nil _ (cons_ne_nil _ _)
  refine matchesAlone_of_pcre2 h hmax hne hbar (.inr ?_)
  rw [hlast] at hhead ⊢
  exact compileLiteral_none hlen hhead hb

/-- What a single pattern says and what it is taken for: where they differ. -/
theorem alone_pattern (h : Documented pcre2) (hbar : chr '|' ∉ p)
    (hmax : p.length ≤ OS_PATTERN_MAXSIZE) (hp : ∀ b ∈ p, b ≠ 0) (hs : ∀ b ∈ s, b ≠ 0) :
    (MatchesPattern caseless p s ∧ ¬MatchesAlone pcre2 caseless p s ↔ OnlyPattern caseless p s) ∧
      (MatchesAlone pcre2 caseless p s ∧ ¬MatchesPattern caseless p s ↔
        OnlyLiteral caseless p s) := by
  by_cases hopt : osMatchCouldBeOptimized pcre2 p = true
  · obtain ⟨t, ht, (rfl | rfl | rfl) | rfl | rfl | rfl⟩ := (couldBeOptimized_iff h).mp hopt
    · -- a text without an anchor is given to PCRE2 as well
      have honly : OnlyPattern caseless (_ ++ []) s ↔ _ := onlyPattern_append ht (.inl rfl)
      have hnot : ¬OnlyLiteral caseless (_ ++ []) s := not_onlyLiteral_append ht
      have hhead := ht.head?_append_ne []
      rw [append_nil] at honly hnot hhead
      have hlast := (dropLast_append_getLast ht.1).symm
      have hne : p.getLast ht.1 ≠ chr '$' :=
        ne_of_mem_of_not_mem (getLast_mem ht.1) ht.dollar_notMem
      rw [matchesAlone_text h hlast hne hhead hbar hmax, honly]
      exact ⟨iff_of_false (fun h => h.2 h.1) fun h => absurd h.1 (by decide),
        iff_of_false (fun h => h.2 h.1) hnot⟩
    · rw [matchesAlone_dollar h ht hmax hp hs, matchesPattern_dollar ht,
        onlyPattern_append ht (.inr rfl)]
      have hnot : ¬OnlyLiteral caseless (t ++ lit "$") s := not_onlyLiteral_append ht
      constructor
      · constructor
        · rintro ⟨hend | ⟨x, hx, hend⟩, hno⟩
          · exact absurd hend hno
          · exact ⟨rfl, x, hx, hend, hno⟩
        · rintro ⟨-, x, hx, hend, hno⟩
          exact ⟨.inr ⟨x, hx, hend⟩, hno⟩
      · exact iff_of_false (fun h => h.2 (.inl h.1)) hnot
    · -- the last byte is the newline
      have hnot : ¬OnlyLiteral caseless (t ++ lit "$\n") s := not_onlyLiteral_append ht
      have hlast : t ++ lit "$\n" = (t ++ lit "$") ++ [chr '\n'] := by
        rw [append_assoc]
        rfl
      rw [matchesAlone_text h hlast (by decide) (ht.head?_append_ne _) hbar hmax,
        onlyPattern_append ht (.inr rfl)]
      exact ⟨iff_of_false (fun h => h.2 h.1) fun h => absurd h.1 (by decide),
        iff_of_false (fun h => h.2 h.1) hnot⟩
    · have honly : OnlyPattern caseless (chr '^' :: (t ++ [])) s ↔ _ :=
        onlyPattern_caret ht (.inl rfl)
      have honly' : OnlyLiteral caseless (chr '^' :: (t ++ [])) s ↔ _ :=
        onlyLiteral_caret ht (.inl rfl)
      rw [append_nil] at honly honly'
      have hlast : chr '^' :: t = (chr '^' :: t.dropLast) ++ [t.getLast ht.1] := by
        rw [cons_append, dropLast_append_getLast]
      have hne : t.getLast ht.1 ≠ chr '$' :=
        ne_of_mem_of_not_mem (getLast_mem ht.1) ht.dollar_notMem
      rw [matchesAlone_caret hopt hlast hne rfl hmax hp hs, matchesPattern_caret ht, honly, honly']
      exact ⟨iff_of_false (fun h => h.2 h.1) fun h => absurd h.1 (by decide),
        iff_of_false (fun h => h.2 h.1) fun h => absurd h.1 (by decide)⟩
    · rw [matchesAlone_full h ht hmax hp hs, matchesPattern_full ht,
        onlyPattern_caret ht (.inr rfl), onlyLiteral_caret ht (.inr rfl)]
      constructor
      · constructor
        · rintro ⟨hsame | hx, hno⟩
          · exact absurd hsame hno
          · exact ⟨.inl rfl, hx⟩
        · rintro ⟨-, x, rfl, hx⟩
          refine ⟨.inr ⟨x, rfl, hx⟩, fun hsame => ?_⟩
          have hlen := hsame.length_eq.trans hx.length_eq.symm
          exact absurd hlen (by simp [lit])
      · exact iff_of_false (fun h => h.2 (.inl h.1)) fun h => absurd h.1 (by decide)
    · have hlast : chr '^' :: (t ++ lit "$\n") = (chr '^' :: (t ++ lit "$")) ++ [chr '\n'] := by
        rw [cons_append, append_assoc]
        rfl
      rw [matchesAlone_caret hopt hlast (by decide) rfl hmax hp hs, matchesPattern_line ht,
        onlyPattern_caret ht (.inr rfl), onlyLiteral_caret ht (.inr rfl)]
      -- the subject has a byte more when the `$` is compared
      have hdisjoint : (∃ x, s = x ++ lit "\n" ∧ Same caseless x t) →
          ¬StartsWith caseless (t ++ lit "$\n") s := by
        rintro ⟨x, rfl, hx⟩ ⟨y, rest, heq, hy⟩
        have hlen := congrArg List.length heq
        rw [length_append, length_append, hx.length_eq, hy.length_eq, length_append] at hlen
        simp [lit] at hlen
        omega
      constructor
      · exact ⟨fun h => ⟨.inr rfl, h.1⟩, fun h => ⟨h.2, hdisjoint h.2⟩⟩
      · exact ⟨fun h => ⟨rfl, h.1⟩, fun h => ⟨h.2, fun hx => hdisjoint hx h.2⟩⟩
  · -- PCRE2 gets the pattern in both cases
    have hpattern : MatchesAlone pcre2 caseless p s ↔ MatchesPattern caseless p s := by
      cases p with
      | nil =>
        refine iff_of_true ⟨.executeTrue, rfl, rfl⟩ ?_
        exact isSome_search_singleton.mpr ⟨[], s, rfl, matches_nil⟩
      | cons b p =>
        exact matchesAlone_of_pcre2 h hmax (cons_ne_nil _ _) hbar
          (.inl (Bool.eq_false_iff.mpr hopt))
    have hno : ∀ t, Text t → p ≠ chr '^' :: (t ++ lit "$") ∧ p ≠ chr '^' :: (t ++ lit "$\n") ∧
        p ≠ t ++ lit "$" := by
      intro t ht
      refine ⟨?_, ?_, ?_⟩ <;> intro heq <;> refine hopt ((couldBeOptimized_iff h).mpr ⟨t, ht, ?_⟩)
      · exact .inr (.inr (.inl heq))
      · exact .inr (.inr (.inr heq))
      · exact .inl (.inr (.inl heq))
    rw [hpattern]
    constructor
    · refine iff_of_false (fun h => h.2 h.1) ?_
      rintro ⟨t, x, ht, -, ⟨heq | heq, -⟩ | ⟨heq, -⟩⟩
      · exact (hno t ht).1 heq
      · exact (hno t ht).2.1 heq
      · exact (hno t ht).2.2 heq
    · refine iff_of_false (fun h => h.2 h.1) ?_
      rintro ⟨t, ht, heq, -⟩
      exact (hno t ht).2.1 heq

/-! ## Several patterns -/

theorem pieces_bar (hbar : chr '|' ∉ p) (q : Bytes) :
    pieces (p ++ chr '|' :: q) = p.map pieceOf :: pieces q := by
  induction p with
  | nil =>
    rw [nil_append, pieces, if_pos rfl]
    rfl
  | cons b p ih =>
    obtain ⟨hb, hbar⟩ := not_or.mp (mem_cons.not.mp hbar)
    rw [cons_append, pieces, if_neg (Ne.symm hb), ih hbar]
    rfl

theorem pieces_intercalate (hne : ps ≠ []) (hbar : ∀ p ∈ ps, chr '|' ∉ p) :
    pieces ((lit "|").intercalate ps) = ps.map fun p => p.map pieceOf := by
  induction ps with
  | nil => exact absurd rfl hne
  | cons p ps ih =>
    obtain ⟨hp, hbar⟩ := forall_mem_cons.mp hbar
    by_cases hps : ps = []
    · rw [hps, intercalate_singleton, search_pieces hp]
      rfl
    · have hjoin : (lit "|").intercalate (p :: ps) = p ++ chr '|' :: (lit "|").intercalate ps := by
        rw [intercalate_cons_of_ne_nil hps, append_assoc]
        rfl
      rw [hjoin, pieces_bar hp, ih hps hbar, map_cons]

theorem length_le_intercalate (hp : p ∈ ps) :
    p.length ≤ ((lit "|").intercalate ps).length := by
  induction ps with
  | nil => exact absurd hp not_mem_nil
  | cons q ps ih =>
    by_cases hps : ps = []
    · rw [hps] at hp ⊢
      rw [mem_singleton.mp hp, intercalate_singleton]
    · rw [intercalate_cons_of_ne_nil hps, length_append, length_append]
      rcases mem_cons.mp hp with rfl | hp
      · omega
      · have := ih hp
        omega

theorem mem_intercalate (hlen : 2 ≤ ps.length) : chr '|' ∈ (lit "|").intercalate ps := by
  match ps, hlen with
  | p :: q :: ps, _ =>
    rw [intercalate_cons_cons]
    exact mem_append_left _ (mem_append_right _ (mem_singleton_self _))

/-- A list of patterns is compiled for PCRE2, and it matches when one of the patterns does, as PCRE2
documents it. -/
theorem execute_intercalate (h : Documented pcre2) (hlen : 2 ≤ ps.length)
    (hbar : ∀ p ∈ ps, chr '|' ∉ p) {reg : OSMatch}
    (hreg : osMatchCompile pcre2 ((lit "|").intercalate ps) caseless = .ok reg) :
    osMatchExecute s s.length reg = true ↔ ∃ p ∈ ps, MatchesPattern caseless p s := by
  have hmem := mem_intercalate hlen
  have hmax : ((lit "|").intercalate ps).length ≤ OS_PATTERN_MAXSIZE := by
    by_contra hmax
    rw [osMatchCompile, if_pos (Nat.lt_of_not_le hmax)] at hreg
    cases hreg
  have hno : osMatchCouldBeOptimized pcre2 ((lit "|").intercalate ps) = false := by
    rw [Bool.eq_false_iff]
    intro hopt
    obtain ⟨t, ht, hp⟩ := (couldBeOptimized_iff h).mp hopt
    have hbar : chr '|' ∉ t := fun hmem => ht.2 _ hmem (by decide)
    rcases hp with (hp | hp | hp) | hp | hp | hp <;> rw [hp] at hmem <;>
      simp [hbar, lit] at hmem <;> exact absurd hmem (by decide)
  have hps : ps ≠ [] := ne_nil_of_length_pos (lt_of_lt_of_le Nat.zero_lt_two hlen)
  obtain ⟨code, hcode, hspec⟩ := osMatchCompile_pcre2 h hmax (ne_nil_of_mem hmem) (.inl hno)
  obtain rfl : OSMatch.pcre2Match code = reg := Outcome.ok.inj (hcode.symm.trans hreg)
  rw [osMatchExecute, take_length, hspec, pieces_intercalate hps hbar, isSome_search]
  simp only [MatchesPattern, isSome_search_singleton, mem_map, exists_exists_and_eq_and]

/-- When a list of patterns matches the subjects that its members match alone. -/
def Agrees (caseless : Bool) (ps : List Bytes) (s : Bytes) : Prop :=
  ps.length = 1 ∨ (∃ p ∈ ps, MatchesPattern caseless p s ∧ ¬OnlyPattern caseless p s) ∨
    ((∃ p ∈ ps, OnlyPattern caseless p s) ↔ ∃ p ∈ ps, OnlyLiteral caseless p s)

/-- A list of patterns matches as its members do alone, unless a member is in the way whose `$` is
compared as such or stands in front of the last newline. -/
theorem match_agrees_iff (h : Documented pcre2) (hne : ps ≠ []) (hbar : ∀ p ∈ ps, chr '|' ∉ p)
    (hps : ∀ p ∈ ps, ∀ b ∈ p, b ≠ 0) (hs : ∀ b ∈ s, b ≠ 0) {reg : OSMatch}
    (hreg : osMatchCompile pcre2 ((lit "|").intercalate ps) caseless = .ok reg) :
    (osMatchExecute s s.length reg = true ↔ ∃ p ∈ ps, MatchesAlone pcre2 caseless p s) ↔
      Agrees caseless ps s := by
  by_cases hlen : ps.length = 1
  · refine iff_of_true ?_ (Or.inl hlen)
    obtain ⟨p, rfl⟩ := length_eq_one_iff.mp hlen
    rw [intercalate_singleton] at hreg
    simp [MatchesAlone, hreg]
  · have hlen2 : 2 ≤ ps.length := by
      have := length_pos_iff.mpr hne
      omega
    have hmax : ((lit "|").intercalate ps).length ≤ OS_PATTERN_MAXSIZE := by
      by_contra hmax
      rw [osMatchCompile, if_pos (Nat.lt_of_not_le hmax)] at hreg
      cases hreg
    have hmember : ∀ p ∈ ps, (MatchesPattern caseless p s ∧ ¬MatchesAlone pcre2 caseless p s ↔
        OnlyPattern caseless p s) ∧ (MatchesAlone pcre2 caseless p s ∧
          ¬MatchesPattern caseless p s ↔ OnlyLiteral caseless p s) := fun p hp =>
      alone_pattern h (hbar p hp) ((length_le_intercalate hp).trans hmax) (hps p hp) hs
    rw [execute_intercalate h hlen2 hbar hreg, Agrees, or_iff_right hlen]
    constructor
    · intro hagree
      by_cases hboth : ∃ p ∈ ps, MatchesPattern caseless p s ∧ ¬OnlyPattern caseless p s
      · exact Or.inl hboth
      · right
        constructor
        · rintro ⟨p, hp, honly⟩
          obtain ⟨hpattern, -⟩ := (hmember p hp).1.mpr honly
          obtain ⟨q, hq, halone⟩ := hagree.mp ⟨p, hp, hpattern⟩
          refine ⟨q, hq, (hmember q hq).2.mp ⟨halone, fun hqp => hboth ⟨q, hq, hqp, ?_⟩⟩⟩
          exact fun honly => ((hmember q hq).1.mpr honly).2 halone
        · rintro ⟨p, hp, honly⟩
          obtain ⟨halone, -⟩ := (hmember p hp).2.mpr honly
          obtain ⟨q, hq, hpattern⟩ := hagree.mpr ⟨p, hp, halone⟩
          by_contra hnone
          exact hboth ⟨q, hq, hpattern, fun honly => hnone ⟨q, hq, honly⟩⟩
    · rintro (⟨p, hp, hpattern, hno⟩ | hiff)
      · refine iff_of_true ⟨p, hp, hpattern⟩ ⟨p, hp, ?_⟩
        by_contra halone
        exact hno ((hmember p hp).1.mp ⟨hpattern, halone⟩)
      · constructor
        · rintro ⟨p, hp, hpattern⟩
          by_cases halone : MatchesAlone pcre2 caseless p s
          · exact ⟨p, hp, halone⟩
          · obtain ⟨q, hq, honly⟩ := hiff.mp ⟨p, hp, (hmember p hp).1.mp ⟨hpattern, halone⟩⟩
            exact ⟨q, hq, ((hmember q hq).2.mpr honly).1⟩
        · rintro ⟨p, hp, halone⟩
          by_cases hpattern : MatchesPattern caseless p s
          · exact ⟨p, hp, hpattern⟩
          · obtain ⟨q, hq, honly⟩ := hiff.mpr ⟨p, hp, (hmember p hp).2.mp ⟨halone, hpattern⟩⟩
            exact ⟨q, hq, ((hmember q hq).1.mpr honly).1⟩

theorem exists_reg_intercalate :
    ∃ reg, osMatchCompile reference ((lit "|").intercalate [lit "foo$", lit "bar"]) true =
      .ok reg := by
  have hmax : ((lit "|").intercalate [lit "foo$", lit "bar"]).length ≤ OS_PATTERN_MAXSIZE := by
    decide +kernel
  obtain ⟨code, hcode, -⟩ := osMatchCompile_pcre2 documented_reference hmax (by decide +kernel)
    (.inl (by decide +kernel))
  exact ⟨_, hcode⟩

/-- The anchor of the first pattern matches at the end of the subject. -/
theorem match_agrees_end :
    ∃ reg, osMatchCompile reference ((lit "|").intercalate [lit "foo$", lit "bar"]) true = .ok reg ∧
      (osMatchExecute (lit "xfoo") (lit "xfoo").length reg = true ↔
        ∃ p ∈ [lit "foo$", lit "bar"], MatchesAlone reference true p (lit "xfoo")) := by
  obtain ⟨reg, hreg⟩ := exists_reg_intercalate
  refine ⟨reg, hreg, (match_agrees_iff documented_reference (by decide +kernel)
    (by decide +kernel) (by decide +kernel) (by decide +kernel) hreg).mpr
      (Or.inr (Or.inl ⟨lit "foo$", by decide +kernel, ?_, ?_⟩))⟩
  · rw [MatchesPattern]
    decide +kernel
  · rintro ⟨t, x, -, heq, -⟩
    have hlast := congrArg List.getLast? heq
    rw [getLast?_append_of_ne_nil _ (by decide)] at hlast
    exact absurd hlast (by decide)

/-- A line with its newline: the two patterns together match it, and neither alone does. -/
theorem not_match_agrees_newline :
    ∃ reg, osMatchCompile reference ((lit "|").intercalate [lit "foo$", lit "bar"]) true = .ok reg ∧
      osMatchExecute (lit "foo\n") (lit "foo\n").length reg = true ∧
      ¬∃ p ∈ [lit "foo$", lit "bar"], MatchesAlone reference true p (lit "foo\n") := by
  obtain ⟨reg, hreg⟩ := exists_reg_intercalate
  refine ⟨reg, hreg, ?_, ?_⟩
  · rw [execute_intercalate documented_reference (by decide +kernel) (by decide +kernel) hreg]
    refine ⟨lit "foo$", by decide +kernel, ?_⟩
    rw [MatchesPattern]
    decide +kernel
  · rintro ⟨p, hp, halone⟩
    rcases mem_cons.mp hp with rfl | hp
    · have hend := (matchesAlone_dollar documented_reference (t := lit "foo")
        ⟨by decide, by decide +kernel⟩ (by decide +kernel) (by decide +kernel) (by decide +kernel)).mp halone
      exact absurd (endsWith_iff.mp hend) (by decide +kernel)
    · obtain rfl := mem_singleton.mp hp
      have hlast : lit "bar" = lit "ba" ++ [chr 'r'] := by decide
      have hpattern := (matchesAlone_text documented_reference hlast (by decide) (by decide)
        (by decide) (by decide)).mp halone
      rw [MatchesPattern] at hpattern
      exact absurd hpattern (by decide +kernel)

end OsRegex
