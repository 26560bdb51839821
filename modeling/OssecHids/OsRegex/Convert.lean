import OssecHids.Lib.Pcre2Tokens
import OssecHids.OsRegex.Regex

/-!
# Conversion of OSRegex patterns

`OSRegex_ConvertRegex` looks back two bytes to see whether a `*` or a `+` stands behind a class.
What PCRE2 reads in the converted text is compared with what the pattern says.

- `denoted`: what a pattern says;
- `tokens_convertRegexLoop_iff`: one token of the pattern after another;
- `reads_denoted_iff`: when PCRE2 reads what the pattern says.
-/

open List Option

open CString Pcre2

namespace OsRegex

/-! ## What a pattern says -/

def isWord (b : UInt8) : Bool := isAlnum b || decide (b ∈ lit "@_-")

def isPunct (b : UInt8) : Bool := decide (b ∈ lit "()*+,-.:;<=>?[]!\"'#$%&|\x7b\x7d")

/-- The classes of the library, by the letter behind the backslash. -/
def classes : List (UInt8 × (UInt8 → Bool)) := [
  (chr 'd', isDigit),
  (chr 'w', isWord),
  (chr 's', fun b => decide (b = chr ' ')),
  (chr 'p', isPunct),
  (chr 'D', fun b => !isDigit b),
  (chr 'W', fun b => !isWord b),
  (chr 'S', fun b => !decide (b = chr ' ')),
  (chr '.', fun _ => true)]

/-- The letters of the classes. The library's maps have one for `\t` also, which the description of
the expressions leaves out; `tab` says whether it is one. -/
def classLetters (tab : Bool) : Bytes := classes.map Prod.fst ++ if tab then [chr 't'] else []

/-- A byte that stands for itself. -/
def itself (caseless : Bool) (b : UInt8) : Token := .one ((Atom.byte b).holds caseless)

/-- What a byte behind a backslash says. -/
def denotedEscape (caseless : Bool) (c : UInt8) : Token :=
  match classes.lookup c with
  | some holds => .one holds
  | none => itself caseless (if c = chr 't' then chr '\t' else c)

/-- What a byte says that is not escaped; a `*` or a `+` repeats what is directly in front of it
when that is a class, and is a byte like others elsewhere. -/
def denotedByte (caseless behindClass : Bool) (b : UInt8) : List Token :=
  if behindClass ∧ b = chr '*' then [.star]
  else if behindClass ∧ b = chr '+' then [.plus]
  else if b = chr '^' then [.bol]
  else if b = chr '$' then [.notNewline, .eol]
  else if b = chr '|' then [.bar]
  else if b = chr '(' then [.opening]
  else if b = chr ')' then [.closing]
  else [itself caseless b]

/-- What a pattern says. -/
def denoted (caseless tab : Bool) : Bool → Bytes → List Token
  | _, [] => []
  | behindClass, [b] => denotedByte caseless behindClass b
  | behindClass, b :: c :: rest =>
    if b = chr '\\' then
      denotedEscape caseless c :: denoted caseless tab (decide (c ∈ classLetters tab)) rest
    else denotedByte caseless behindClass b ++ denoted caseless tab false (c :: rest)

/-! ## The substitution -/

/-- Whether an alternative ends behind a quantifier; the `$` of the pattern can be in front of the
newline that ends the text. -/
def alternativeEnds (text : Bytes) : Bool :=
  let rest := text.dropWhile (· == chr ')')
  rest == [] || rest == [chr '\n'] || rest.head? == some (chr '|') || rest.head? == some (chr '$')

/-- A text where all that `OSREGEX_TO_PCRE2_FIX` matches is replaced; `before` is the byte in front
of it. -/
def fixed : Option UInt8 → Bytes → Bytes
  | _, [] => []
  | _, [b] => [b]
  | before, b :: c :: rest =>
    if (b = chr '*' ∨ b = chr '+') ∧ before ≠ some (chr '\\') ∧ c = chr '?' ∧
        alternativeEnds rest then
      b :: fixed (some c) rest
    else b :: fixed (some b) (c :: rest)

/-- The text that is used after the substitution is the text with every match replaced. -/
def Substitutes (substitute : Bytes → Option Bytes) : Prop :=
  ∀ text, (substitute text).getD text = fixed none text

/-! ## Escapes -/

/-- Whether every backslash that starts an escape has its byte. -/
def whole : Bytes → Bool
  | [] => true
  | [b] => b != chr '\\'
  | b :: c :: rest => if b = chr '\\' then whole rest else whole (c :: rest)

/-- A class stands two bytes in front of an offset. -/
def ClassAt (tab : Bool) (p : Bytes) (i : ℕ) : Prop :=
  whole (p.take i) ∧ p[i]? = some (chr '\\') ∧ ∃ c ∈ classLetters tab, p[i + 1]? = some c

/-- A `*` or a `+` that is two bytes behind a backslash stands directly behind a class, and the
pattern does not end in the middle of an escape. -/
def RepeatsClasses (tab : Bool) (p : Bytes) : Prop :=
  whole p ∧ ∀ i < p.length, p[i]? = some (chr '\\') →
    p[i + 2]? = some (chr '*') ∨ p[i + 2]? = some (chr '+') → ClassAt tab p i

instance (tab : Bool) (p : Bytes) (i : ℕ) : Decidable (ClassAt tab p i) :=
  inferInstanceAs (Decidable (_ ∧ _ ∧ _))

instance (tab : Bool) (p : Bytes) : Decidable (RepeatsClasses tab p) :=
  inferInstanceAs (Decidable (_ ∧ _))

/-! ## Pieces of the converted text -/

variable {caseless tab : Bool} {b c : UInt8} {p t piece rest text : Bytes} {ts : List Token} {n : ℕ}

/-- PCRE2 reads the same tokens in a piece whatever is behind it, and nothing is substituted in
it. -/
structure Reads (caseless : Bool) (piece : Bytes) (ts : List Token) : Prop where
  tokens_append : ∀ t, groupOption t = false →
    tokens caseless (piece ++ t) = (tokens caseless t).map (ts ++ ·)
  groupOption_append : ∀ t, groupOption (piece ++ t) = false
  fixed_append : ∀ before t, ∃ before', fixed before (piece ++ t) = piece ++ fixed before' t

theorem tokens_append_of_nextToken {token : Token}
    (h : ∀ t, nextToken caseless (piece ++ t) = some (token, t)) (t : Bytes) :
    tokens caseless (piece ++ t) = (tokens caseless t).map ([token] ++ ·) :=
  tokens_eq_of_nextToken (h t)

theorem fixed_cons (hstar : b ≠ chr '*') (hplus : b ≠ chr '+') (before : Option UInt8) :
    fixed before (b :: t) = b :: fixed (some b) t := by
  cases t with
  | nil => rfl
  | cons c t => rw [fixed, if_neg fun h => h.1.elim hstar hplus]

theorem fixed_escaped : fixed (some (chr '\\')) (b :: t) = b :: fixed (some b) t := by
  cases t with
  | nil => rfl
  | cons c t => rw [fixed, if_neg fun h => h.2.1 rfl]

theorem fixed_append (hpiece : ∀ b ∈ piece, b ≠ chr '*' ∧ b ≠ chr '+') (before : Option UInt8)
    (t : Bytes) : ∃ before', fixed before (piece ++ t) = piece ++ fixed before' t := by
  induction piece generalizing before with
  | nil => exact ⟨before, rfl⟩
  | cons b piece ih =>
    obtain ⟨hb, hpiece⟩ := forall_mem_cons.mp hpiece
    obtain ⟨before', heq⟩ := ih hpiece (some b)
    refine ⟨before', ?_⟩
    rw [cons_append, fixed_cons hb.1 hb.2, heq, cons_append]

theorem head?_fixed (before : Option UInt8) : (fixed before t).head? = t.head? := by
  rcases t with - | ⟨b, - | ⟨c, t⟩⟩
  · rfl
  · rfl
  · rw [fixed]
    split_ifs <;> rfl

theorem reads_escaped {token : Token}
    (h : ∀ t, nextToken caseless (chr '\\' :: c :: t) = some (token, t)) :
    Reads caseless [chr '\\', c] [token] where
  tokens_append t _ := @tokens_append_of_nextToken caseless [chr '\\', c] token h t
  groupOption_append t := rfl
  fixed_append before t := by
    refine ⟨some c, ?_⟩
    rw [cons_append, fixed_cons (by decide) (by decide), cons_append, nil_append, fixed_escaped]
    rfl

/-- The bytes that are escaped in the converted text. -/
def escapedBytes : Bytes := lit ".[]\x7b\x7d?*+"

theorem reads_single {token : Token} (hb : b ∉ escapedBytes)
    (h : ∀ t, groupOption t = false → nextToken caseless (b :: t) = some (token, t)) :
    Reads caseless [b] [token] := by
  have hne : ∀ c ∈ escapedBytes, b ≠ c := fun c hc heq => hb (heq ▸ hc)
  have hstar : b ≠ chr '*' := hne _ (by decide)
  have hplus : b ≠ chr '+' := hne _ (by decide)
  have hquestion : b ≠ chr '?' := hne _ (by decide)
  refine ⟨fun t ht => tokens_eq_of_nextToken (h t ht), fun t => ?_, fun before t => ⟨some b, ?_⟩⟩
  · rw [singleton_append, groupOption, beq_eq_false_iff_ne.mpr hquestion,
      beq_eq_false_iff_ne.mpr hstar]
    rfl
  · rw [singleton_append, fixed_cons hstar hplus, singleton_append]

theorem nextToken_opening (ht : groupOption t = false) :
    nextToken caseless (chr '(' :: t) = some (.opening, t) := by
  cases t with
  | nil => rfl
  | cons c t =>
    have hne : (chr '?' == c) = false := by
      rw [groupOption, Bool.or_eq_false_iff, beq_eq_false_iff_ne] at ht
      exact beq_eq_false_iff_ne.mpr (Ne.symm ht.1)
    have hno : ∀ l, (chr '?' :: l).isPrefixOf (c :: t) = false := fun l => by
      rw [List.isPrefixOf_cons_cons, hne, Bool.false_and]
    have hsingle : lit "?s:.)" = chr '?' :: lit "s:.)" := by decide
    have hnot : lit "?!\\n)" = chr '?' :: lit "!\\n)" := by decide
    have hbackslash : chr '(' ≠ chr '\\' := by decide
    have hbracket : chr '(' ≠ chr '[' := by decide
    rw [nextToken, if_neg hbackslash, if_neg hbracket, if_pos rfl, hsingle, hnot, hno, hno, ht]
    rfl

/-! ### Classes -/

theorem holds_word {negated : Bool} :
    (Atom.set negated ([(65, 90), (97, 122), (48, 57)] ++ (lit "@_-").map fun c => (c, c))).holds
      caseless b = (isWord b != negated) := by
  rw [holds_append_map (forall_mem_of_all (by decide)), holds_alnum, isWord]

theorem holds_digit_negated : (Atom.set true [(48, 57)]).holds caseless b = !isDigit b := by
  rw [← holds_digit caseless, Atom.holds, Atom.holds, Bool.bne_true, Bool.bne_false]

theorem holds_bytes {l : Bytes} (hl : ∀ c ∈ l, isAlnum c = false) {negated : Bool} :
    (Atom.set negated (l.map fun c => (c, c))).holds caseless b = (decide (b ∈ l) != negated) := by
  have h := @holds_append_map b l hl caseless negated []
  rw [nil_append] at h
  rw [h]
  rfl

theorem reads_bracket {holds : UInt8 → Bool} (piece : Bytes) (atom : Atom)
    (hatom : ∀ t, classAtom (piece ++ t) = some (atom, t))
    (hholds : ∀ b, atom.holds caseless b = holds b)
    (hfixed : ∀ before t, ∃ before', fixed before (chr '[' :: piece ++ t) =
      chr '[' :: piece ++ fixed before' t) :
    Reads caseless (chr '[' :: piece) [.one holds] where
  tokens_append t _ := by
    obtain rfl : atom.holds caseless = holds := funext hholds
    apply tokens_append_of_nextToken
    intro t
    have hne : chr '[' ≠ chr '\\' := by decide
    rw [List.cons_append, nextToken, if_neg hne, if_pos rfl, hatom, Option.map_some]
  groupOption_append t := rfl
  fixed_append := hfixed

/-- The bytes of `\p`, as they stand in the converted text. -/
def punctBytes : Bytes := lit "()*+,.:;<=>?[]!\"'#%&$|\x7b\x7d-"

theorem isPunct_eq (b : UInt8) : isPunct b = decide (b ∈ punctBytes) := by
  have hperm : (lit "()*+,-.:;<=>?[]!\"'#$%&|\x7b\x7d").Perm punctBytes := by decide
  rw [isPunct, Bool.eq_iff_iff, decide_eq_true_iff, decide_eq_true_iff, hperm.mem_iff]

/-- The class has the quantifiers in it, but no `?` behind them. -/
theorem fixed_punct (before : Option UInt8) (t : Bytes) :
    ∃ before', fixed before (lit "[()*+,.:;\\<=>?\\[\\]!\"'#%&$|\x7b\x7d-]" ++ t) =
      lit "[()*+,.:;\\<=>?\\[\\]!\"'#%&$|\x7b\x7d-]" ++ fixed before' t := by
  have hpiece : lit "[()*+,.:;\\<=>?\\[\\]!\"'#%&$|\x7b\x7d-]" = lit "[()" ++ chr '*' :: chr '+' ::
      lit ",.:;\\<=>?\\[\\]!\"'#%&$|\x7b\x7d-]" := by decide
  have hstar : ∀ before rest, fixed before (chr '*' :: chr '+' :: rest) =
      chr '*' :: fixed (some (chr '*')) (chr '+' :: rest) := fun before rest =>
    if_neg fun h => absurd h.2.2.1 (by decide)
  have hplus : ∀ before rest, fixed before (chr '+' :: chr ',' :: rest) =
      chr '+' :: fixed (some (chr '+')) (chr ',' :: rest) := fun before rest =>
    if_neg fun h => absurd h.2.2.1 (by decide)
  have hcomma : lit ",.:;\\<=>?\\[\\]!\"'#%&$|\x7b\x7d-]" =
      chr ',' :: lit ".:;\\<=>?\\[\\]!\"'#%&$|\x7b\x7d-]" := by decide
  rw [hpiece, append_assoc, cons_append, cons_append]
  obtain ⟨before₁, hfront⟩ := @fixed_append (lit "[()") (forall_mem_of_all (by decide)) before
    (chr '*' :: chr '+' :: (lit ",.:;\\<=>?\\[\\]!\"'#%&$|\x7b\x7d-]" ++ t))
  obtain ⟨before₂, hback⟩ := @fixed_append (lit ",.:;\\<=>?\\[\\]!\"'#%&$|\x7b\x7d-]")
    (forall_mem_of_all (by decide)) (some (chr '+')) t
  refine ⟨before₂, ?_⟩
  rw [hfront, hstar, hcomma, cons_append, hplus, ← cons_append, ← hcomma, hback]
  rw [append_assoc, cons_append, cons_append]

/-- What is read of a class, which is replaced whatever is behind it. -/
theorem reads_class {holds : UInt8 → Bool} (hmem : (c, holds) ∈ classes) :
    ∃ piece, (∀ rest, replacementMapRegex.find? (fun e => e.1.isPrefixOf (chr '\\' :: c :: rest)) =
      some ([chr '\\', c], piece)) ∧ Reads caseless piece [.one holds] := by
  have hspace : ∀ negated, ∀ b : UInt8,
      (Atom.set negated ((lit " ").map fun c => (c, c))).holds caseless b =
        (decide (b = chr ' ') != negated) := by
    intro negated b
    rw [holds_bytes (forall_mem_of_all (by decide))]
    congr 2
    exact propext mem_singleton
  simp only [classes, mem_cons, Prod.mk.injEq, not_mem_nil, or_false] at hmem
  rcases hmem with ⟨rfl, rfl⟩ | ⟨rfl, rfl⟩ | ⟨rfl, rfl⟩ | ⟨rfl, rfl⟩ | ⟨rfl, rfl⟩ | ⟨rfl, rfl⟩ |
    ⟨rfl, rfl⟩ | ⟨rfl, rfl⟩
  · refine ⟨lit "[0-9]", fun _ => rfl, reads_bracket (lit "0-9]") (.set false [(48, 57)])
      (fun _ => rfl) (fun b => holds_digit caseless)
      (fixed_append (forall_mem_of_all (by decide)))⟩
  · refine ⟨lit "[A-Za-z0-9@_-]", fun _ => rfl, reads_bracket (lit "A-Za-z0-9@_-]")
      (.set false ([(65, 90), (97, 122), (48, 57)] ++ (lit "@_-").map fun c => (c, c)))
      (fun _ => rfl) (fun b => ?_) (fixed_append (forall_mem_of_all (by decide)))⟩
    exact holds_word.trans (Bool.bne_false _)
  · refine ⟨lit "[ ]", fun _ => rfl, reads_bracket (lit " ]")
      (.set false ((lit " ").map fun c => (c, c)))
      (fun _ => rfl) (fun b => ?_) (fixed_append (forall_mem_of_all (by decide)))⟩
    exact (hspace false b).trans (Bool.bne_false _)
  · refine ⟨lit "[()*+,.:;\\<=>?\\[\\]!\"'#%&$|\x7b\x7d-]", fun _ => rfl,
      reads_bracket (lit "()*+,.:;\\<=>?\\[\\]!\"'#%&$|\x7b\x7d-]")
      (.set false (punctBytes.map fun c => (c, c)))
      (fun _ => rfl) (fun b => ?_) fixed_punct⟩
    rw [holds_bytes (forall_mem_of_all (by decide)), isPunct_eq, Bool.bne_false]
  · refine ⟨lit "[^0-9]", fun _ => rfl, reads_bracket (lit "^0-9]") (.set true [(48, 57)])
      (fun _ => rfl) (fun b => holds_digit_negated)
      (fixed_append (forall_mem_of_all (by decide)))⟩
  · refine ⟨lit "[^A-Za-z0-9@_-]", fun _ => rfl, reads_bracket (lit "^A-Za-z0-9@_-]")
      (.set true ([(65, 90), (97, 122), (48, 57)] ++ (lit "@_-").map fun c => (c, c)))
      (fun _ => rfl) (fun b => ?_) (fixed_append (forall_mem_of_all (by decide)))⟩
    exact holds_word.trans (Bool.bne_true _)
  · refine ⟨lit "[^ ]", fun _ => rfl, reads_bracket (lit "^ ]")
      (.set true ((lit " ").map fun c => (c, c)))
      (fun _ => rfl) (fun b => ?_) (fixed_append (forall_mem_of_all (by decide)))⟩
    exact (hspace true b).trans (Bool.bne_true _)
  · exact ⟨lit "(?s:.)", fun _ => rfl, fun t _ => tokens_append_of_nextToken (fun _ => rfl) t,
      fun _ => rfl, fixed_append (forall_mem_of_all (by decide))⟩

/-! ### Steps -/

/-- A `*` or a `+` that the converter takes for a repetition. -/
def LooksBack (p : Bytes) (n : ℕ) : Prop := 2 ≤ n ∧ p[n - 2]? = some (chr '\\')

theorem keys_replacementMapRegex : ∀ e ∈ replacementMapRegex,
    (∃ d ∈ escapedBytes ++ lit "$", e.1 = [d]) ∨
      ∃ d ∈ classes.map Prod.fst, e.1 = [chr '\\', d] := by
  decide

/-- An escape: a class, or a byte that may be escaped. -/
theorem convertRegexStep_escape {r : Bytes × ℕ}
    (h : convertRegexStep p n (chr '\\') (c :: rest) = some r) :
    r.2 = 2 ∧ Reads caseless r.1 [denotedEscape caseless c] ∧ c ≠ chr '*' ∧ c ≠ chr '+' := by
  have hstar : chr '\\' ≠ chr '*' := by decide
  have hplus : chr '\\' ≠ chr '+' := by decide
  rw [convertRegexStep.eq_def] at h
  rw [if_neg fun h => hstar h.2, if_neg fun h => hplus h.2] at h
  have hletters : ∀ c ∈ classes.map Prod.fst, c ≠ chr '*' ∧ c ≠ chr '+' :=
    forall_mem_of_all (by decide)
  cases hlookup : classes.lookup c with
  | some holds =>
    have hmem : (c, holds) ∈ classes := by
      obtain ⟨front, back, heq, -⟩ := lookup_eq_some_iff.mp hlookup
      rw [heq]
      exact mem_append_right _ mem_cons_self
    obtain ⟨piece, hfind, hreads⟩ := @reads_class caseless c holds hmem
    rw [hfind] at h
    cases h
    rw [denotedEscape, hlookup]
    exact ⟨rfl, hreads, hletters c (mem_map_of_mem hmem)⟩
  | none =>
    have hnot : c ∉ classes.map Prod.fst := by
      intro hmem
      obtain ⟨e, he, rfl⟩ := mem_map.mp hmem
      have hne := lookup_eq_none_iff.mp hlookup e he
      exact absurd hne (by simp)
    have hfind : replacementMapRegex.find? (fun e => e.1.isPrefixOf (chr '\\' :: c :: rest)) =
        none := by
      rw [find?_eq_none]
      intro e he hstarts
      rcases keys_replacementMapRegex e he with ⟨d, hd, hkey⟩ | ⟨d, hd, hkey⟩
      · rw [hkey, isPrefixOf_cons_cons, Bool.and_eq_true, beq_iff_eq] at hstarts
        exact absurd (hstarts.1 ▸ hd) (by decide)
      · rw [hkey, isPrefixOf_cons_cons, isPrefixOf_cons_cons] at hstarts
        have heq : d = c := by simpa using hstarts
        exact hnot (heq ▸ hd)
    rw [hfind] at h
    dsimp only at h
    rw [if_pos rfl] at h
    split_ifs at h with hescapable
    cases h
    rw [denotedEscape, hlookup]
    have hne : ∀ c ∈ escapable, c ≠ chr '*' ∧ c ≠ chr '+' := forall_mem_of_all (by decide)
    refine ⟨rfl, ?_, hne c hescapable⟩
    by_cases htab : c = chr 't'
    · subst htab
      exact reads_escaped fun t => rfl
    · rw [if_neg htab]
      have halnum : ∀ c ∈ escapable, c ≠ chr 't' → isAlnum c = false :=
        forall_mem_of_all (by decide)
      exact reads_escaped fun t => nextToken_escaped (halnum c hescapable htab)

/-- A byte that is not escaped and repeats nothing. -/
theorem convertRegexStep_byte (hb : b ≠ chr '\\')
    (hlooks : LooksBack p n → b ≠ chr '*' ∧ b ≠ chr '+') :
    ∃ piece, convertRegexStep p n b rest = some (piece, 1) ∧
      Reads caseless piece (denotedByte caseless false b) := by
  have hstep : convertRegexStep p n b rest =
      (replacementMapRegex.find? fun e => e.1.isPrefixOf [b]).elim (some ([b], 1)) fun e =>
        some (e.2, e.1.length) := by
    have hcongr : replacementMapRegex.find? (fun e => e.1.isPrefixOf (b :: rest)) =
        replacementMapRegex.find? fun e => e.1.isPrefixOf [b] :=
      find?_congr fun e he => isPrefixOf_of_ne hb rest he
    rw [convertRegexStep.eq_def, hcongr]
    rw [if_neg fun h => (hlooks h.1).1 h.2, if_neg fun h => (hlooks h.1).2 h.2]
    cases replacementMapRegex.find? fun e => e.1.isPrefixOf [b] with
    | some e => rfl
    | none => cases rest with
      | nil => rfl
      | cons c rest =>
        dsimp only
        rw [if_neg hb]
        rfl
  rw [hstep]
  by_cases hescaped : b ∈ escapedBytes
  · -- the byte gets a backslash
    have hentry : ∀ b ∈ escapedBytes,
        replacementMapRegex.find? (fun e => e.1.isPrefixOf [b]) = some ([b], [chr '\\', b]) ∧
          isAlnum b = false ∧ b ∉ lit "^$|()" := forall_mem_of_all (by decide)
    obtain ⟨hfind, halnum, hspecial⟩ := hentry b hescaped
    have hne : ∀ c ∈ lit "^$|()", b ≠ c := fun c hc h => hspecial (h ▸ hc)
    rw [hfind]
    refine ⟨_, rfl, ?_⟩
    rw [denotedByte, if_neg (by simp), if_neg (by simp), if_neg (hne _ (by decide)),
      if_neg (hne _ (by decide)), if_neg (hne _ (by decide)), if_neg (hne _ (by decide)),
      if_neg (hne _ (by decide))]
    exact reads_escaped fun t => nextToken_escaped halnum
  by_cases hdollar : b = chr '$'
  · subst hdollar
    refine ⟨lit "(?!\\n)$", rfl, fun t _ => ?_, fun t => rfl,
      fixed_append (forall_mem_of_all (by decide))⟩
    -- two tokens, the assertion in front of the anchor
    have hfirst : nextToken caseless (lit "(?!\\n)$" ++ t) = some (.notNewline, chr '$' :: t) := rfl
    have hsecond : nextToken caseless (chr '$' :: t) = some (.eol, t) := rfl
    rw [tokens_eq_of_nextToken hfirst, tokens_eq_of_nextToken hsecond, Option.map_map]
    rfl
  · have hfind : replacementMapRegex.find? (fun e => e.1.isPrefixOf [b]) = none := by
      rw [find?_eq_none]
      intro e he hstarts
      rcases keys_replacementMapRegex e he with ⟨d, hd, hkey⟩ | ⟨d, hd, hkey⟩
      · have heq : d = b := by simpa [hkey] using hstarts
        rcases mem_append.mp hd with hd | hd
        · exact hescaped (heq ▸ hd)
        · exact hdollar (heq ▸ mem_singleton.mp hd)
      · rw [hkey, isPrefixOf_cons_cons, Bool.and_eq_true, beq_iff_eq] at hstarts
        exact hb hstarts.1.symm
    rw [hfind]
    refine ⟨_, rfl, ?_⟩
    rw [denotedByte, if_neg (by simp), if_neg (by simp)]
    split_ifs with hcaret hbar hopening hclosing
    · subst hcaret
      exact reads_single hescaped fun t _ => rfl
    · subst hbar
      exact reads_single hescaped fun t _ => rfl
    · subst hopening
      exact reads_single hescaped fun t ht => nextToken_opening ht
    · subst hclosing
      exact reads_single hescaped fun t _ => rfl
    · refine reads_single hescaped fun t _ => nextToken_byte ?_
      have hall : ∀ c ∈ metacharacters, c ∈ escapedBytes ++ lit "\\$^|()" :=
        forall_mem_of_all (by decide)
      intro hmeta
      rcases mem_append.mp (hall b hmeta) with hmem | hmem
      · exact hescaped hmem
      · have hcases : ∀ c ∈ lit "\\$^|()", c = chr '\\' ∨ c = chr '$' ∨ c = chr '^' ∨
            c = chr '|' ∨ c = chr '(' ∨ c = chr ')' := forall_mem_of_all (by decide)
        rcases hcases b hmem with h | h | h | h | h | h
        exacts [hb h, hdollar h, hcaret h, hbar h, hopening h, hclosing h]

theorem mem_of_alternativeEnds (h : alternativeEnds (c :: t) = true) : c ∈ lit ")\n|$" := by
  by_cases hclosing : c = chr ')'
  · subst hclosing
    decide
  · have hdrop : (c :: t).dropWhile (· == chr ')') = c :: t := by
      rw [List.dropWhile_cons, if_neg fun h => hclosing (beq_iff_eq.mp h)]
    rw [alternativeEnds, hdrop] at h
    simp only [List.head?_cons, Bool.or_eq_true, beq_iff_eq, reduceCtorEq, false_or,
      List.cons.injEq, Option.some.injEq] at h
    rcases h with (⟨rfl, -⟩ | rfl) | rfl <;> decide

/-- A quantifier, which the substitution may make greedy. -/
theorem tokens_quantifier (hb : b = chr '*' ∨ b = chr '+') (before : Option UInt8) (t : Bytes) :
    groupOption (fixed before (b :: chr '?' :: t)) = false ∧
      tokens caseless (fixed before (b :: chr '?' :: t)) =
        (tokens caseless (fixed (some (chr '?')) t)).map (denotedByte caseless true b ++ ·) := by
  rw [fixed]
  split_ifs with hends
  · -- the `?` is taken out
    have hhead : ∀ c, (fixed (some (chr '?')) t).head? = some c → c ∈ lit ")\n|$" := by
      intro c hc
      rw [head?_fixed] at hc
      obtain ⟨t, rfl⟩ := head?_eq_some_iff.mp hc
      exact mem_of_alternativeEnds hends.2.2.2
    generalize fixed (some (chr '?')) t = text at hhead
    have hnext : behindQuantifier text = some text := by
      cases text with
      | nil => rfl
      | cons c text =>
        have hne : ∀ d ∈ lit ")\n|$", d ≠ chr '?' ∧ d ≠ chr '+' := forall_mem_of_all (by decide)
        obtain ⟨hquestion, hplus⟩ := hne c (hhead c rfl)
        rw [behindQuantifier, if_neg hquestion, if_neg hplus]
    have hverb : (text.head?.any fun c => isAlnum c || c == chr ':') = false := by
      cases text with
      | nil => rfl
      | cons c text =>
        have hall : ∀ d ∈ lit ")\n|$", (isAlnum d || d == chr ':') = false :=
          forall_mem_of_all (by decide)
        exact hall c (hhead c rfl)
    rcases hb with rfl | rfl
    · refine ⟨?_, tokens_eq_of_nextToken ?_⟩
      · rw [groupOption, hverb]
        rfl
      · have hstep : nextToken caseless (chr '*' :: text) =
            (behindQuantifier text).map fun rest => (.star, rest) := rfl
        rw [hstep, hnext, map_some]
    · refine ⟨rfl, tokens_eq_of_nextToken ?_⟩
      have hstep : nextToken caseless (chr '+' :: text) =
          (behindQuantifier text).map fun rest => (.plus, rest) := rfl
      rw [hstep, hnext, map_some]
  · rw [fixed_cons (by decide) (by decide)]
    rcases hb with rfl | rfl
    · exact ⟨rfl, tokens_eq_of_nextToken rfl⟩
    · exact ⟨rfl, tokens_eq_of_nextToken rfl⟩

/-- A `*` or a `+` behind a backslash and another byte is taken for a repetition. -/
theorem convertRegexStep_quantifier (hb : b = chr '*' ∨ b = chr '+') (hlooks : LooksBack p n) :
    convertRegexStep p n b rest = some ([b, chr '?'], 1) := by
  rcases hb with rfl | rfl
  · exact if_pos ⟨hlooks, rfl⟩
  · rw [convertRegexStep.eq_def]
    rw [if_neg fun h => absurd h.2 (by decide), if_pos ⟨hlooks, rfl⟩]
    rfl

/-! ## One token after another -/

theorem whole_append {l : Bytes} (h : whole l = true) (t : Bytes) : whole (l ++ t) = whole t := by
  fun_induction whole l with
  | case1 => rfl
  | case2 b =>
    have hb : b ≠ chr '\\' := by simpa using h
    cases t with
    | nil => exact h
    | cons c t => exact if_neg hb
  | case3 c rest ih =>
    rw [cons_append, cons_append, whole, if_pos rfl]
    exact ih h
  | case4 b c rest hb ih =>
    rw [cons_append, cons_append, whole, if_neg hb, ← cons_append]
    exact ih h

/-- No class starts with the byte in front of an offset that is behind whole escapes. -/
theorem not_classAt_of_whole (h : whole (p.take (n + 1)) = true) : ¬ClassAt tab p n := by
  rintro ⟨hwhole, hget, -⟩
  rw [take_add_one, hget, toList_some, whole_append hwhole] at h
  exact absurd h (by decide)

theorem getElem?_of_drop (h : p.drop n = b :: rest) : p[n]? = some b := by
  rw [← head?_drop, h, head?_cons]

theorem drop_succ_of_drop (h : p.drop n = b :: rest) : p.drop (n + 1) = rest := by
  rw [← drop_drop, h, drop_one, tail_cons]

/-- From an offset on, the repetitions stand behind classes. -/
def RepeatsFrom (tab : Bool) (p : Bytes) (n : ℕ) : Prop :=
  whole (p.drop n) ∧ ∀ i, n ≤ i + 2 → p[i]? = some (chr '\\') →
    p[i + 2]? = some (chr '*') ∨ p[i + 2]? = some (chr '+') → ClassAt tab p i

/-- A byte that is not escaped is passed. -/
theorem repeatsFrom_succ (hdrop : p.drop n = b :: rest) (hb : b ≠ chr '\\')
    (hat : LooksBack p n → b = chr '*' ∨ b = chr '+' → ClassAt tab p (n - 2)) :
    RepeatsFrom tab p n ↔ RepeatsFrom tab p (n + 1) := by
  have hget : p[n]? = some b := getElem?_of_drop hdrop
  have hrest : p.drop (n + 1) = rest := drop_succ_of_drop hdrop
  have hwhole : whole (b :: rest) = whole rest :=
    whole_append (l := [b]) (by simpa [whole] using hb) rest
  rw [RepeatsFrom, RepeatsFrom, hdrop, hrest, hwhole]
  refine and_congr_right fun _ => ⟨fun h i hi => h i (by omega), fun h i hi hback hq => ?_⟩
  by_cases hn : n = i + 2
  · rw [← hn, hget] at hq
    have hi : i = n - 2 := by omega
    have hlooks : LooksBack p n := ⟨by omega, hi ▸ hback⟩
    rw [hi]
    exact hat hlooks (hq.imp some.inj some.inj)
  · exact h i (by omega) hback hq

/-- An escape is passed. -/
theorem repeatsFrom_escape (hdrop : p.drop n = chr '\\' :: c :: rest) (hstar : c ≠ chr '*')
    (hplus : c ≠ chr '+') : RepeatsFrom tab p n ↔ RepeatsFrom tab p (n + 2) := by
  have hget : p[n]? = some (chr '\\') := getElem?_of_drop hdrop
  have hnext : p[n + 1]? = some c := getElem?_of_drop (drop_succ_of_drop hdrop)
  have hrest : p.drop (n + 2) = rest := drop_succ_of_drop (drop_succ_of_drop hdrop)
  rw [RepeatsFrom, RepeatsFrom, hdrop, hrest, whole, if_pos rfl]
  refine and_congr_right fun _ => ⟨fun h i hi => h i (by omega), fun h i hi hback hq => ?_⟩
  by_cases hn : n = i + 2
  · rw [← hn, hget] at hq
    exact absurd hq (by decide)
  by_cases hn' : n + 1 = i + 2
  · rw [← hn', hnext] at hq
    rcases hq with hq | hq
    · exact absurd (some.inj hq) hstar
    · exact absurd (some.inj hq) hplus
  · exact h i (by omega) hback hq

theorem denoted_cons {behindClass : Bool} (hb : b ≠ chr '\\') :
    denoted caseless tab behindClass (b :: rest) =
      denotedByte caseless behindClass b ++ denoted caseless tab false rest := by
  cases rest with
  | nil => rw [denoted, denoted, append_nil]
  | cons c rest => rw [denoted, if_neg hb]

theorem map_append_eq_iff {l : List Token} {o : Option (List Token)} :
    o.map (ts ++ ·) = some (ts ++ l) ↔ o = some l := by
  rw [map_eq_some_iff]
  constructor
  · rintro ⟨l', rfl, heq⟩
    rw [append_cancel_left heq]
  · rintro rfl
    exact ⟨l, rfl, rfl⟩

theorem repeatsFrom_end (hdrop : p.drop n = []) : RepeatsFrom tab p n := by
  refine ⟨by rw [hdrop]; rfl, fun i hi _ hq => ?_⟩
  have hlen : p.length ≤ i + 2 := (drop_eq_nil_iff.mp hdrop).trans hi
  rw [getElem?_eq_none hlen] at hq
  exact absurd hq (by simp)

/-- From an offset behind whole escapes on, PCRE2 reads what the pattern says when its repetitions
stand behind classes. -/
theorem tokens_convertRegexLoop_iff {fuel : ℕ} {behindClass : Bool} (before : Option UInt8)
    (hfuel : p.length ≤ n + fuel) (h : convertRegexLoop p fuel n = some text)
    (hwhole : whole (p.take n) = true)
    (hbehind : behindClass = true ↔ 2 ≤ n ∧ ClassAt tab p (n - 2)) :
    groupOption (fixed before text) = false ∧
      (tokens caseless (fixed before text) = some (denoted caseless tab behindClass (p.drop n)) ↔
        RepeatsFrom tab p n) := by
  induction fuel generalizing n text behindClass before with
  | zero =>
    have hdrop : p.drop n = [] := drop_eq_nil_of_le hfuel
    cases h
    rw [hdrop]
    exact ⟨rfl, iff_of_true rfl (repeatsFrom_end hdrop)⟩
  | succ fuel ih =>
    rw [convertRegexLoop] at h
    cases hdrop : p.drop n with
    | nil =>
      rw [hdrop] at h
      cases h
      exact ⟨rfl, iff_of_true rfl (repeatsFrom_end hdrop)⟩
    | cons b rest =>
      rw [hdrop] at h
      obtain ⟨r, hstep, h⟩ := bind_eq_some_iff.mp h
      obtain ⟨text', hloop, rfl⟩ := map_eq_some_iff.mp h
      have hget : p[n]? = some b := getElem?_of_drop hdrop
      have hrest : p.drop (n + 1) = rest := drop_succ_of_drop hdrop
      have htake : p.take (n + 1) = p.take n ++ [b] := by
        rw [take_add_one, hget, toList_some]
      by_cases hb : b = chr '\\'
      · subst hb
        cases rest with
        | nil =>
          -- a backslash at the end is copied, and nothing is there that it escapes
          have hlast : convertRegexStep p n (chr '\\') [] = some ([chr '\\'], 1) := by
            rw [convertRegexStep, if_neg fun h => absurd h.2 (by decide),
              if_neg fun h => absurd h.2 (by decide)]
            rfl
          rw [hlast] at hstep
          cases hstep
          have hend : convertRegexLoop p fuel (n + 1) = some [] := by
            cases fuel with
            | zero => rfl
            | succ fuel => rw [convertRegexLoop, hrest]
          rw [hend] at hloop
          cases hloop
          have hnone : tokens caseless [chr '\\'] = none := rfl
          refine ⟨rfl, iff_of_false ?_ ?_⟩
          · rw [append_nil, fixed, hnone]
            rintro ⟨⟩
          · intro hfrom
            rw [RepeatsFrom, hdrop] at hfrom
            exact absurd hfrom.1 (by decide)
        | cons c rest =>
          obtain ⟨hlen, hreads, hstar, hplus⟩ :=
            @convertRegexStep_escape caseless c p rest n r hstep
          have hnext : p[n + 1]? = some c := getElem?_of_drop hrest
          have hrest' : p.drop (n + 2) = rest := drop_succ_of_drop hrest
          have hwhole' : whole (p.take (n + 2)) = true := by
            rw [take_add_one, hnext, htake, toList_some, append_assoc, whole_append hwhole]
            rfl
          have hbehind' : decide (c ∈ classLetters tab) = true ↔
              2 ≤ n + 2 ∧ ClassAt tab p (n + 2 - 2) := by
            rw [decide_eq_true_iff, Nat.add_sub_cancel, and_iff_right (Nat.le_add_left 2 n),
              ClassAt, and_iff_right hwhole, and_iff_right hget, hnext]
            constructor
            · exact fun hc => ⟨c, hc, rfl⟩
            · rintro ⟨d, hd, heq⟩
              exact some.inj heq ▸ hd
          rw [hlen] at hloop
          obtain ⟨before', hfixed⟩ := hreads.fixed_append before text'
          obtain ⟨hgroup, hiff⟩ := ih before' (by omega) hloop hwhole' hbehind'
          rw [hfixed]
          refine ⟨hreads.groupOption_append _, ?_⟩
          rw [hreads.tokens_append _ hgroup, denoted, if_pos rfl,
            repeatsFrom_escape hdrop hstar hplus, ← hiff, hrest']
          exact map_append_eq_iff
      · have hwhole' : whole (p.take (n + 1)) = true := by
          rw [htake, whole_append hwhole]
          simpa [whole] using hb
        have hbehind' : false = true ↔ 2 ≤ n + 1 ∧ ClassAt tab p (n + 1 - 2) := by
          refine iff_of_false Bool.false_ne_true ?_
          rintro ⟨hle, hclass⟩
          obtain ⟨m, rfl⟩ : ∃ m, n = m + 1 := ⟨n - 1, by omega⟩
          exact not_classAt_of_whole hwhole hclass
        by_cases hquantifier : LooksBack p n ∧ (b = chr '*' ∨ b = chr '+')
        · obtain ⟨hlooks, hq⟩ := hquantifier
          rw [convertRegexStep_quantifier hq hlooks] at hstep
          cases hstep
          obtain ⟨hgroup, htokens⟩ := @tokens_quantifier caseless b hq before text'
          obtain ⟨-, hiff⟩ := ih (some (chr '?')) (by omega) hloop hwhole' hbehind'
          refine ⟨hgroup, ?_⟩
          rw [cons_append, cons_append, nil_append, htokens, denoted_cons hb]
          cases behindClass with
          | true =>
            have hclass : ClassAt tab p (n - 2) := (hbehind.mp rfl).2
            rw [map_append_eq_iff, ← hrest, hiff, repeatsFrom_succ hdrop hb fun _ _ => hclass]
          | false =>
            -- PCRE2 repeats something, and the pattern says a byte
            refine iff_of_false ?_ fun hfrom => ?_
            · intro h
              obtain ⟨l, -, heq⟩ := map_eq_some_iff.mp h
              rcases hq with rfl | rfl
              · cases (List.cons.inj heq).1
              · cases (List.cons.inj heq).1
            · have hclass := hfrom.2 (n - 2) (by omega) hlooks.2
              rw [Nat.sub_add_cancel hlooks.1, hget] at hclass
              have hclass := hclass (hq.imp (congrArg some) (congrArg some))
              exact absurd (hbehind.mpr ⟨hlooks.1, hclass⟩) Bool.false_ne_true
        · have hlooks : LooksBack p n → b ≠ chr '*' ∧ b ≠ chr '+' := fun h =>
            ⟨fun hq => hquantifier ⟨h, .inl hq⟩, fun hq => hquantifier ⟨h, .inr hq⟩⟩
          obtain ⟨piece, hpiece, hreads⟩ := @convertRegexStep_byte caseless b p rest n hb hlooks
          rw [hpiece] at hstep
          cases hstep
          obtain ⟨before', hfixed⟩ := hreads.fixed_append before text'
          obtain ⟨hgroup, hiff⟩ := ih before' (by omega) hloop hwhole' hbehind'
          have hsame : denotedByte caseless behindClass b = denotedByte caseless false b := by
            cases hclass : behindClass with
            | true =>
              obtain ⟨hle, hat⟩ := hbehind.mp hclass
              obtain ⟨hstar, hplus⟩ := hlooks ⟨hle, hat.2.1⟩
              simp [denotedByte, hstar, hplus]
            | false => rfl
          rw [hfixed]
          refine ⟨hreads.groupOption_append _, ?_⟩
          rw [hreads.tokens_append _ hgroup, denoted_cons hb, hsame, map_append_eq_iff, ← hrest,
            hiff, repeatsFrom_succ hdrop hb fun hback hq => absurd ⟨hback, hq⟩ hquantifier]

theorem repeatsFrom_zero : RepeatsFrom tab p 0 ↔ RepeatsClasses tab p := by
  rw [RepeatsFrom, RepeatsClasses, drop_zero]
  refine and_congr_right fun _ => ⟨fun h i _ => h i (Nat.zero_le _), fun h i _ hback => ?_⟩
  exact h i (List.getElem?_eq_some_iff.mp hback).1 hback

/-- PCRE2 reads in a converted pattern what the pattern says, unless the pattern ends in the middle
of an escape, or has a `*` or a `+` two bytes behind a backslash but not directly behind a class. -/
theorem reads_denoted_iff {substitute : Bytes → Option Bytes} {converted : Bytes}
    (hsubstitute : Substitutes substitute) (h : convertRegex substitute p = some converted) :
    tokens caseless converted = some (denoted caseless tab false p) ↔ RepeatsClasses tab p := by
  obtain ⟨text, hloop, rfl⟩ := map_eq_some_iff.mp h
  have hbehind : false = true ↔ 2 ≤ 0 ∧ ClassAt tab p (0 - 2) :=
    iff_of_false Bool.false_ne_true fun h => absurd h.1 (by decide)
  obtain ⟨-, hiff⟩ := @tokens_convertRegexLoop_iff caseless tab p text 0 p.length false none
    (Nat.le_add_left _ _) hloop rfl hbehind
  rw [hsubstitute text, ← repeatsFrom_zero, ← hiff, drop_zero]

/-- Classes with and without a repetition. -/
theorem reads_denoted_word :
    tokens true (lit "[A-Za-z0-9@_-]+? [0-9]+") =
      some (denoted true false false (lit "\\w+ \\d+")) :=
  (@reads_denoted_iff true false (lit "\\w+ \\d+") (fun text => some (fixed none text))
    (lit "[A-Za-z0-9@_-]+? [0-9]+") (fun _ => rfl) (by decide)).mpr (by decide)

/-- The byte behind an escaped backslash is converted to a repetition of the backslash. -/
theorem not_reads_denoted :
    convertRegex (fun text => some (fixed none text)) (lit "\\\\*") = some (lit "\\\\*?") ∧
      ∀ tab, tokens false (lit "\\\\*?") ≠ some (denoted false tab false (lit "\\\\*")) := by
  refine ⟨by decide, fun tab h => ?_⟩
  have hread : tokens false (lit "\\\\*?") = some [itself false (chr '\\'), .star] := rfl
  have hdenoted : denoted false tab false (lit "\\\\*") =
      [itself false (chr '\\'), itself false (chr '*')] := by
    cases tab <;> rfl
  rw [hread, hdenoted] at h
  cases (List.cons.inj (List.cons.inj (some.inj h)).2).1

end OsRegex
