import OssecHids.Lib.CString

/-!
# Regular expressions of PCRE2

The part of the pattern language in which patterns are lists of pieces: single bytes and classes,
which may be repeated, and assertions. Bytes are matched as they are, or without regard to case; the
newline is `\n`.

- `search`: where a pattern matches in a subject;
- `parse`: what a text says, as far as it stays in this part of the language;
- `Documented`: what is promised of an engine;
- `matches_bytes`, `isSome_search`: what a match of literal text is.
-/

open CString List

namespace Pcre2

/-! ## Patterns -/

/-- `tolower` in the C locale. -/
def tolower (b : UInt8) : UInt8 := if 65 ≤ b ∧ b ≤ 90 then b + 32 else b

/-- `toupper` in the C locale. -/
def toupper (b : UInt8) : UInt8 := if 97 ≤ b ∧ b ≤ 122 then b - 32 else b

/-- What is compared of a byte. -/
def fold (caseless : Bool) (b : UInt8) : UInt8 := if caseless then tolower b else b

/-- What matches a single byte; a class is a list of ranges. -/
inductive Atom
  | byte (b : UInt8)
  | set (negated : Bool) (ranges : List (UInt8 × UInt8))
  deriving DecidableEq, Repr

inductive Piece
  | one (a : Atom)
  | opt (a : Atom)
  | star (a : Atom)
  | plus (a : Atom)
  /-- `^` -/
  | bol
  /-- `$` -/
  | eol
  /-- `(?!\n)` -/
  | notNewline
  deriving DecidableEq, Repr

/-- The alternatives of a pattern, each of which is a sequence of pieces. -/
abbrev Alternatives := List (List Piece)

/-! ## Matching -/

def Atom.holds (caseless : Bool) : Atom → UInt8 → Bool
  | byte b, c => fold caseless b == fold caseless c
  | set negated ranges, c =>
    (ranges.any fun r => (r.1 ≤ c && c ≤ r.2) ||
      (caseless && ((r.1 ≤ tolower c && tolower c ≤ r.2) ||
        (r.1 ≤ toupper c && toupper c ≤ r.2)))) != negated

/-- The places where some bytes with `a` can end, most bytes first; a place is the rest of the
subject, and whether it is the start. -/
def starEnds (caseless : Bool) (a : Atom) : Bool → Bytes → List (Bool × Bytes)
  | start, [] => [(start, [])]
  | start, c :: s =>
    (if a.holds caseless c then starEnds caseless a false s else []) ++ [(start, c :: s)]

/-- The places where a single byte with `a` can end. -/
def oneEnds (caseless : Bool) (a : Atom) : Bytes → List (Bool × Bytes)
  | [] => []
  | c :: s => if a.holds caseless c then [(false, s)] else []

/-- The places where a piece can end, in the order in which they are tried. -/
def Piece.ends (caseless : Bool) (p : Piece) (start : Bool) (s : Bytes) : List (Bool × Bytes) :=
  match p with
  | one a => oneEnds caseless a s
  | opt a => oneEnds caseless a s ++ [(start, s)]
  | star a => starEnds caseless a start s
  | plus a => (oneEnds caseless a s).flatMap fun e => starEnds caseless a e.1 e.2
  | bol => if start then [(start, s)] else []
  | eol => if s = [] ∨ s = [chr '\n'] then [(start, s)] else []
  | notNewline => if s.head? = some (chr '\n') then [] else [(start, s)]

/-- What is behind a match of the pieces at a place. -/
def matchFrom (caseless : Bool) : List Piece → Bool → Bytes → Option Bytes
  | [], _, s => some s
  | p :: ps, start, s => (p.ends caseless start s).findSome? fun e => matchFrom caseless ps e.1 e.2

/-- What is behind the first match at a place or a later one. -/
def searchFrom (caseless : Bool) (alts : Alternatives) : Bool → Bytes → Option Bytes
  | start, [] => alts.findSome? fun ps => matchFrom caseless ps start []
  | start, c :: s =>
    (alts.findSome? fun ps => matchFrom caseless ps start (c :: s)).or
      (searchFrom caseless alts false s)

/-- Where the first match in a subject ends. -/
def search (caseless : Bool) (alts : Alternatives) (s : Bytes) : Option ℕ :=
  (searchFrom caseless alts true s).map fun rest => s.length - rest.length

/-! ## Syntax -/

/-- The bytes that do not stand for themselves outside of a class. -/
def metacharacters : Bytes := lit "\\^$.[|()?*+\x7b"

def isAlnum (b : UInt8) : Bool := isDigit b || (65 ≤ b && b ≤ 90) || (97 ≤ b && b ≤ 122)

/-- The rest of a class, up to its `]`. -/
def parseRanges : ℕ → Bytes → Option (List (UInt8 × UInt8) × Bytes)
  | 0, _ => none
  | _ + 1, [] => none
  | fuel + 1, b :: rest =>
    if b = chr ']' then some ([], rest)
    else if b = chr '[' ∨ b = chr '\\' then none
    else
      match rest with
      | dash :: last :: rest' =>
        if dash = chr '-' ∧ last ≠ chr ']' then
          if last = chr '[' ∨ last = chr '\\' ∨ last < b then none
          else (parseRanges fuel rest').map fun r => ((b, last) :: r.1, r.2)
        else (parseRanges fuel rest).map fun r => ((b, b) :: r.1, r.2)
      | _ => (parseRanges fuel rest).map fun r => ((b, b) :: r.1, r.2)

/-- A byte that stands for itself, one behind a backslash, or a class. -/
def parseAtom : Bytes → Option (Atom × Bytes)
  | [] => none
  | b :: rest =>
    if b = chr '\\' then
      match rest with
      | [] => none
      | c :: rest => if isAlnum c then none else some (.byte c, rest)
    else if b = chr '[' then
      match rest with
      | [] => none
      | c :: rest' =>
        let negated := c = chr '^'
        let body := if negated then rest' else rest
        if body.head? = some (chr ']') then none
        else (parseRanges body.length body).map fun r => (.set negated r.1, r.2)
    else if b ∈ metacharacters then none
    else some (.byte b, rest)

/-- An atom and its quantifier. -/
def parseQuantified (text : Bytes) : Option (Piece × Bytes) :=
  (parseAtom text).bind fun r =>
    match r.2 with
    | [] => some (.one r.1, [])
    | q :: rest =>
      if q = chr '\x7b' then none
      else
        let quantified (p : Piece) : Option (Piece × Bytes) :=
          -- a second `?` or `+` changes how much is taken
          if rest.head? ∈ [some (chr '?'), some (chr '+'), some (chr '*')] then none
          else some (p, rest)
        if q = chr '?' then quantified (.opt r.1)
        else if q = chr '*' then quantified (.star r.1)
        else if q = chr '+' then quantified (.plus r.1)
        else some (.one r.1, q :: rest)

/-- Whether a quantifier follows, where an assertion does not take one. -/
def quantifierFollows (text : Bytes) : Bool :=
  text.head? ∈ [some (chr '?'), some (chr '*'), some (chr '+'), some (chr '\x7b')]

def parsePiece (text : Bytes) : Option (Piece × Bytes) :=
  match text with
  | [] => none
  | b :: rest =>
    if b = chr '^' then if quantifierFollows rest then none else some (.bol, rest)
    else if b = chr '$' then if quantifierFollows rest then none else some (.eol, rest)
    else if (lit "(?!\\n)").isPrefixOf text then
      let rest := text.drop (lit "(?!\\n)").length
      if quantifierFollows rest then none else some (.notNewline, rest)
    else parseQuantified text

/-- The pieces up to the end of the text, and its alternatives. -/
def parseLoop : ℕ → Bytes → Option Alternatives
  | 0, _ => none
  | _ + 1, [] => some [[]]
  | fuel + 1, b :: rest =>
    if b = chr '|' then (parseLoop fuel rest).map ([] :: ·)
    else
      (parsePiece (b :: rest)).bind fun r => (parseLoop fuel r.2).bind fun alts =>
        match alts with
        | [] => none
        | ps :: alts => some ((r.1 :: ps) :: alts)

/-- What a text says, if it stays in this part of the language. -/
def parse (text : Bytes) : Option Alternatives := parseLoop (text.length + 1) text

/-! ## Engines -/

/-- An engine: for a pattern, if it is one, where its first match in a subject ends. -/
abbrev Engine := Bytes → Bool → Option (Bytes → Option ℕ)

/-- An engine compiles and matches this part of the language as described. -/
structure Documented (pcre2 : Engine) : Prop where
  compile : ∀ text alts, parse text = some alts → ∀ caseless,
    ∃ code, pcre2 text caseless = some code ∧ ∀ subject, code subject = search caseless alts subject

/-- An engine for this part of the language. -/
def reference : Engine := fun text caseless => (parse text).map (search caseless)

theorem documented_reference : Documented reference where
  compile := fun text alts h caseless => by
    refine ⟨search caseless alts, ?_, fun _ => rfl⟩
    rw [reference, h, Option.map_some]

/-! ## Bytes that are no letters -/

section Letters

variable {b c : UInt8}

theorem tolower_eq_iff (hc : isAlnum c = false) : tolower b = c ↔ b = c := by
  simp only [isAlnum, isDigit, Bool.or_eq_false_iff, Bool.and_eq_false_iff,
    decide_eq_false_iff_not, UInt8.le_iff_toNat_le, UInt8.toNat_ofNat] at hc
  rw [tolower]
  simp only [UInt8.le_iff_toNat_le, ← UInt8.toNat_inj]
  split_ifs with hupper
  · simp [UInt8.toNat_add] at *
    omega
  · exact Iff.rfl

theorem toupper_eq_iff (hc : isAlnum c = false) : toupper b = c ↔ b = c := by
  simp only [isAlnum, isDigit, Bool.or_eq_false_iff, Bool.and_eq_false_iff,
    decide_eq_false_iff_not, UInt8.le_iff_toNat_le, UInt8.toNat_ofNat] at hc
  rw [toupper]
  simp only [UInt8.le_iff_toNat_le, ← UInt8.toNat_inj]
  split_ifs with hlower
  · simp [UInt8.toNat_sub] at *
    omega
  · exact Iff.rfl

theorem fold_eq_iff {caseless : Bool} (hc : isAlnum c = false) : fold caseless b = c ↔ b = c := by
  cases caseless with
  | false => exact Iff.rfl
  | true => exact tolower_eq_iff hc

theorem le_and_le_iff : c ≤ b ∧ b ≤ c ↔ b = c :=
  ⟨fun h => UInt8.le_antisymm h.2 h.1, fun h => h ▸ ⟨UInt8.le_refl _, UInt8.le_refl _⟩⟩

/-- In a class, bytes that are no letters stand for themselves. -/
theorem holds_append_map {l : Bytes} (hl : ∀ c ∈ l, isAlnum c = false) {caseless negated : Bool}
    {ranges : List (UInt8 × UInt8)} :
    (Atom.set negated (ranges ++ l.map fun c => (c, c))).holds caseless b =
      (((Atom.set false ranges).holds caseless b || decide (b ∈ l)) != negated) := by
  have hany : ((l.map fun c => (c, c)).any fun r => (r.1 ≤ b && b ≤ r.2) ||
      (caseless && ((r.1 ≤ tolower b && tolower b ≤ r.2) ||
        (r.1 ≤ toupper b && toupper b ≤ r.2)))) = decide (b ∈ l) := by
    rw [any_map, Bool.eq_iff_iff, any_eq_true, decide_eq_true_iff]
    constructor
    · rintro ⟨c, hc, h⟩
      simp only [Function.comp, Bool.or_eq_true, Bool.and_eq_true, decide_eq_true_eq,
        le_and_le_iff, tolower_eq_iff (hl c hc), toupper_eq_iff (hl c hc), or_self] at h
      have heq : b = c := h.elim id And.right
      exact heq ▸ hc
    · intro hb
      exact ⟨b, hb, by simp⟩
  rw [Atom.holds, Atom.holds, any_append, hany, Bool.bne_false]

theorem holds_alnum (caseless : Bool) :
    (Atom.set false [(65, 90), (97, 122), (48, 57)]).holds caseless b = isAlnum b := by
  rw [Bool.eq_iff_iff]
  simp only [Atom.holds, isAlnum, isDigit, tolower, toupper, any_cons, any_nil]
  cases caseless
  · simp [UInt8.le_iff_toNat_le]
    omega
  · simp [UInt8.le_iff_toNat_le]
    split_ifs <;> simp [UInt8.toNat_sub, UInt8.toNat_add] at * <;> omega

theorem holds_digit (caseless : Bool) :
    (Atom.set false [(48, 57)]).holds caseless b = isDigit b := by
  simp only [Atom.holds, isDigit, tolower, toupper, any_cons, any_nil]
  cases caseless
  · simp [UInt8.le_iff_toNat_le]
  · simp [UInt8.le_iff_toNat_le]
    split_ifs <;> simp [UInt8.toNat_sub, UInt8.toNat_add] at * <;> omega

theorem mem_map_ofNat {lo n : ℕ} (h : lo + n ≤ 256) :
    b ∈ (List.range' lo n).map UInt8.ofNat ↔ lo ≤ b.toNat ∧ b.toNat < lo + n := by
  simp only [mem_map, mem_range'_1]
  constructor
  · rintro ⟨k, hk, rfl⟩
    have hsize : k < UInt8.size := by simp only [UInt8.size]; omega
    rwa [UInt8.toNat_ofNat_of_lt' hsize]
  · intro hb
    exact ⟨_, hb, UInt8.ofNat_toNat⟩

theorem mem_lit_alnum :
    b ∈ lit "abcdefghijklmnopqrstuvwxyzABCDEFGHIJKLMNOPQRSTUVWXYZ0123456789" ↔
      isAlnum b = true := by
  have hlit : lit "abcdefghijklmnopqrstuvwxyzABCDEFGHIJKLMNOPQRSTUVWXYZ0123456789" =
      (List.range' 97 26).map UInt8.ofNat ++ (List.range' 65 26).map UInt8.ofNat ++
        (List.range' 48 10).map UInt8.ofNat := by
    decide
  rw [hlit, mem_append, mem_append, mem_map_ofNat (by decide), mem_map_ofNat (by decide),
    mem_map_ofNat (by decide)]
  simp [isAlnum, isDigit, UInt8.le_iff_toNat_le]
  omega

end Letters

/-! ## Matches -/

variable {caseless start : Bool} {a : Atom} {p : Piece} {ps : List Piece} {alts : Alternatives}
  {s : Bytes}

/-- The pieces match at a place. -/
def Matches (caseless : Bool) (ps : List Piece) (start : Bool) (s : Bytes) : Prop :=
  (matchFrom caseless ps start s).isSome

theorem matches_nil : Matches caseless [] start s := rfl

theorem matches_cons :
    Matches caseless (p :: ps) start s ↔
      ∃ e ∈ p.ends caseless start s, Matches caseless ps e.1 e.2 := by
  rw [Matches, matchFrom, findSome?_isSome_iff]
  rfl

/-- A pattern matches in a subject when one of its alternatives matches somewhere. -/
theorem isSome_search :
    (search caseless alts s).isSome ↔
      ∃ ps ∈ alts, ∃ pre suf, s = pre ++ suf ∧ Matches caseless ps pre.isEmpty suf := by
  have hfrom : ∀ start, (searchFrom caseless alts start s).isSome ↔
      ∃ ps ∈ alts, ∃ pre suf, s = pre ++ suf ∧ Matches caseless ps (start && pre.isEmpty) suf := by
    induction s with
    | nil =>
      intro start
      rw [searchFrom, findSome?_isSome_iff]
      refine exists_congr fun ps => and_congr_right fun _ => ⟨fun h => ⟨[], [], rfl, ?_⟩, ?_⟩
      · simpa [Matches] using h
      · rintro ⟨pre, suf, heq, h⟩
        obtain ⟨rfl, rfl⟩ := append_eq_nil_iff.mp heq.symm
        simpa [Matches] using h
    | cons c s ih =>
      intro start
      rw [searchFrom, Option.isSome_or, Bool.or_eq_true, findSome?_isSome_iff, ih]
      constructor
      · rintro (⟨ps, hps, h⟩ | ⟨ps, hps, pre, suf, rfl, h⟩)
        · exact ⟨ps, hps, [], c :: s, rfl, by simpa [Matches] using h⟩
        · exact ⟨ps, hps, c :: pre, suf, rfl, by simpa [Matches] using h⟩
      · rintro ⟨ps, hps, pre, suf, heq, h⟩
        cases pre with
        | nil =>
          left
          obtain rfl : c :: s = suf := heq
          exact ⟨ps, hps, by simpa [Matches] using h⟩
        | cons d pre =>
          right
          obtain ⟨rfl, rfl⟩ := List.cons.inj heq
          exact ⟨ps, hps, pre, suf, rfl, by simpa [Matches] using h⟩
  rw [search, Option.isSome_map, hfrom]
  simp

/-! ### Literal text -/

/-- The pieces of a literal text. -/
def bytes (t : Bytes) : List Piece := t.map fun b => .one (.byte b)

/-- Two texts are the same, with or without regard to case. -/
def Same (caseless : Bool) (s t : Bytes) : Prop := s.map (fold caseless) = t.map (fold caseless)

instance (caseless : Bool) (s t : Bytes) : Decidable (Same caseless s t) :=
  inferInstanceAs (Decidable (_ = _))

theorem Same.length_eq {t : Bytes} (h : Same caseless s t) : s.length = t.length := by
  simpa using congrArg List.length h

/-- A literal text, and what is behind it. -/
theorem matches_bytes {t : Bytes} :
    Matches caseless (bytes t ++ ps) start s ↔
      ∃ x rest, s = x ++ rest ∧ Same caseless x t ∧ Matches caseless ps (start && t.isEmpty) rest := by
  induction t generalizing start s with
  | nil =>
    constructor
    · intro h
      exact ⟨[], s, rfl, rfl, by simpa [bytes] using h⟩
    · rintro ⟨x, rest, rfl, hx, h⟩
      obtain rfl : x = [] := length_eq_zero_iff.mp hx.length_eq
      simpa [bytes] using h
  | cons b t ih =>
    have hcons : bytes (b :: t) ++ ps = .one (.byte b) :: (bytes t ++ ps) := rfl
    rw [hcons, matches_cons]
    cases s with
    | nil =>
      constructor
      · rintro ⟨e, he, -⟩
        cases he
      · rintro ⟨x, rest, heq, hx, -⟩
        obtain ⟨rfl, rfl⟩ := append_eq_nil_iff.mp heq.symm
        exact absurd hx.length_eq (by simp)
    | cons c s =>
      constructor
      · rintro ⟨e, he, h⟩
        rw [Piece.ends, oneEnds] at he
        split_ifs at he with hc
        · rw [mem_singleton.mp he] at h
          obtain ⟨x, rest, rfl, hx, hrest⟩ := ih.mp h
          have hbc : fold caseless b = fold caseless c := beq_iff_eq.mp hc
          refine ⟨c :: x, rest, rfl, ?_, by simpa using hrest⟩
          rw [Same, map_cons, map_cons, hbc, hx]
        · cases he
      · rintro ⟨x, rest, heq, hx, hrest⟩
        cases x with
        | nil => exact absurd hx.length_eq (by simp)
        | cons d x =>
          obtain ⟨rfl, rfl⟩ := List.cons.inj heq
          obtain ⟨hd, hx⟩ := List.cons.inj hx
          refine ⟨(false, x ++ rest), ?_, ih.mpr ⟨x, rest, rfl, hx, by simpa using hrest⟩⟩
          have hholds : (Atom.byte b).holds caseless c = true := beq_iff_eq.mpr hd.symm
          rw [Piece.ends, oneEnds, if_pos hholds]
          exact mem_singleton_self _

theorem matches_bol :
    Matches caseless (.bol :: ps) start s ↔ start = true ∧ Matches caseless ps true s := by
  rw [matches_cons, Piece.ends]
  cases start <;> simp

theorem matches_eol :
    Matches caseless (.eol :: ps) start s ↔
      (s = [] ∨ s = [chr '\n']) ∧ Matches caseless ps start s := by
  rw [matches_cons, Piece.ends]
  split_ifs with h <;> simp [h]

theorem matches_notNewline :
    Matches caseless (.notNewline :: ps) start s ↔
      s.head? ≠ some (chr '\n') ∧ Matches caseless ps start s := by
  rw [matches_cons, Piece.ends]
  split_ifs with h <;> simp [h]

theorem matches_opt :
    Matches caseless (.opt a :: ps) start s ↔
      Matches caseless (.one a :: ps) start s ∨ Matches caseless ps start s := by
  rw [matches_cons, matches_cons]
  simp [Piece.ends, or_and_right, exists_or]

theorem matches_one :
    Matches caseless (.one a :: ps) start s ↔
      ∃ c rest, s = c :: rest ∧ a.holds caseless c ∧ Matches caseless ps false rest := by
  rw [matches_cons, Piece.ends]
  cases s with
  | nil => simp [oneEnds]
  | cons c s =>
    rw [oneEnds]
    split_ifs with h <;> simp [h]

/-- Some bytes of a class, and what is behind them. -/
theorem matches_star :
    Matches caseless (.star a :: ps) start s ↔
      ∃ x rest, s = x ++ rest ∧ (∀ c ∈ x, a.holds caseless c) ∧
        Matches caseless ps (start && x.isEmpty) rest := by
  rw [matches_cons, Piece.ends]
  induction s generalizing start with
  | nil =>
    rw [starEnds]
    constructor
    · rintro ⟨e, he, h⟩
      rw [mem_singleton.mp he] at h
      exact ⟨[], [], rfl, by simp, by simpa using h⟩
    · rintro ⟨x, rest, heq, -, h⟩
      obtain ⟨rfl, rfl⟩ := append_eq_nil_iff.mp heq.symm
      exact ⟨_, mem_singleton_self _, by simpa using h⟩
  | cons c s ih =>
    rw [starEnds]
    constructor
    · rintro ⟨e, he, h⟩
      rcases mem_append.mp he with he | he
      · split_ifs at he with hc
        · obtain ⟨x, rest, rfl, hx, hrest⟩ := ih.mp ⟨e, he, h⟩
          exact ⟨c :: x, rest, rfl, forall_mem_cons.mpr ⟨hc, hx⟩, by simpa using hrest⟩
        · cases he
      · rw [mem_singleton.mp he] at h
        exact ⟨[], c :: s, rfl, by simp, by simpa using h⟩
    · rintro ⟨x, rest, heq, hx, h⟩
      cases x with
      | nil =>
        obtain rfl : c :: s = rest := heq
        exact ⟨_, mem_append_right _ (mem_singleton_self _), by simpa using h⟩
      | cons d x =>
        obtain ⟨rfl, rfl⟩ := List.cons.inj heq
        obtain ⟨hc, hx⟩ := forall_mem_cons.mp hx
        have hrest : Matches caseless ps (false && x.isEmpty) rest := by simpa using h
        obtain ⟨e, he, h⟩ := ih.mpr ⟨x, rest, rfl, hx, hrest⟩
        rw [if_pos hc]
        exact ⟨e, mem_append_left _ he, h⟩

theorem matches_plus :
    Matches caseless (.plus a :: ps) start s ↔
      Matches caseless (.one a :: .star a :: ps) start s := by
  rw [matches_cons, matches_cons, Piece.ends]
  simp only [matches_cons, mem_flatMap, Piece.ends]
  constructor
  · rintro ⟨e, ⟨e', he', he⟩, h⟩
    exact ⟨e', he', e, he, h⟩
  · rintro ⟨e', he', e, he, h⟩
    exact ⟨e, ⟨e', he', he⟩, h⟩

/-! ### Anchored text -/

variable {t : Bytes}

/-- The subject starts with a text. -/
def StartsWith (caseless : Bool) (t s : Bytes) : Prop :=
  ∃ x rest, s = x ++ rest ∧ Same caseless x t

/-- The subject ends with a text. -/
def EndsWith (caseless : Bool) (t s : Bytes) : Prop :=
  ∃ pre x, s = pre ++ x ∧ Same caseless x t

theorem isSome_search_singleton :
    (search caseless [ps] s).isSome ↔
      ∃ pre suf, s = pre ++ suf ∧ Matches caseless ps pre.isEmpty suf := by
  rw [isSome_search]
  simp

theorem search_bol :
    (search caseless [.bol :: ps] s).isSome ↔ Matches caseless ps true s := by
  rw [isSome_search_singleton]
  constructor
  · rintro ⟨pre, suf, rfl, h⟩
    rw [matches_bol, List.isEmpty_iff] at h
    obtain ⟨rfl, h⟩ := h
    exact h
  · intro h
    exact ⟨[], s, rfl, matches_bol.mpr ⟨rfl, h⟩⟩

theorem search_bol_bytes :
    (search caseless [.bol :: bytes t] s).isSome ↔ StartsWith caseless t s := by
  rw [search_bol, ← append_nil (bytes t), matches_bytes]
  simp [matches_nil, StartsWith]

theorem search_bol_bytes_eol :
    (search caseless [.bol :: (bytes t ++ [.eol])] s).isSome ↔
      Same caseless s t ∨ ∃ x, s = x ++ [chr '\n'] ∧ Same caseless x t := by
  rw [search_bol, matches_bytes]
  simp only [matches_eol, matches_nil, and_true]
  constructor
  · rintro ⟨x, rest, rfl, hx, rfl | rfl⟩
    · exact .inl (by rwa [append_nil])
    · exact .inr ⟨x, rfl, hx⟩
  · rintro (h | ⟨x, rfl, hx⟩)
    · exact ⟨s, [], (append_nil s).symm, h, .inl rfl⟩
    · exact ⟨x, [chr '\n'], rfl, hx, .inr rfl⟩

theorem search_bytes_eol :
    (search caseless [bytes t ++ [.eol]] s).isSome ↔
      EndsWith caseless t s ∨ ∃ x, s = x ++ [chr '\n'] ∧ EndsWith caseless t x := by
  rw [isSome_search_singleton]
  simp only [matches_bytes, matches_eol, matches_nil, and_true]
  constructor
  · rintro ⟨pre, suf, rfl, x, rest, rfl, hx, rfl | rfl⟩
    · exact .inl ⟨pre, x, by rw [append_nil], hx⟩
    · exact .inr ⟨pre ++ x, by rw [append_assoc], pre, x, rfl, hx⟩
  · rintro (⟨pre, x, rfl, hx⟩ | ⟨_, rfl, pre, x, rfl, hx⟩)
    · exact ⟨pre, x, rfl, x, [], (append_nil x).symm, hx, .inl rfl⟩
    · exact ⟨pre, x ++ [chr '\n'], by rw [append_assoc], x, [chr '\n'], rfl, hx, .inr rfl⟩

theorem matches_notNewline_eol :
    Matches caseless [.notNewline, .eol] start s ↔ s = [] := by
  rw [matches_notNewline, matches_eol]
  constructor
  · rintro ⟨hne, rfl | rfl, -⟩
    · rfl
    · exact absurd rfl hne
  · rintro rfl
    exact ⟨by simp, .inl rfl, rfl⟩

theorem search_bol_bytes_end :
    (search caseless [.bol :: (bytes t ++ [.notNewline, .eol])] s).isSome ↔ Same caseless s t := by
  rw [search_bol, matches_bytes]
  simp only [matches_notNewline_eol]
  constructor
  · rintro ⟨x, rest, rfl, hx, rfl⟩
    rwa [append_nil]
  · intro h
    exact ⟨s, [], (append_nil s).symm, h, rfl⟩

theorem search_bytes_end :
    (search caseless [bytes t ++ [.notNewline, .eol]] s).isSome ↔ EndsWith caseless t s := by
  rw [isSome_search_singleton]
  simp only [matches_bytes, matches_notNewline_eol]
  constructor
  · rintro ⟨pre, suf, rfl, x, rest, rfl, hx, rfl⟩
    exact ⟨pre, x, by rw [append_nil], hx⟩
  · rintro ⟨pre, x, rfl, hx⟩
    exact ⟨pre, x, rfl, x, [], (append_nil x).symm, hx, rfl⟩

/-! ### Reading texts -/

variable {b : UInt8} {rest : Bytes}

theorem parsePiece_bol (h : quantifierFollows rest = false) :
    parsePiece (chr '^' :: rest) = some (.bol, rest) := by
  simp [parsePiece, h]

theorem parsePiece_eol (h : quantifierFollows rest = false) :
    parsePiece (chr '$' :: rest) = some (.eol, rest) := by
  have hne : chr '$' ≠ chr '^' := by decide
  simp [parsePiece, hne, h]

theorem parsePiece_notNewline (h : quantifierFollows rest = false) :
    parsePiece (lit "(?!\\n)" ++ rest) = some (.notNewline, rest) := by
  have hlit : lit "(?!\\n)" = chr '(' :: lit "?!\\n)" := by decide
  have hcaret : chr '(' ≠ chr '^' := by decide
  have hdollar : chr '(' ≠ chr '$' := by decide
  rw [hlit, cons_append, parsePiece, if_neg hcaret, if_neg hdollar, ← cons_append, ← hlit,
    if_pos (List.isPrefixOf_iff_prefix.mpr (prefix_append _ _)), drop_left]
  dsimp only
  rw [h]
  rfl

theorem parseQuantified_one {text : Bytes} {a : Atom} (ha : parseAtom text = some (a, rest))
    (h : quantifierFollows rest = false) : parseQuantified text = some (.one a, rest) := by
  rw [parseQuantified, ha, Option.bind_some]
  cases rest with
  | nil => rfl
  | cons q rest =>
    simp only [quantifierFollows, head?_cons, mem_cons, Option.some.injEq,
      not_mem_nil, or_false, not_or, decide_eq_false_iff_not] at h
    obtain ⟨hopt, hstar, hplus, hbrace⟩ := h
    dsimp only
    rw [if_neg hbrace, if_neg hopt, if_neg hstar, if_neg hplus]

theorem parsePiece_byte (hb : b ∉ metacharacters) (h : quantifierFollows rest = false) :
    parsePiece (b :: rest) = some (.one (.byte b), rest) := by
  have hne : ∀ c ∈ metacharacters, b ≠ c := fun c hc heq => hb (heq ▸ hc)
  have hprefix : (lit "(?!\\n)").isPrefixOf (b :: rest) = false := by
    have hlit : lit "(?!\\n)" = chr '(' :: lit "?!\\n)" := by decide
    rw [hlit, isPrefixOf_cons_cons, Bool.and_eq_false_iff]
    exact .inl (beq_eq_false_iff_ne.mpr (hne _ (by decide)).symm)
  rw [parsePiece, if_neg (hne _ (by decide)), if_neg (hne _ (by decide)), hprefix]
  refine parseQuantified_one ?_ h
  rw [parseAtom.eq_def]
  dsimp only
  rw [if_neg (hne _ (by decide)), if_neg (hne _ (by decide)), if_neg hb]

theorem parsePiece_escape (hb : isAlnum b = false) (h : quantifierFollows rest = false) :
    parsePiece (chr '\\' :: b :: rest) = some (.one (.byte b), rest) := by
  have hprefix : (lit "(?!\\n)").isPrefixOf (chr '\\' :: b :: rest) = false := by
    have hlit : lit "(?!\\n)" = chr '(' :: lit "?!\\n)" := by decide
    rw [hlit, isPrefixOf_cons_cons, Bool.and_eq_false_iff]
    exact .inl (by decide)
  rw [parsePiece, if_neg (by decide), if_neg (by decide), hprefix]
  refine parseQuantified_one ?_ h
  rw [parseAtom, if_pos rfl, hb]
  rfl

theorem parseLoop_piece {fuel : ℕ} (hb : b ≠ chr '|') {text : Bytes}
    (hpiece : parsePiece (b :: rest) = some (p, text)) (halts : parseLoop fuel text = some (ps :: alts)) :
    parseLoop (fuel + 1) (b :: rest) = some ((p :: ps) :: alts) := by
  rw [parseLoop, if_neg hb, hpiece, Option.bind_some]
  rw [halts, Option.bind_some]

theorem parseLoop_bar {fuel : ℕ} (halts : parseLoop fuel rest = some alts) :
    parseLoop (fuel + 1) (chr '|' :: rest) = some ([] :: alts) := by
  rw [parseLoop, if_pos rfl, halts, Option.map_some]

end Pcre2
