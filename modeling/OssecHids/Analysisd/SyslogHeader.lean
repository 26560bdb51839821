import OssecHids.Analysisd.CleanEvent
import OssecHids.Lib.Search

/-!
# Syslog headers

What the header behind a syslog date names, as a text, against what is read in the buffer.

- `syslogTokens`: the hostname, the program and the text of a header;
- `OpenAix`: a header of AIX whose program has no end;
- `hostHeader_of_not_openAix`, `tokens_syslogHeader_iff`: what is read of a header.
-/

open CString Buffer List Option

namespace CleanEvent

/-! ## Texts -/

/-- What a log says: the tokens of its header, and the text behind it. -/
structure Tokens where
  hostname : Option Bytes
  program_name : Option Bytes
  log : Bytes
  deriving DecidableEq, Repr

/-- A program and what is behind it: `p_name: `, `p_name[pid]: `, or `p_name[pid] ` where the colon
may be missing. -/
def namedProgram (bare : Bool) (s : Bytes) : Option (Bytes × Bytes) :=
  let name := s.takeWhile isValidChar
  let rest := s.dropWhile isValidChar
  if starts [is ':', is ' '] rest then some (name, rest.drop 2)
  else if starts [is '[', isDigit] rest then
    let closing := (rest.drop 2).dropWhile isDigit
    if starts [is ']', is ':', is ' '] closing then some (name, closing.drop 3)
    else if bare ∧ starts [is ']', is ' '] closing then some (name, closing.drop 2)
    else none
  else none

/-- What is behind `facility|level:severity ` of AIX. -/
def aixProgram (s : Bytes) : Option Bytes :=
  let rest := s.dropWhile isValidChar
  if starts [is '|', isLower] rest then
    let severity := (rest.drop 2).dropWhile isAlnum
    if starts [is ':'] severity then
      let program := (severity.drop 1).dropWhile isAlnum
      if starts [is ' '] program then some (program.drop 1) else none
    else none
  else none

/-- The program that a text starts with. -/
def programTokens (s : Bytes) : Option (Bytes × Bytes) :=
  match aixProgram s with
  | some program => namedProgram false program
  | none => namedProgram true s

/-- A text without `[ID xx facility.severity]`. -/
def withoutId (s : Bytes) : Bytes :=
  if (lit "[ID ").isPrefixOf s then
    match strstr (lit "] ") (s.drop 4) with
    | some rest => rest.drop 2
    | none => s
  else s

/-- What the header behind the date says. -/
def hostTokens (s : Bytes) : Tokens :=
  let name := s.takeWhile isValidChar
  let rest := s.dropWhile isValidChar
  if starts [is ':', is ' '] rest then ⟨none, some name, withoutId (rest.drop 2)⟩
  else if starts [is ' '] rest then
    match programTokens (rest.drop 1) with
    | some (program, behind) => ⟨some name, some program, withoutId behind⟩
    | none => ⟨some name, none, rest.drop 1⟩
  else ⟨none, none, s⟩

/-- What is behind the date, and a blank that may follow it. -/
def behindDate (s : Bytes) : Bytes := if starts [is ' '] s then s.drop 1 else s

/-- The header is one of AIX, and its program has neither a `: ` nor a `[pid]: ` behind it. -/
def OpenAix (s : Bytes) : Prop :=
  ¬starts [is ':', is ' '] (s.dropWhile isValidChar) ∧
    starts [is ' '] (s.dropWhile isValidChar) ∧
      ∃ program ∈ aixProgram ((s.dropWhile isValidChar).drop 1), namedProgram false program = none

instance (s : Bytes) : Decidable (OpenAix s) := inferInstanceAs (Decidable (_ ∧ _ ∧ _))

/-! ## Buffers -/

/-- The string that an offset is for, if it is one. -/
def nameAt (buf : Bytes) : Option ℕ → Option (Option Bytes)
  | none => some none
  | some p => (stringAt buf p).map some

/-- The strings of a header that was read. -/
def Header.tokens (header : Header) : Option Tokens :=
  (stringAt header.buf header.log).bind fun log =>
    (nameAt header.buf header.hostname).bind fun hostname =>
      (nameAt header.buf header.program_name).map fun program_name =>
        ⟨hostname, program_name, log⟩

variable {buf buf' s t name rest : Bytes} {p q : ℕ} {bare : Bool}

/-- What is written at a byte of a string. -/
structure Cut (buf buf' : Bytes) (p q : ℕ) (name rest : Bytes) : Prop where
  write_eq : write buf q 0 = some buf'
  stringAt_eq : stringAt buf' p = some name
  behind : At buf' (q + 1) rest
  take_eq : buf'.take p = buf.take p
  le : q = p + name.length

theorem exists_cut {b : UInt8} (h : At buf p (name ++ b :: rest)) :
    Cut buf (buf.set (p + name.length) 0) p (p + name.length) name rest where
  write_eq := h.append.write
  stringAt_eq := h.stringAt_set
  behind := h.append.tail.set (Nat.lt_succ_self _)
  take_eq := take_set_of_le (Nat.le_add_right _ _)
  le := rfl

theorem cut_takeWhile {f : UInt8 → Bool} {tests : List (UInt8 → Bool)} {g : UInt8 → Bool}
    (h : At buf p s) (hstarts : starts (g :: tests) (s.dropWhile f) = true) :
    Cut buf (buf.set (p + (s.takeWhile f).length) 0) p (p + (s.takeWhile f).length)
      (s.takeWhile f) ((s.dropWhile f).drop 1) := by
  cases hrest : s.dropWhile f with
  | nil =>
    rw [hrest] at hstarts
    exact nomatch hstarts
  | cons b rest =>
    have hsplit : At buf p (s.takeWhile f ++ b :: rest) := by
      rwa [← hrest, takeWhile_append_dropWhile]
    exact exists_cut hsplit

/-- The string goes on behind two bytes that end a name, the first of which is overwritten. -/
theorem at_cut {g g' : UInt8 → Bool} (h : At buf p s)
    (hstarts : starts [g, g'] (s.dropWhile isValidChar) = true) :
    At (buf.set (p + (s.takeWhile isValidChar).length) 0)
      (p + (s.takeWhile isValidChar).length + 2) ((s.dropWhile isValidChar).drop 2) := by
  have hlen := length_le_of_starts hstarts
  have hone : 1 ≤ ((s.dropWhile isValidChar).drop 1).length := by
    rw [length_drop]
    simp only [length_cons, length_nil] at hlen
    omega
  have hnext := (cut_takeWhile h hstarts).behind.drop hone
  rwa [drop_drop] at hnext

theorem behindName (h : At buf p s) :
    At buf (p + (s.takeWhile isValidChar).length) (s.dropWhile isValidChar) ∧
      skip isValidChar buf p = some (p + (s.takeWhile isValidChar).length) ∧
      test [is ':', is ' '] buf (p + (s.takeWhile isValidChar).length) =
        some (starts [is ':', is ' '] (s.dropWhile isValidChar)) ∧
      test [is '[', isDigit] buf (p + (s.takeWhile isValidChar).length) =
        some (starts [is '[', isDigit] (s.dropWhile isValidChar)) :=
  have hnext := h.dropWhile
  ⟨hnext, h.skip rfl, hnext.test (by decide), hnext.test (by decide)⟩

/-- What is known of a program that was read: its name, and the text behind it. -/
structure Named (buf buf' : Bytes) (p q r : ℕ) (name rest : Bytes) : Prop where
  le : p ≤ q
  lt : q + name.length < r
  stringAt_eq : stringAt buf' q = some name
  behind : At buf' r rest
  take_eq : buf'.take p = buf.take p

theorem named_colon (h : At buf p s)
    (hstarts : starts [is ':', is ' '] (s.dropWhile isValidChar) = true) :
    write buf (p + (s.takeWhile isValidChar).length) 0 =
        some (buf.set (p + (s.takeWhile isValidChar).length) 0) ∧
      Named buf (buf.set (p + (s.takeWhile isValidChar).length) 0) p p
        (p + (s.takeWhile isValidChar).length + 2) (s.takeWhile isValidChar)
        ((s.dropWhile isValidChar).drop 2) := by
  obtain ⟨hwrite, hname, -, htake, -⟩ := cut_takeWhile h hstarts
  exact ⟨hwrite, le_rfl, by omega, hname, at_cut h hstarts, htake⟩

/-- The digits behind a name are passed in the buffer that the name was cut in. -/
theorem skip_pid (h : At buf p s)
    (hstarts : starts [is '[', isDigit] (s.dropWhile isValidChar) = true) :
    ∃ buf' q r, q = p + (s.takeWhile isValidChar).length ∧ buf' = buf.set q 0 ∧
      Cut buf buf' p q (s.takeWhile isValidChar) ((s.dropWhile isValidChar).drop 1) ∧
      skip isDigit buf' (q + 2) = some r ∧
      At buf' r (((s.dropWhile isValidChar).drop 2).dropWhile isDigit) ∧
      r = q + 2 + (((s.dropWhile isValidChar).drop 2).takeWhile isDigit).length := by
  have hnext := at_cut h hstarts
  exact ⟨_, _, _, rfl, rfl, cut_takeWhile h hstarts, hnext.skip rfl, hnext.dropWhile, rfl⟩

/-- A program of AIX with its end. -/
theorem aixName_named (h : At buf p s) (hp : namedProgram false s = some (name, rest)) :
    ∃ buf' r, aixName buf p = some (buf', some p, some r) ∧ Named buf buf' p p r name rest := by
  obtain ⟨hnext, hskip, hcolon, hbracket⟩ := behindName h
  simp only [aixName, hskip, bind_eq_bind, bind_some, hcolon, hbracket]
  rw [namedProgram] at hp
  dsimp only at hp
  split_ifs at hp with hends hpid hclosed hbare
  · obtain ⟨hwrite, hnamed⟩ := named_colon h hends
    rw [if_pos hends, hwrite]
    cases hp
    exact ⟨_, _, rfl, hnamed⟩
  · obtain ⟨buf', q, r, rfl, rfl, hcut, hdigits, hat, rfl⟩ := skip_pid h hpid
    have hclosing : test [is ']', is ':', is ' '] _ _ = _ := hat.test (by decide)
    rw [if_neg hends, if_pos hpid, hcut.write_eq]
    simp only [bind_some, hdigits, hclosing, if_pos hclosed]
    cases hp
    refine ⟨_, _, rfl, le_rfl, by omega, hcut.stringAt_eq, ?_, hcut.take_eq⟩
    exact hat.drop (length_le_of_starts hclosed)
  · exact hbare.1.elim

/-- What is left of a program of AIX without an end: everything, or a text that is cut. -/
inductive Opened (buf : Bytes) (p : ℕ) (s : Bytes) : Bytes → Option ℕ → Prop
  | kept : Opened buf p s buf (some (p + (s.takeWhile isValidChar).length))
  | cut : (s.takeWhile isValidChar).length < s.length →
      Opened buf p s (buf.set (p + (s.takeWhile isValidChar).length) 0) none

theorem aixName_open (h : At buf p s) (hp : namedProgram false s = none) :
    ∃ buf' behind, aixName buf p = some (buf', some p, behind) ∧ Opened buf p s buf' behind := by
  obtain ⟨hnext, hskip, hcolon, hbracket⟩ := behindName h
  simp only [aixName, hskip, bind_eq_bind, bind_some, hcolon, hbracket]
  rw [namedProgram] at hp
  dsimp only at hp
  split_ifs at hp with hends hpid hclosed hbare
  · obtain ⟨buf', q, r, rfl, rfl, hcut, hdigits, hat, rfl⟩ := skip_pid h hpid
    have hclosing : test [is ']', is ':', is ' '] _ _ = _ := hat.test (by decide)
    rw [if_neg hends, if_pos hpid, hcut.write_eq]
    simp only [bind_some, hdigits, hclosing, if_neg hclosed]
    refine ⟨_, _, rfl, Opened.cut ?_⟩
    have hlen := length_le_of_starts hpid
    have hsplit := hnext.length_eq.symm.trans h.length_eq
    simp only [length_cons, length_nil] at hlen
    omega
  · rw [if_neg hends, if_neg hpid]
    exact ⟨_, _, rfl, Opened.kept⟩

theorem aixHeader_none (h : At buf p s)
    (hbar : starts [is '|', isLower] (s.dropWhile isValidChar) = true) (hp : aixProgram s = none) :
    aixHeader buf (p + (s.takeWhile isValidChar).length + 2) = some (buf, none, none) := by
  have hnext : At buf _ (s.dropWhile isValidChar) := h.dropWhile
  have hlevel := hnext.drop (length_le_of_starts hbar)
  have hskip : skip isAlnum buf _ = _ := hlevel.skip rfl
  have hcolon : test [is ':'] buf _ = _ := (hlevel.dropWhile (f := isAlnum)).test (by decide)
  rw [aixProgram] at hp
  dsimp only at hp
  rw [if_pos hbar] at hp
  simp only [length_cons, length_nil] at hskip hcolon
  simp only [aixHeader, hskip, bind_eq_bind, bind_some, hcolon]
  split_ifs at hp with hseverity hblank
  · have hprogram := (hlevel.dropWhile (f := isAlnum)).drop (length_le_of_starts hseverity)
    have hskip' : skip isAlnum buf _ = _ := hprogram.skip rfl
    have hspace : test [is ' '] buf _ = _ := (hprogram.dropWhile (f := isAlnum)).test (by decide)
    simp only [length_cons, length_nil] at hskip' hspace
    rw [if_pos hseverity]
    simp only [hskip', bind_some, hspace, if_neg hblank]
    rfl
  · rw [if_neg hseverity]
    rfl

theorem aixHeader_some {program : Bytes} (h : At buf p s) (hp : aixProgram s = some program) :
    starts [is '|', isLower] (s.dropWhile isValidChar) = true ∧
      ∃ r, aixHeader buf (p + (s.takeWhile isValidChar).length + 2) = aixName buf r ∧
        At buf r program ∧ p + 2 < r := by
  have hnext : At buf _ (s.dropWhile isValidChar) := h.dropWhile
  rw [aixProgram] at hp
  dsimp only at hp
  split_ifs at hp with hbar hseverity hblank
  have hlevel := hnext.drop (length_le_of_starts hbar)
  have hskip : skip isAlnum buf _ = _ := hlevel.skip rfl
  have hcolon : test [is ':'] buf _ = _ := (hlevel.dropWhile (f := isAlnum)).test (by decide)
  have hprogram := (hlevel.dropWhile (f := isAlnum)).drop (length_le_of_starts hseverity)
  have hskip' : skip isAlnum buf _ = _ := hprogram.skip rfl
  have hspace : test [is ' '] buf _ = _ := (hprogram.dropWhile (f := isAlnum)).test (by decide)
  have hname := (hprogram.dropWhile (f := isAlnum)).drop (length_le_of_starts hblank)
  simp only [length_cons, length_nil] at hskip hcolon hskip' hspace hname
  refine ⟨hbar, _, ?_, some.inj hp ▸ hname, by omega⟩
  simp only [aixHeader, hskip, bind_eq_bind, bind_some, hcolon, if_pos hseverity,
    hskip', hspace, if_pos hblank]

/-- A `[` that turns out to close nothing is written again. -/
theorem back_pid (h : At buf p s)
    (hpid : starts [is '[', isDigit] (s.dropWhile isValidChar) = true) {q r : ℕ}
    (hq : q = p + (s.takeWhile isValidChar).length)
    (hr : r = q + 2 + (((s.dropWhile isValidChar).drop 2).takeWhile isDigit).length) :
    back isDigit (buf.set q 0) (r - 1) = some q ∧ read (buf.set q 0) q = some 0 ∧
      write (buf.set q 0) q (chr '[') = some buf := by
  have hnext : At buf q (s.dropWhile isValidChar) := hq ▸ h.dropWhile
  obtain ⟨d, rest, hrest, hd⟩ : ∃ d rest, s.dropWhile isValidChar = chr '[' :: d :: rest ∧
      isDigit d = true := by
    rcases hrest : s.dropWhile isValidChar with - | ⟨b, - | ⟨d, rest⟩⟩
    · rw [hrest] at hpid
      cases hpid
    · rw [hrest, starts, Bool.and_eq_true] at hpid
      cases hpid.2
    · rw [hrest, starts, starts, starts, Bool.and_true, Bool.and_eq_true] at hpid
      exact ⟨d, rest, by rw [beq_iff_eq.mp hpid.1], hpid.2⟩
  rw [hrest] at hnext hr
  have hlen := hnext.length_eq
  have hread : read (buf.set q 0) q = some 0 := by
    rw [Buffer.read, List.getElem?_set_self (by omega)]
  refine ⟨back_eq hread rfl (by omega) fun i hi hir => ?_, hread, ?_⟩
  · -- a digit of the run behind the bracket
    have hrun : ∀ c ∈ d :: rest.takeWhile isDigit, isDigit c = true := by
      intro c hc
      rcases List.mem_cons.mp hc with rfl | hc
      · exact hd
      · exact List.mem_takeWhile_imp hc
    obtain ⟨k, rfl⟩ : ∃ k, i = q + (k + 1) := ⟨i - q - 1, by omega⟩
    have hk : k < (d :: rest.takeWhile isDigit).length := by
      simp only [List.drop_succ_cons, List.drop_zero, List.length_cons] at hr ⊢
      omega
    refine ⟨(d :: rest.takeWhile isDigit)[k], ?_, hrun _ (List.getElem_mem hk)⟩
    have hsplit : d :: rest = (d :: rest.takeWhile isDigit) ++ rest.dropWhile isDigit := by
      rw [List.cons_append, List.takeWhile_append_dropWhile]
    rw [Buffer.read, List.getElem?_set_ne (by omega), ← List.getElem?_drop, hnext.drop_eq,
      List.cons_append, List.getElem?_cons_succ, hsplit, List.append_assoc,
      List.getElem?_append_left hk, List.getElem?_eq_getElem hk]
  · have hget : buf[q]? = some (chr '[') := by
      rw [← add_zero q, ← List.getElem?_drop, hnext.drop_eq]
      rfl
    obtain ⟨hlt, hget⟩ := List.getElem?_eq_some_iff.mp hget
    rw [write, if_pos (by rwa [List.length_set]), List.set_set, ← hget, List.set_getElem_self]

theorem head?_of_starts {c : Char} {tests : List (UInt8 → Bool)}
    (h : starts (is c :: tests) s = true) : s.head? = some (chr c) := by
  cases s with
  | nil => exact nomatch h
  | cons b s =>
    rw [starts, Bool.and_eq_true] at h
    rw [head?_cons, beq_iff_eq.mp h.1]

theorem not_starts_of_ne {c d : Char} {tests tests' : List (UInt8 → Bool)} (hne : chr c ≠ chr d)
    (h : starts (is c :: tests) s = true) : ¬starts (is d :: tests') s = true := fun h' =>
  hne (some.inj ((head?_of_starts h).symm.trans (head?_of_starts h')))

theorem programHeader_aix (h : At buf p s)
    (hbar : starts [is '|', isLower] (s.dropWhile isValidChar) = true) :
    programHeader buf p = aixHeader buf (p + (s.takeWhile isValidChar).length + 2) := by
  obtain ⟨hnext, hskip, hcolon, hbracket⟩ := behindName h
  have hbar' : test [is '|', isLower] buf _ = _ := hnext.test (by decide)
  have hends : ¬starts [is ':', is ' '] (s.dropWhile isValidChar) = true :=
    not_starts_of_ne (by decide) hbar
  have hpid : ¬starts [is '[', isDigit] (s.dropWhile isValidChar) = true :=
    not_starts_of_ne (by decide) hbar
  simp only [programHeader, hskip, bind_eq_bind, bind_some, hcolon, hbracket, hbar',
    if_neg hends, if_neg hpid, if_pos hbar]

/-- What is read of a program that is named. -/
theorem programHeader_some (h : At buf p s) (hp : programTokens s = some (name, rest)) :
    ∃ buf' q r, programHeader buf p = some (buf', some q, some r) ∧
      Named buf buf' p q r name rest := by
  rw [programTokens] at hp
  cases haix : aixProgram s with
  | some program =>
    rw [haix] at hp
    obtain ⟨hbar, q, hheader, hat, hlt⟩ := aixHeader_some h haix
    obtain ⟨buf', r, hname, hnamed⟩ := aixName_named hat hp
    refine ⟨buf', q, r, ?_, by omega, hnamed.lt, hnamed.stringAt_eq, hnamed.behind, ?_⟩
    · rw [programHeader_aix h hbar, hheader, hname]
    · have htake := congrArg (List.take p) hnamed.take_eq
      rwa [take_take, take_take, Nat.min_eq_left (by omega)] at htake
  | none =>
    rw [haix] at hp
    obtain ⟨hnext, hskip, hcolon, hbracket⟩ := behindName h
    simp only [programHeader, hskip, bind_eq_bind, bind_some, hcolon, hbracket]
    dsimp only [namedProgram] at hp
    split_ifs at hp with hends hpid hclosed hbare
    · obtain ⟨hwrite, hnamed⟩ := named_colon h hends
      rw [if_pos hends, hwrite]
      cases hp
      exact ⟨_, _, _, rfl, hnamed⟩
    · obtain ⟨buf', q, r, rfl, rfl, hcut, hdigits, hat, rfl⟩ := skip_pid h hpid
      have hclosing : test [is ']', is ':', is ' '] _ _ = _ := hat.test (by decide)
      rw [if_neg hends, if_pos hpid, hcut.write_eq]
      simp only [bind_some, hdigits, hclosing, if_pos hclosed]
      cases hp
      refine ⟨_, _, _, rfl, le_rfl, by omega, hcut.stringAt_eq, ?_, hcut.take_eq⟩
      exact hat.drop (length_le_of_starts hclosed)
    · obtain ⟨buf', q, r, rfl, rfl, hcut, hdigits, hat, rfl⟩ := skip_pid h hpid
      have hclosing : test [is ']', is ':', is ' '] _ _ = _ := hat.test (by decide)
      have hspace : test [is ']', is ' '] _ _ = _ := hat.test (by decide)
      rw [if_neg hends, if_pos hpid, hcut.write_eq]
      simp only [bind_some, hdigits, hclosing, if_neg hclosed, hspace, if_pos hbare.2]
      cases hp
      refine ⟨_, _, _, rfl, le_rfl, by omega, hcut.stringAt_eq, ?_, hcut.take_eq⟩
      exact hat.drop (length_le_of_starts hbare.2)

/-- A header that names no program leaves the buffer as it is. -/
theorem programHeader_none (h : At buf p s) (hp : programTokens s = none)
    (haix : aixProgram s = none) : programHeader buf p = some (buf, none, none) := by
  rw [programTokens, haix] at hp
  by_cases hbar : starts [is '|', isLower] (s.dropWhile isValidChar) = true
  · rw [programHeader_aix h hbar, aixHeader_none h hbar haix]
  obtain ⟨hnext, hskip, hcolon, hbracket⟩ := behindName h
  have hbar' : test [is '|', isLower] buf _ = _ := hnext.test (by decide)
  simp only [programHeader, hskip, bind_eq_bind, bind_some, hcolon, hbracket, hbar', if_neg hbar]
  dsimp only [namedProgram] at hp
  split_ifs at hp with hends hpid hclosed hbare
  · obtain ⟨buf', q, r, hq, rfl, hcut, hdigits, hat, hr⟩ := skip_pid h hpid
    obtain ⟨hback, hread, hwrite⟩ := back_pid h hpid hq hr
    have hclosing : test [is ']', is ':', is ' '] _ _ = _ := hat.test (by decide)
    have hspace : test [is ']', is ' '] _ _ = _ := hat.test (by decide)
    have hnot : ¬starts [is ']', is ' '] (((s.dropWhile isValidChar).drop 2).dropWhile isDigit) =
        true := fun h => hbare ⟨rfl, h⟩
    rw [if_neg hends, if_pos hpid, ← hq, hcut.write_eq]
    simp only [bind_some, hdigits, hclosing, if_neg hclosed, hspace, if_neg hnot, hback,
      hread, if_true, hwrite]
    rfl
  · rw [if_neg hends, if_neg hpid]
    rfl

theorem programHeader_open {program : Bytes} (h : At buf p s) (haix : aixProgram s = some program)
    (hp : namedProgram false program = none) :
    ∃ buf' q behind, programHeader buf p = some (buf', some q, behind) ∧ At buf q program ∧
      p + 2 < q ∧ Opened buf q program buf' behind := by
  obtain ⟨hbar, q, hheader, hat, hlt⟩ := aixHeader_some h haix
  obtain ⟨buf', behind, hname, hopened⟩ := aixName_open hat hp
  refine ⟨buf', q, behind, ?_, hat, hlt, hopened⟩
  rw [programHeader_aix h hbar, hheader, hname]

/-! ## Headers -/

/-- The text goes on behind the `[ID xx facility.severity]`. -/
theorem removeId_some (header : Header) (h : At header.buf p s) :
    ∃ r, removeId header (some p) = some { header with log := r } ∧
      At header.buf r (withoutId s) ∧ p ≤ r := by
  have hid : test (text (lit "[ID ")) header.buf p = _ :=
    h.test_text (forall_mem_of_all (by decide))
  rw [withoutId]
  simp only [removeId, bind_eq_bind, hid, bind_some]
  by_cases hstarts : (lit "[ID ").isPrefixOf s = true
  · have hlen : 4 ≤ s.length := (List.isPrefixOf_iff_prefix.mp hstarts).length_le
    have hnext := h.drop hlen
    have hfind : strAt header.buf (p + 4) (lit "] ") = _ := hnext.strAt
    rw [if_pos hstarts, if_pos hstarts, hfind]
    cases hstr : strstr (lit "] ") (s.drop 4) with
    | none => exact ⟨p, rfl, h, le_rfl⟩
    | some rest =>
      obtain ⟨front, hfront⟩ := isSuffix_of_strstr hstr
      have htwo : 2 ≤ rest.length := (isPrefix_of_strstr hstr).length_le
      have hat : At header.buf (p + 4 + front.length) rest := by
        apply At.append
        rwa [hfront]
      have hdiff : ptrDiff rest (s.drop 4) = front.length := by
        rw [ptrDiff, ← hfront, length_append, Nat.add_sub_cancel]
      rw [map_some, hdiff]
      exact ⟨_, rfl, hat.drop htwo, by omega⟩
  · rw [if_neg hstarts, if_neg hstarts]
    exact ⟨p, rfl, h, le_rfl⟩

theorem nameAt_some (h : stringAt buf p = some name) : nameAt buf (some p) = some (some name) := by
  rw [nameAt, h, map_some]

theorem Cut.stringAt_of_take {buf'' : Bytes} (h : Cut buf buf' p q name rest)
    (htake : buf''.take (q + 1) = buf'.take (q + 1)) : stringAt buf'' p = some name :=
  Buffer.stringAt_of_take h.stringAt_eq (h.le ▸ Nat.lt_succ_self _) htake

theorem hostHeader_of_not_openAix (h : At buf p s) (hopen : ¬OpenAix s) :
    (hostHeader buf p).bind Header.tokens = some (hostTokens s) := by
  obtain ⟨hnext, hskip, hcolon, -⟩ := behindName h
  have hblank : test [is ' '] buf _ = _ := hnext.test (by decide)
  rw [hostTokens]
  simp only [hostHeader, hskip, bind_eq_bind, bind_some, hcolon, hblank]
  split_ifs with hends hhost
  · -- the token is the program
    obtain ⟨hwrite, hnamed⟩ := named_colon h hends
    obtain ⟨r, hid, hat, -⟩ := removeId_some ⟨_, p, none, some p⟩ hnamed.behind
    rw [hwrite, bind_some, hid, bind_some, Header.tokens]
    rw [hat.stringAt, nameAt_some hnamed.stringAt_eq]
    rfl
  · have hcut := cut_takeWhile h hhost
    rw [hcut.write_eq, bind_some]
    have hbehind := hcut.behind
    cases hprogram : programTokens ((s.dropWhile isValidChar).drop 1) with
    | some program =>
      obtain ⟨program, rest⟩ := program
      obtain ⟨buf', q, r, hheader, hnamed⟩ := programHeader_some hbehind hprogram
      obtain ⟨r', hid, hat, -⟩ := removeId_some
        ⟨buf', p + (s.takeWhile isValidChar).length + 1, some p, some q⟩ hnamed.behind
      have hname := hcut.stringAt_of_take hnamed.take_eq
      rw [hheader, bind_some, hid, bind_some, Header.tokens]
      rw [hat.stringAt, nameAt_some hname, nameAt_some hnamed.stringAt_eq]
      rfl
    | none =>
      have haix : aixProgram ((s.dropWhile isValidChar).drop 1) = none := by
        rw [programTokens] at hprogram
        cases haix : aixProgram ((s.dropWhile isValidChar).drop 1) with
        | none => rfl
        | some program =>
          rw [haix] at hprogram
          exact absurd ⟨hends, hhost, program, haix, hprogram⟩ hopen
      rw [programHeader_none hbehind hprogram haix, bind_some, removeId, bind_some, Header.tokens]
      rw [hbehind.stringAt, nameAt_some hcut.stringAt_eq]
      rfl
  · rw [Option.pure_def, bind_some, Header.tokens]
    rw [h.stringAt]
    rfl

theorem hostHeader_of_openAix (h : At buf p s) (hopen : OpenAix s) :
    ∃ tokens, (hostHeader buf p).bind Header.tokens = some tokens ∧
      tokens.log ≠ (hostTokens s).log := by
  obtain ⟨hends, hhost, program, haix, hprogram⟩ := hopen
  obtain ⟨hnext, hskip, hcolon, -⟩ := behindName h
  have hblank : test [is ' '] buf _ = _ := hnext.test (by decide)
  have hcut := cut_takeWhile h hhost
  have hbehind := hcut.behind
  have hlog : (hostTokens s).log = (s.dropWhile isValidChar).drop 1 := by
    rw [hostTokens, if_neg hends, if_pos hhost, programTokens, haix]
    dsimp only
    rw [hprogram]
  obtain ⟨buf', q, behind, hheader, hat, hlt, hopened⟩ := programHeader_open hbehind haix hprogram
  have hlen := hat.length_eq.symm.trans hbehind.length_eq
  rw [hlog]
  simp only [hostHeader, hskip, bind_eq_bind, bind_some, hcolon, hblank, if_neg hends,
    if_pos hhost, hcut.write_eq, hheader]
  cases hopened with
  | kept =>
    -- the text goes on behind the name, which is not cut
    obtain ⟨r, hid, hafter, hle⟩ := removeId_some
      ⟨_, p + (s.takeWhile isValidChar).length + 1, some p, some q⟩
      (hat.dropWhile (f := isValidChar))
    have hlen' := hafter.length_eq
    have hlen'' := hbehind.length_eq
    refine ⟨⟨some (s.takeWhile isValidChar), some program,
      withoutId (program.dropWhile isValidChar)⟩, ?_, fun heq => ?_⟩
    · rw [hid, bind_some, Header.tokens]
      rw [hafter.stringAt, nameAt_some hcut.stringAt_eq, nameAt_some hat.stringAt]
      rfl
    · have hshort := congrArg List.length heq
      dsimp only at hlen' hshort
      omega
  | cut hshort =>
    -- the text ends where the name was cut
    have hle : p + (s.takeWhile isValidChar).length + 1 ≤
        q + (program.takeWhile isValidChar).length := by omega
    obtain ⟨log, hlog', hlt'⟩ : ∃ log, stringAt _ _ = some log ∧
        log.length < ((s.dropWhile isValidChar).drop 1).length := by
      refine ⟨_, hbehind.stringAt_set_take hle (by omega), ?_⟩
      rw [length_take]
      omega
    obtain ⟨name, hname⟩ : ∃ name, stringAt _ q = some name :=
      ⟨_, hat.stringAt_set_take (Nat.le_add_right q _) (Nat.add_lt_add_left hshort q)⟩
    have hhostname := hcut.stringAt_of_take (@take_set_of_le _ 0 _ _
      (buf.set (p + (s.takeWhile isValidChar).length) 0) hle)
    refine ⟨⟨some (s.takeWhile isValidChar), some name, log⟩, ?_,
      fun heq => hlt'.ne (congrArg List.length heq)⟩
    rw [removeId, bind_some, Header.tokens]
    rw [hlog', nameAt_some hhostname, nameAt_some hname]
    rfl

/-- What is read of a header is what it says, unless it is one of AIX without an end. -/
theorem tokens_syslogHeader_iff (h : At buf p s) :
    ∃ tokens, (syslogHeader buf p).bind Header.tokens = some tokens ∧
      (tokens = hostTokens (behindDate s) ↔ ¬OpenAix (behindDate s)) := by
  have hblank : test [is ' '] buf p = _ := h.test (by decide)
  obtain ⟨q, hq, hat⟩ : ∃ q, syslogHeader buf p = hostHeader buf q ∧ At buf q (behindDate s) := by
    rw [behindDate]
    simp only [syslogHeader, bind_eq_bind, hblank, bind_some]
    split_ifs with hstarts
    · exact ⟨p + 1, rfl, h.drop (length_le_of_starts hstarts)⟩
    · exact ⟨p, rfl, h⟩
  rw [hq]
  by_cases hopen : OpenAix (behindDate s)
  · obtain ⟨tokens, htokens, hne⟩ := hostHeader_of_openAix hat hopen
    have hdiffer : tokens ≠ hostTokens (behindDate s) := fun h => hne (congrArg Tokens.log h)
    exact ⟨tokens, htokens, iff_of_false hdiffer (not_not_intro hopen)⟩
  · exact ⟨_, hostHeader_of_not_openAix hat hopen, iff_of_true rfl hopen⟩

/-! ## The text is a suffix -/

end CleanEvent
