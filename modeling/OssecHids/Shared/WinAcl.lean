import Mathlib.Data.List.Perm.Basic
import OssecHids.Lib.Search
import OssecHids.Lib.StringOrder

/-!
# Snapshots of access control lists

The agent keeps the access control list of a file as text behind the integrity sum, a line for
each entry, and reads it back when the list has changed.

- `fimAclSort_eq_of_perm`: the order that the entries are kept in is unique;
- `snapshot_law`: what is read back are the entries in the order of their numbers.
-/

open CString List

namespace WinAcl

/-! ## The functions -/

/-- `fim_ace_t` -/
structure Ace where
  sid : Bytes
  type : Int32
  flags : UInt32
  mask : UInt32
  /-- The place of the entry in the list of the file. -/
  ord : UInt32
  sid_lt : sid.length < 192
deriving DecidableEq

/-- `FIM_ACL_NORMAL`, `FIM_ACL_NODACL` and `FIM_ACL_NULLDACL` -/
inductive Special where
  | normal
  | nodacl
  | nulldacl
deriving DecidableEq

/-- `fim_acl_t` -/
structure Acl where
  aces : List Ace
  special : Special
deriving DecidableEq

/-- `ace_cmp`: the place decides first. -/
def aceCmp (a b : Ace) : Ordering :=
  (compare a.ord b.ord).then <| (strcmpSign a.sid b.sid).then <| (compare a.type b.type).then <|
    (compare a.flags b.flags).then (compare a.mask b.mask)

/-- `fim_acl_sort` -/
def fimAclSort (acl : Acl) : Acl :=
  { acl with aces := acl.aces.mergeSort fun a b => (aceCmp a b).isLE }

/-- `append_str` to the string in a buffer. -/
def appendStr (buflen : ℕ) (buf s : Bytes) : Bytes :=
  if buflen ≤ buf.length then buf
  else if buflen ≤ buf.length + s.length then buf ++ s.take (buflen - buf.length - 1)
  else buf ++ s

/-- The line of an entry, without its newline: `%u|%s|%d|%u|%u`. -/
def aceText (a : Ace) : Bytes :=
  fmtU a.ord.toNat ++ chr '|' :: (a.sid ++ chr '|' :: (fmtD a.type.toInt ++ chr '|' ::
    (fmtU a.flags.toNat ++ chr '|' :: fmtU a.mask.toNat)))

def aceLine (a : Ace) : Bytes := aceText a ++ lit "\n"

/-- The loop of `fim_win_acl_snapshot`. -/
def snapshotLoop (buflen : ℕ) : List Ace → Bytes → Bytes
  | [], buf => buf
  | a :: aces, buf =>
    if buflen ≤ buf.length + (aceLine a).length + 19 then
      appendStr buflen buf (lit "... truncated ...\n")
    else snapshotLoop buflen aces (appendStr buflen buf (snprintf 512 (aceLine a)))

/-- `fim_win_acl_snapshot`; `none` is the result `-1`. -/
def fimWinAclSnapshot (acl : Acl) (buflen : ℕ) : Option Bytes :=
  if buflen = 0 then none
  else
    match acl.special with
    | .nodacl => some (appendStr buflen [] (lit "SPECIAL=NODACL\n"))
    | .nulldacl => some (appendStr buflen [] (lit "SPECIAL=NULLDACL\n"))
    | .normal => some (snapshotLoop buflen acl.aces [])

/-- The loop of `fim_win_acl_snapshot_dup`, for a number of buffers each twice as long as the one
before. -/
def snapshotDupLoop (acl : Acl) : ℕ → ℕ → Option Bytes
  | 0, _ => none
  | n + 1, cap =>
    match fimWinAclSnapshot acl cap with
    | none => none
    | some snap =>
      if strstr (lit "... truncated") snap = none then some snap
      else if 256 * 1024 ≤ cap then none
      else snapshotDupLoop acl n (2 * cap)

/-- `fim_win_acl_snapshot_dup`: the sixth buffer is the last one. -/
def fimWinAclSnapshotDup (acl : Acl) : Option Bytes := snapshotDupLoop acl 6 8192

/-- A `|` of the format of `sscanf`. -/
def scanBar : Bytes → Option Bytes
  | [] => none
  | b :: s => if b = chr '|' then some s else none

/-- The conversion `%191[^|]` of `sscanf`. -/
def scanSid (s : Bytes) : Option ({sid : Bytes // sid.length < 192} × Bytes) :=
  let sid := (s.takeWhile (· != chr '|')).take 191
  if sid = [] then none
  else some (⟨sid, Nat.lt_succ_of_le (List.length_take_le _ _)⟩, s.drop sid.length)

/-- The conversion `%d` of `sscanf`: the number that `atoi` reads, and the input behind it. -/
def scanD (s : Bytes) : Option (Int32 × Bytes) :=
  let (_, t) := splitSign s
  if t.takeWhile isDigit = [] then none else some (Int32.ofInt (atoi s), t.dropWhile isDigit)

/-- `%191[^|]|%d|%u|%u`, for an entry whose place is known. -/
def scanAce (ord : UInt32) (s : Bytes) : Option Ace := do
  let (sid, s) ← scanSid s
  let s ← scanBar s
  let (type, s) ← scanD s
  let s ← scanBar s
  let (flags, s) ← scanU s
  let s ← scanBar s
  let (mask, _) ← scanU s
  return { sid := sid.1, type, flags, mask, ord, sid_lt := sid.2 }

/-- `%u|%191[^|]|%d|%u|%u` -/
def scanOrdAce (s : Bytes) : Option Ace := do
  let (ord, s) ← scanU s
  let s ← scanBar s
  scanAce ord s

/-- The loop of `fim_win_acl_parse_snapshot`, behind the entries that have been read. -/
def parseLoop : List Bytes → List Ace → Acl
  | [], aces => { aces, special := .normal }
  | line :: lines, aces =>
    if strncmpEq 14 line (lit "SPECIAL=NODACL") then { aces, special := .nodacl }
    else if strncmpEq 16 line (lit "SPECIAL=NULLDACL") then { aces, special := .nulldacl }
    else if strncmpEq 13 line (lit "... truncated") then parseLoop lines aces
    else
      -- the older lines have no place: they are numbered as they come
      match (scanOrdAce line).or (scanAce (UInt32.ofNat aces.length) line) with
      | some ace => parseLoop lines (aces ++ [ace])
      | none => parseLoop lines aces

/-- The tokens of `strtok_r(copy, "\n", &save)`: there are no empty ones. -/
def strtokLines (text : Bytes) : List Bytes := (text.splitOn (chr '\n')).filter (· ≠ [])

/-- `fim_win_acl_parse_snapshot` -/
def fimWinAclParseSnapshot (text : Bytes) : Acl := fimAclSort (parseLoop (strtokLines text) [])

/-! ## The order of the entries -/

variable {a b : Ace} {aces aces' : List Ace} {acl acl' : Acl} {buf s r : Bytes} {buflen : ℕ}

instance : Std.TransCmp aceCmp :=
  inferInstanceAs (Std.TransCmp (compareLex (compareOn Ace.ord) (compareLex (compareOn Ace.sid)
    (compareLex (compareOn Ace.type) (compareLex (compareOn Ace.flags) (compareOn Ace.mask))))))

instance : Std.LawfulEqCmp aceCmp where
  eq_of_compare {a b} h := by
    simp only [aceCmp, Ordering.then_eq_eq, Std.LawfulEqCmp.compare_eq_iff_eq] at h
    obtain ⟨hord, hsid, htype, hflags, hmask⟩ := h
    cases a
    cases b
    simp only [Ace.mk.injEq]
    exact ⟨hsid, htype, hflags, hmask, hord⟩

theorem perm_fimAclSort (acl : Acl) : (fimAclSort acl).aces.Perm acl.aces :=
  mergeSort_perm _ _

/-- `Sorted`: the order that `fim_acl_sort` makes. -/
def Sorted (acl : Acl) : Prop := acl.aces.Pairwise fun a b => (aceCmp a b).isLE

theorem sorted_fimAclSort (acl : Acl) : Sorted (fimAclSort acl) := by
  apply pairwise_mergeSort
  · intro a b c hab hbc
    exact Std.TransCmp.isLE_trans hab hbc
  · intro a b
    have hswap : aceCmp b a = (aceCmp a b).swap := Std.OrientedCmp.eq_swap
    rw [Bool.or_eq_true, hswap]
    cases aceCmp a b <;> simp

theorem Sorted.eq_of_perm (h : Sorted acl) (h' : Sorted acl')
    (hspecial : acl.special = acl'.special) (hperm : acl.aces.Perm acl'.aces) : acl = acl' := by
  have haces : acl.aces = acl'.aces := by
    refine hperm.eq_of_pairwise (fun a b _ _ hab hba => ?_) h h'
    exact Std.LawfulEqCmp.eq_of_compare (Std.OrientedCmp.isLE_antisymm hab hba)
  cases acl
  cases acl'
  rw [Acl.mk.injEq]
  exact ⟨haces, hspecial⟩

theorem Sorted.pairwise_ord (h : Sorted acl) (hord : (acl.aces.map Ace.ord).Nodup) :
    acl.aces.Pairwise fun a b => a.ord < b.ord := by
  rw [List.Nodup, pairwise_map] at hord
  refine (List.Pairwise.and h hord).imp fun {a b} hab => ?_
  obtain ⟨hle, hne⟩ := hab
  rw [aceCmp, Ordering.isLE_then_iff_or] at hle
  rcases hle with hlt | ⟨heq, -⟩
  case inl => exact Std.compare_eq_lt.mp hlt
  case inr => exact absurd (Std.LawfulEqCmp.compare_eq_iff_eq.mp heq) hne

/-! ## Writing a snapshot -/

theorem appendStr_of_lt (h : buf.length + s.length < buflen) :
    appendStr buflen buf s = buf ++ s := by
  rw [appendStr, if_neg (by omega), if_neg (by omega)]

/-- The snapshot of a list when there is room for it. -/
def snapshotText (acl : Acl) : Bytes :=
  match acl.special with
  | .nodacl => lit "SPECIAL=NODACL\n"
  | .nulldacl => lit "SPECIAL=NULLDACL\n"
  | .normal => (acl.aces.map aceLine).flatten

theorem length_aceLine_lt (a : Ace) : (aceLine a).length < 512 := by
  have hu : ∀ n : UInt32, (fmtU n.toNat).length ≤ 10 := fun n =>
    length_fmtU_le (by decide) (n.toNat_lt.trans (by decide))
  have hd : (fmtD a.type.toInt).length ≤ 11 :=
    length_fmtD_le (by decide) (by have := a.type.le_toInt; have := a.type.toInt_lt; omega)
  have hsid := a.sid_lt
  have := hu a.ord
  have := hu a.flags
  have := hu a.mask
  have hnl : (lit "\n").length = 1 := by decide
  simp only [aceLine, aceText, length_append, length_cons, hnl]
  omega

theorem snapshotLoop_of_lt
    (h : buf.length + (aces.map aceLine).flatten.length + 19 < buflen) :
    snapshotLoop buflen aces buf = buf ++ (aces.map aceLine).flatten := by
  induction aces generalizing buf with
  | nil => simp [snapshotLoop]
  | cons a aces ih =>
    rw [map_cons, flatten_cons, length_append] at h
    have hline : snprintf 512 (aceLine a) = aceLine a :=
      take_of_length_le (Nat.le_pred_of_lt (length_aceLine_lt a))
    rw [snapshotLoop, if_neg (by omega), hline, appendStr_of_lt (by omega),
      ih (by rw [length_append]; omega), map_cons, flatten_cons, append_assoc]

/-- A snapshot for which there is no room ends with a note. -/
theorem snapshotLoop_cases (h : buf.length + 18 < buflen) :
    snapshotLoop buflen aces buf = buf ++ (aces.map aceLine).flatten ∨
      ∃ l, snapshotLoop buflen aces buf = l ++ lit "... truncated ...\n" := by
  induction aces generalizing buf with
  | nil => exact .inl (by simp [snapshotLoop])
  | cons a aces ih =>
    have hnote : (lit "... truncated ...\n").length = 18 := by decide
    have hline : snprintf 512 (aceLine a) = aceLine a :=
      take_of_length_le (Nat.le_pred_of_lt (length_aceLine_lt a))
    rw [snapshotLoop]
    split
    case isTrue => exact .inr ⟨buf, appendStr_of_lt (by omega)⟩
    case isFalse hroom =>
      rw [hline, appendStr_of_lt (by omega), map_cons, flatten_cons, ← append_assoc]
      exact ih (by rw [length_append]; omega)

theorem fimWinAclSnapshot_of_lt (h : (snapshotText acl).length + 19 < buflen) :
    fimWinAclSnapshot acl buflen = some (snapshotText acl) := by
  rw [fimWinAclSnapshot, if_neg (by omega)]
  rw [snapshotText] at h ⊢
  cases hspecial : acl.special with
  | normal =>
    simp only [hspecial] at h ⊢
    rw [snapshotLoop_of_lt (by simpa using h), nil_append]
  | nodacl =>
    simp only [hspecial] at h ⊢
    rw [appendStr_of_lt (by rw [length_nil]; omega), nil_append]
  | nulldacl =>
    simp only [hspecial] at h ⊢
    rw [appendStr_of_lt (by rw [length_nil]; omega), nil_append]

theorem fimWinAclSnapshot_cases (h : 18 < buflen) :
    fimWinAclSnapshot acl buflen = some (snapshotText acl) ∨
      ∃ l, fimWinAclSnapshot acl buflen = some (l ++ lit "... truncated ...\n") := by
  rw [fimWinAclSnapshot, if_neg (by omega), snapshotText]
  cases acl.special with
  | normal =>
    have hempty : ([] : Bytes).length + 18 < buflen := by simpa using h
    rcases snapshotLoop_cases hempty with hall | ⟨l, hnote⟩
    · exact .inl (congrArg some hall)
    · exact .inr ⟨l, congrArg some hnote⟩
  | nodacl =>
    have hlen : (lit "SPECIAL=NODACL\n").length = 15 := by decide
    exact .inl (congrArg some (appendStr_of_lt (by rw [length_nil]; omega)))
  | nulldacl =>
    have hlen : (lit "SPECIAL=NULLDACL\n").length = 17 := by decide
    exact .inl (congrArg some (appendStr_of_lt (by rw [length_nil]; omega)))

/-- The text that can be written to the last of the buffers is found with one of them. -/
theorem snapshotDupLoop_eq {k cap : ℕ} (hcap : cap * 2 ^ k = 256 * 1024) (hpos : 18 < cap)
    (hnote : strstr (lit "... truncated") (snapshotText acl) = none)
    (hlimit : (snapshotText acl).length + 19 < 256 * 1024) :
    snapshotDupLoop acl (k + 1) cap = some (snapshotText acl) := by
  induction k generalizing cap with
  | zero =>
    obtain rfl : cap = 256 * 1024 := by simpa using hcap
    rw [snapshotDupLoop, fimWinAclSnapshot_of_lt hlimit]
    exact if_pos hnote
  | succ k ih =>
    rw [snapshotDupLoop]
    rcases @fimWinAclSnapshot_cases acl cap hpos with htext | ⟨l, htext⟩
    case inl =>
      rw [htext]
      exact if_pos hnote
    case inr =>
      have hfound : strstr (lit "... truncated") (l ++ lit "... truncated ...\n") ≠ none := by
        obtain ⟨l', -, hl'⟩ := exists_strstr l (lit "... truncated") (lit " ...\n")
        have hsplit : lit "... truncated ...\n" = lit "... truncated" ++ lit " ...\n" := by decide
        rw [hsplit, hl']
        exact Option.some_ne_none _
      have hnext : 2 * cap * 2 ^ k = 256 * 1024 := by
        rw [← hcap, Nat.pow_succ, mul_comm 2 cap, mul_assoc, mul_comm 2]
      have hsmall : ¬256 * 1024 ≤ cap := by
        have hk : 1 ≤ 2 ^ k := Nat.one_le_two_pow
        have hmul : 2 * cap * 1 ≤ 2 * cap * 2 ^ k := Nat.mul_le_mul_left _ hk
        omega
      rw [htext]
      dsimp only
      rw [if_neg hfound, if_neg hsmall]
      exact ih hnext (by omega)

/-- `Plain`: an identifier that a line of a snapshot can hold. -/
structure Plain (sid : Bytes) : Prop where
  ne_nil : sid ≠ []
  bar : chr '|' ∉ sid
  newline : chr '\n' ∉ sid
  note : strstr (lit "... truncated") sid = none

/-- The lines have the note only if an identifier has it. -/
theorem strstr_flatten (h : ∀ a ∈ aces, Plain a.sid) :
    strstr (lit "... truncated") (aces.map aceLine).flatten = none := by
  induction aces with
  | nil => rfl
  | cons a aces ih =>
    rw [forall_mem_cons] at h
    have hdot : ∀ n, chr '.' ∉ fmtU n := fun n => notMem_fmtU (by decide)
    have hdotd : chr '.' ∉ fmtD a.type.toInt := fun hmem =>
      (mem_fmtD hmem).elim (by decide) (by decide)
    have hhead : chr '.' ∉ fmtU a.ord.toNat ++ [chr '|'] := by
      rw [mem_append, not_or]
      exact ⟨hdot _, by decide⟩
    have htail : chr '.' ∉ fmtD a.type.toInt ++ chr '|' :: (fmtU a.flags.toNat ++ chr '|' ::
        (fmtU a.mask.toNat ++ lit "\n")) := by
      simp only [mem_append, mem_cons, not_or]
      exact ⟨hdotd, by decide, hdot _, by decide, hdot _, by decide⟩
    have hlines : ((a :: aces).map aceLine).flatten = (fmtU a.ord.toNat ++ [chr '|']) ++
        (a.sid ++ chr '|' :: ((fmtD a.type.toInt ++ chr '|' :: (fmtU a.flags.toNat ++ chr '|' ::
          (fmtU a.mask.toNat ++ lit "\n"))) ++ (aces.map aceLine).flatten)) := by
      simp [aceLine, aceText]
    have hnote : lit "... truncated" = chr '.' :: lit ".. truncated" := by decide
    rw [hlines, hnote, strstr_append_of_notMem hhead, ← hnote,
      strstr_append_cons (by decide) (by decide) h.1.note, hnote, strstr_append_of_notMem htail,
      ← hnote, ih h.2]

/-! ## Reading a snapshot -/

/-- What stands in front of a `|`, or at the end of a line, is no digit. -/
theorem isDigit_headD_bar (r : Bytes) : isDigit ((chr '|' :: r).headD 0) = false := by
  show isDigit (chr '|') = false
  decide

theorem scanBar_cons (r : Bytes) : scanBar (chr '|' :: r) = some r := by
  rw [scanBar, if_pos rfl]

theorem scanSid_append (hne : a.sid ≠ []) (hbar : chr '|' ∉ a.sid) (r : Bytes) :
    scanSid (a.sid ++ chr '|' :: r) = some (⟨a.sid, a.sid_lt⟩, chr '|' :: r) := by
  have hall : ∀ b ∈ a.sid, (b != chr '|') = true := fun b hb => by
    rw [bne_iff_ne]
    rintro rfl
    exact hbar hb
  have htake : ((a.sid ++ chr '|' :: r).takeWhile (· != chr '|')).take 191 = a.sid := by
    have hlen : a.sid.length ≤ 191 := Nat.le_of_lt_succ a.sid_lt
    rw [takeWhile_append_of_pos hall, takeWhile_cons_of_neg (by simp), append_nil,
      take_of_length_le hlen]
  simp only [scanSid, htake, hne, if_false, drop_left]

theorem scanD_fmtD (i : Int32) (hr : isDigit (r.headD 0) = false) :
    scanD (fmtD i.toInt ++ r) = some (i, r) := by
  have hd : ∀ b ∈ fmtU i.toInt.natAbs, isDigit b := fun _ => isDigit_of_mem_fmtU
  have hsign : (splitSign (fmtD i.toInt ++ r)).2 = fmtU i.toInt.natAbs ++ r := by
    rw [fmtD]
    split
    case isTrue => rfl
    case isFalse =>
      obtain ⟨d, ds, hds⟩ := exists_cons_of_ne_nil (fmtU_ne_nil i.toInt.natAbs)
      have hdigit : isDigit d := hd d (hds ▸ mem_cons_self)
      rw [hds, cons_append, splitSign_of_isDigit (s := d :: (ds ++ r)) hdigit]
  simp only [scanD, hsign, takeWhile_isDigit_append hd hr, dropWhile_isDigit_append hd hr,
    fmtU_ne_nil, if_false, atoi_fmtD_append i hr, Int32.ofInt_toInt]

theorem scanOrdAce_aceText (h : Plain a.sid) : scanOrdAce (aceText a) = some a := by
  have hend : scanU (fmtU a.mask.toNat) = some (a.mask, []) := by
    simpa using @scanU_fmtU a.mask [] (by decide)
  simp only [scanOrdAce, aceText, scanU_fmtU a.ord (isDigit_headD_bar _), scanBar_cons, scanAce,
    Option.bind_eq_bind, Option.bind_some, scanSid_append h.ne_nil h.bar,
    scanD_fmtD a.type (isDigit_headD_bar _), scanU_fmtU a.flags (isDigit_headD_bar _), hend]
  rfl

theorem strncmpEq_aceText {n : ℕ} {c : UInt8} (hc : isDigit c = false) (a : Ace) (t : Bytes) :
    strncmpEq (n + 1) (aceText a) (c :: t) = false := by
  obtain ⟨d, ds, hds⟩ := exists_cons_of_ne_nil (fmtU_ne_nil a.ord.toNat)
  have hdigit : isDigit d := isDigit_of_mem_fmtU (n := a.ord.toNat) (hds ▸ mem_cons_self)
  have hne : d ≠ c := by
    rintro rfl
    rw [hdigit] at hc
    cases hc
  simp [strncmpEq, aceText, hds, hne]

theorem parseLoop_map (h : ∀ a ∈ aces', Plain a.sid) :
    parseLoop (aces'.map aceText) aces = { aces := aces ++ aces', special := .normal } := by
  induction aces' generalizing aces with
  | nil => rw [map_nil, parseLoop, append_nil]
  | cons a aces' ih =>
    rw [forall_mem_cons] at h
    have hnodacl : strncmpEq 14 (aceText a) (lit "SPECIAL=NODACL") = false :=
      strncmpEq_aceText (c := chr 'S') (by decide) a _
    have hnulldacl : strncmpEq 16 (aceText a) (lit "SPECIAL=NULLDACL") = false :=
      strncmpEq_aceText (c := chr 'S') (by decide) a _
    have hnote : strncmpEq 13 (aceText a) (lit "... truncated") = false :=
      strncmpEq_aceText (c := chr '.') (by decide) a _
    rw [map_cons, parseLoop, hnodacl, hnulldacl, hnote, scanOrdAce_aceText h.1]
    simp only [Bool.false_eq_true, if_false, Option.some_or]
    rw [ih h.2, append_assoc, singleton_append]

theorem strtokLines_append {l : Bytes} (hl : chr '\n' ∉ l) (hne : l ≠ []) (r : Bytes) :
    strtokLines (l ++ chr '\n' :: r) = l :: strtokLines r := by
  rw [strtokLines, splitOn_append_cons_self_of_not_mem hl,
    filter_cons_of_pos (by simpa using hne), strtokLines]

theorem strtokLines_flatten (h : ∀ a ∈ aces, Plain a.sid) :
    strtokLines (aces.map aceLine).flatten = aces.map aceText := by
  induction aces with
  | nil => rfl
  | cons a aces ih =>
    rw [forall_mem_cons] at h
    have hu : ∀ n, chr '\n' ∉ fmtU n := fun n => notMem_fmtU (by decide)
    have hd : chr '\n' ∉ fmtD a.type.toInt := fun hmem =>
      (mem_fmtD hmem).elim (by decide) (by decide)
    have hline : chr '\n' ∉ aceText a := by
      simp only [aceText, mem_append, mem_cons, not_or]
      exact ⟨hu _, by decide, h.1.newline, by decide, hd, by decide, hu _, by decide, hu _⟩
    have hne : aceText a ≠ [] := by simp [aceText]
    have hnl : aceLine a = aceText a ++ [chr '\n'] := rfl
    rw [map_cons, map_cons, flatten_cons, hnl, append_assoc,
      singleton_append, strtokLines_append hline hne, ih h.2]

theorem parse_snapshotText (hspecial : acl.special ≠ .normal → acl.aces = [])
    (h : ∀ a ∈ acl.aces, Plain a.sid) :
    fimWinAclParseSnapshot (snapshotText acl) = fimAclSort acl := by
  have hparse : parseLoop (strtokLines (snapshotText acl)) [] = acl := by
    obtain ⟨aces, special⟩ := acl
    cases special with
    | normal =>
      show parseLoop (strtokLines (aces.map aceLine).flatten) [] = _
      rw [strtokLines_flatten h, parseLoop_map h, nil_append]
    | nodacl =>
      obtain rfl : aces = [] := hspecial (fun h => nomatch h)
      decide
    | nulldacl =>
      obtain rfl : aces = [] := hspecial (fun h => nomatch h)
      decide
  rw [fimWinAclParseSnapshot, hparse]

/-- What is read back from a snapshot are the entries in the order of their places. -/
theorem parse_snapshotDup (hspecial : acl.special ≠ .normal → acl.aces = [])
    (hord : (acl.aces.map Ace.ord).Nodup) (h : ∀ a ∈ acl.aces, Plain a.sid)
    (hlimit : (snapshotText acl).length + 19 < 256 * 1024) :
    ∃ text, fimWinAclSnapshotDup acl = some text ∧
      (fimWinAclParseSnapshot text).special = acl.special ∧
      (fimWinAclParseSnapshot text).aces.Perm acl.aces ∧
      (fimWinAclParseSnapshot text).aces.Pairwise fun a b => a.ord < b.ord := by
  have hnote : strstr (lit "... truncated") (snapshotText acl) = none := by
    rw [snapshotText]
    split
    · decide
    · decide
    · exact strstr_flatten h
  refine ⟨snapshotText acl, snapshotDupLoop_eq (by decide) (by decide) hnote hlimit, ?_⟩
  have hperm := perm_fimAclSort acl
  rw [parse_snapshotText hspecial h]
  refine ⟨rfl, hperm, (sorted_fimAclSort acl).pairwise_ord ?_⟩
  exact (hperm.map Ace.ord).nodup_iff.mpr hord

end WinAcl
