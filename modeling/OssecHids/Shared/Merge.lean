import OssecHids.Lib.Stream

/-!
# Merged files

`MergeAppendFile`, `MergeFiles` and `UnmergeFiles`: several files in one, each behind a header line
with its size and its name.

- `unmergeFiles_entry`: what the reader makes of an entry;
- `unmergeFiles_mergeFiles_iff`: when it gets back what has been merged.
-/

open CString List Option

namespace Merge

/-! ## The names -/

/-- `strstr(s, "..") != NULL` -/
def hasDots (s : Bytes) : Prop := lit ".." <:+: s

instance (s : Bytes) : Decidable (hasDots s) := inferInstanceAs (Decidable (_ <:+: _))

/-- A path starts with the name `..`. -/
def startsParent (path : Bytes) : Bool :=
  path.take 2 == lit ".." && ((path.drop 2).headD 0 == 0 || (path.drop 2).headD 0 == chr '/')

/-- The loop over the `/..` of a path. Two of them do not overlap, so that none is missed by going
on behind the last one. -/
def refParentLoop : Bytes → Bool
  | [] => false
  | b :: path => (b == chr '/' && startsParent path) || refParentLoop path

/-- `w_ref_parent_folder`, not on Windows -/
def wRefParentFolder (path : Bytes) : Bool := startsParent path || refParentLoop path

/-- `merge_entry_basename`, not on Windows -/
def mergeEntryBasename (files : Bytes) : Bytes :=
  (files.reverse.takeWhile (· != chr '/')).reverse

/-- `merge_entry_name_ok` -/
def mergeEntryNameOk (name : Bytes) : Prop :=
  name ≠ [] ∧ chr '/' ∉ name ∧ chr '\\' ∉ name ∧ ¬ hasDots name

instance (name : Bytes) : Decidable (mergeEntryNameOk name) :=
  inferInstanceAs (Decidable (_ ∧ _ ∧ _ ∧ _))

/-! ## Writing -/

/-- `fprintf(finalfp, "!%ld %s\n", files_size, tmpfile)` -/
def header (size : ℕ) (name : Bytes) : Bytes :=
  chr '!' :: (fmtU size ++ chr ' ' :: (name ++ [chr '\n']))

section Write

variable (fopen : Bytes → Option Bytes)

/-- `MergeAppendFile` for a file that is given by its path; the second value is the merged file. -/
def mergeAppendFile (finalfp files : Bytes) : Bool × Bytes :=
  match fopen files with
  | none => (false, finalfp)
  | some content =>
    let tmpfile := mergeEntryBasename files
    if mergeEntryNameOk tmpfile then (true, finalfp ++ (header content.length tmpfile ++ content))
    else (false, finalfp)

/-- The loop of `MergeFiles`, which goes on behind a file that it cannot merge. -/
def mergeLoop : Bool → Bytes → List Bytes → Bool × Bytes
  | ret, finalfp, [] => (ret, finalfp)
  | ret, finalfp, file :: files =>
    match fopen file with
    | none => mergeLoop false finalfp files
    | some content =>
      let tmpfile := mergeEntryBasename file
      if mergeEntryNameOk tmpfile then
        mergeLoop ret (finalfp ++ (header content.length tmpfile ++ content)) files
      else mergeLoop false finalfp files

def mergeFiles (files : List Bytes) : Bool × Bytes := mergeLoop fopen true [] files

/-- The merged file after `MergeAppendFile(finalpath, NULL)` and a call for each of the paths. -/
def mergeAppendFiles (files : List Bytes) : Bytes :=
  files.foldl (fun finalfp file => (mergeAppendFile fopen finalfp file).2) []

/-- The name and the content of a file that can be opened and whose name is accepted. -/
def entry (file : Bytes) : Option (Bytes × Bytes) :=
  (fopen file).bind fun content =>
    if mergeEntryNameOk (mergeEntryBasename file) then some (mergeEntryBasename file, content)
    else none

def entries (files : List Bytes) : List (Bytes × Bytes) := files.filterMap (entry fopen)

end Write

/-! ## Reading -/

/-- How many bytes to read next of an entry, and how many of it are left then. -/
def nextChunk (files_size : ℕ) : ℕ × ℕ :=
  if files_size < 2048 then (files_size, 0) else (2048, files_size - 2048)

/-- The loop over the chunks of an entry: the bytes read and the rest of the merged file. -/
def copyLoop : ℕ → ℕ × ℕ → Bytes → Bytes × Bytes
  | 0, _, s => ([], s)
  | fuel + 1, (i, files_size), s =>
    if s.take i = [] then ([], s)
    else if files_size = 0 then (s.take i, s.drop i)
    else
      let below := copyLoop fuel (nextChunk files_size) (s.drop i)
      (s.take i ++ below.1, below.2)

/-- The file that an entry is written to. -/
def finalName (optdir : Option Bytes) (files : Bytes) : Bytes :=
  match optdir with
  | some dir => (dir ++ chr '/' :: files).take 2047
  | none => files.take 2048

/-- The entries that are refused for their names. -/
def unsafeName (optdir : Option Bytes) (files : Bytes) : Bool :=
  decide (chr '/' ∈ files) || decide (chr '\\' ∈ files) || decide (hasDots files) ||
    wRefParentFolder files || wRefParentFolder (finalName optdir files)

section Read

variable (fopen : Bytes → Bool) (optdir : Option Bytes)

/-- What is written, file by file, and the return value. -/
abbrev Written := Bool × List (Bytes × Bytes)

/-- The loop of `UnmergeFiles`; `none` when the fuel does not last. -/
def unmergeLoop : ℕ → Bytes → Option Written
  | 0, _ => none
  | fuel + 1, finalfp =>
    match fgets 2048 finalfp with
    | none => some (true, [])
    | some (buf, finalfp) =>
      if (str buf).headD 0 ≠ chr '!' then unmergeLoop fuel finalfp
      else
        let files_size := (strtol (str buf).tail % 2 ^ 64).toNat
        match strchr (chr ' ') (cut buf) with
        | none => (unmergeLoop fuel finalfp).map fun (_, written) => (false, written)
        | some p =>
          let files := p.tail
          let (payload, finalfp) := copyLoop (files_size + 1) (nextChunk files_size) finalfp
          if unsafeName optdir files || !fopen (finalName optdir files) then
            (unmergeLoop fuel finalfp).map fun (_, written) => (false, written)
          else
            (unmergeLoop fuel finalfp).map fun (ret, written) =>
              (ret, (finalName optdir files, payload) :: written)

/-- `UnmergeFiles`, where `fopen` tells which files can be opened for writing. -/
def unmergeFiles (finalfp : Bytes) : Option Written :=
  unmergeLoop fopen optdir (finalfp.length + 1) finalfp

end Read

/-! ## Names and paths -/

section Names

variable {dir name files path : Bytes} {optdir : Option Bytes}

theorem headD_append_cons (u : Bytes) (b : UInt8) (x y : Bytes) :
    (u ++ b :: x).headD 0 = (u ++ b :: y).headD 0 := by
  cases u <;> rfl

/-- Whether a path starts with `..` is decided before the first separator. -/
theorem startsParent_append (u x : Bytes) :
    startsParent (u ++ chr '/' :: x) = startsParent (u ++ [chr '/']) := by
  rcases u with _ | ⟨a, _ | ⟨b, u⟩⟩
  · -- a separator is no dot
    cases x <;> rfl
  · show ([a, chr '/'] == lit ".." && _) = ([a, chr '/'] == lit ".." && _)
    have hne : ([a, chr '/'] == lit "..") = false := by
      rw [beq_eq_false_iff_ne]
      intro h
      exact absurd (List.cons.inj (List.cons.inj h).2).1 (by decide)
    rw [hne, Bool.false_and, Bool.false_and]
  · show ([a, b] == lit ".." && ((u ++ chr '/' :: x).headD 0 == 0 ||
      (u ++ chr '/' :: x).headD 0 == chr '/')) = _
    rw [headD_append_cons u (chr '/') x []]
    rfl

theorem startsParent_eq_false (h : ¬ hasDots path) : startsParent path = false := by
  rw [startsParent, Bool.and_eq_false_iff]
  left
  rw [beq_eq_false_iff_ne]
  intro htake
  have hinfix : path.take 2 <:+: path := (List.take_prefix 2 path).isInfix
  rw [htake] at hinfix
  exact h hinfix

theorem refParentLoop_eq_false (h : chr '/' ∉ path) : refParentLoop path = false := by
  induction path with
  | nil => rfl
  | cons b path ih =>
    rw [mem_cons, not_or] at h
    have hb : (b == chr '/') = false := beq_eq_false_iff_ne.mpr (Ne.symm h.1)
    rw [refParentLoop, hb, Bool.false_and, Bool.false_or, ih h.2]

/-- A name without separators and dots adds no reference to a parent to a path. -/
theorem refParentLoop_append (h : chr '/' ∉ path) (hdots : ¬ hasDots path) (u : Bytes) :
    refParentLoop (u ++ chr '/' :: path) = refParentLoop (u ++ [chr '/']) := by
  induction u with
  | nil =>
    rw [nil_append, nil_append, refParentLoop, startsParent_eq_false hdots,
      refParentLoop_eq_false h]
    rfl
  | cons b u ih =>
    rw [cons_append, cons_append, refParentLoop, refParentLoop, ih, startsParent_append]

theorem wRefParentFolder_append (h : chr '/' ∉ path) (hdots : ¬ hasDots path) (u : Bytes) :
    wRefParentFolder (u ++ chr '/' :: path) = wRefParentFolder (u ++ [chr '/']) := by
  rw [wRefParentFolder, wRefParentFolder, startsParent_append, refParentLoop_append h hdots]

/-- The directory that entries are unmerged to does not refer to a parent folder, and leaves room
for a name. -/
def OptdirOk (optdir : Option Bytes) : Prop :=
  ∀ dir ∈ optdir, dir.length < 2047 ∧ wRefParentFolder (dir ++ [chr '/']) = false

/-- The beginning of an accepted name is not refused. -/
theorem unsafeName_eq_false (hdir : OptdirOk optdir) (hname : mergeEntryNameOk name)
    (hfiles : files <+: name) : unsafeName optdir files = false := by
  obtain ⟨-, hslash, hbackslash, hdots⟩ := hname
  have hslash' : ∀ {u : Bytes}, u <+: name → chr '/' ∉ u := fun hu h => hslash (hu.subset h)
  have hdots' : ∀ {u : Bytes}, u <+: name → ¬ hasDots u := fun hu h => hdots (h.trans hu.isInfix)
  have hself : ∀ {u : Bytes}, u <+: name → wRefParentFolder u = false := fun hu => by
    rw [wRefParentFolder, startsParent_eq_false (hdots' hu), refParentLoop_eq_false (hslash' hu)]
    rfl
  have hfinal : wRefParentFolder (finalName optdir files) = false := by
    cases optdir with
    | none => exact hself ((List.take_prefix _ _).trans hfiles)
    | some dir =>
      obtain ⟨hlen, hok⟩ := hdir dir rfl
      -- the path may be cut, but not inside of the directory
      have hcut : finalName (some dir) files =
          dir ++ chr '/' :: files.take (2047 - (dir.length + 1)) := by
        rw [finalName, take_append, take_of_length_le hlen.le]
        have hsub : 2047 - dir.length = (2047 - (dir.length + 1)) + 1 := by omega
        rw [hsub, take_succ_cons]
      have hpre := (List.take_prefix (2047 - (dir.length + 1)) files).trans hfiles
      rw [hcut, wRefParentFolder_append (hslash' hpre) (hdots' hpre), hok]
  rw [unsafeName, decide_eq_false (hslash' hfiles), decide_eq_false (hdots' hfiles),
    decide_eq_false fun h => hbackslash (hfiles.subset h), hself hfiles, hfinal]
  rfl

end Names

/-! ## What has been merged -/

/-- An entry of a merged file. -/
def entryBytes (e : Bytes × Bytes) : Bytes := header e.2.length e.1 ++ e.2

/-- A merged file of some entries. -/
def merged (es : List (Bytes × Bytes)) : Bytes := es.flatMap entryBytes

section Write

variable {fopen : Bytes → Option Bytes}

theorem merged_entries_cons (file : Bytes) (files : List Bytes) :
    merged (entries fopen (file :: files)) =
      (entry fopen file).elim [] entryBytes ++ merged (entries fopen files) := by
  cases he : entry fopen file with
  | none => rw [entries, filterMap_cons_none he]; rfl
  | some e => rw [entries, filterMap_cons_some he]; rfl

theorem mergeAppendFile_snd (finalfp file : Bytes) :
    (mergeAppendFile fopen finalfp file).2 = finalfp ++ (entry fopen file).elim [] entryBytes := by
  rw [mergeAppendFile, entry]
  cases fopen file with
  | none => exact (append_nil finalfp).symm
  | some content =>
    rw [bind_some]
    dsimp only
    split
    · rfl
    · exact (append_nil finalfp).symm

theorem mergeLoop_cons_snd (ret : Bool) (finalfp file : Bytes) (files : List Bytes) :
    ∃ ret', mergeLoop fopen ret finalfp (file :: files) =
      mergeLoop fopen ret' (mergeAppendFile fopen finalfp file).2 files := by
  rw [mergeLoop, mergeAppendFile]
  cases fopen file with
  | none => exact ⟨false, rfl⟩
  | some content =>
    dsimp only
    split
    · exact ⟨ret, rfl⟩
    · exact ⟨false, rfl⟩

theorem mergeLoop_snd (ret : Bool) (finalfp : Bytes) (files : List Bytes) :
    (mergeLoop fopen ret finalfp files).2 = finalfp ++ merged (entries fopen files) ∧
      files.foldl (fun finalfp file => (mergeAppendFile fopen finalfp file).2) finalfp =
        finalfp ++ merged (entries fopen files) := by
  induction files generalizing ret finalfp with
  | nil => exact ⟨(append_nil finalfp).symm, (append_nil finalfp).symm⟩
  | cons file files ih =>
    obtain ⟨ret', hloop⟩ := mergeLoop_cons_snd ret finalfp file files
    obtain ⟨hfiles, happend⟩ := ih ret' (mergeAppendFile fopen finalfp file).2
    rw [hloop, foldl_cons, hfiles, happend, mergeAppendFile_snd, merged_entries_cons, append_assoc]
    exact ⟨rfl, rfl⟩

end Write

/-! ## What is read -/

section Read

variable {fopen : Bytes → Bool} {optdir : Option Bytes} {fuel n : ℕ} {s : Bytes}

/-- The loop over the chunks reads as many bytes as the header says, or all that are left. -/
theorem copyLoop_eq (hn : n < fuel) : copyLoop fuel (nextChunk n) s = (s.take n, s.drop n) := by
  induction fuel generalizing n s with
  | zero => cases hn
  | succ fuel ih =>
    rw [nextChunk]
    split
    case isTrue =>
      rw [copyLoop, if_pos rfl]
      split
      case isTrue hnil =>
        rcases take_eq_nil_iff.mp hnil with rfl | rfl
        · rfl
        · rw [take_nil, drop_nil]
      case isFalse => rfl
    case isFalse hlarge =>
      rw [copyLoop]
      split
      case isTrue hnil =>
        obtain rfl := (take_eq_nil_iff.mp hnil).resolve_left (by decide)
        rw [take_nil, drop_nil]
      case isFalse =>
        have hsum : 2048 + (n - 2048) = n := by omega
        split
        case isTrue hzero => rw [show n = 2048 by omega]
        case isFalse =>
          have hlt : n - 2048 < fuel := by omega
          rw [ih hlt]
          dsimp only
          rw [← take_add, drop_drop, hsum]

/-- More fuel than there are bytes makes no difference. -/
theorem unmergeLoop_congr {fuel' : ℕ} (hs : s.length < fuel) (hs' : s.length < fuel') :
    unmergeLoop fopen optdir fuel s = unmergeLoop fopen optdir fuel' s := by
  induction fuel generalizing s fuel' with
  | zero => cases hs
  | succ fuel ih =>
    cases fuel' with
    | zero => exact absurd hs' (Nat.not_lt_zero _)
    | succ fuel' =>
      rw [unmergeLoop, unmergeLoop, fgets]
      by_cases hnil : s = []
      · rw [if_pos hnil]
      · rw [if_neg hnil]
        dsimp only
        have hlt := length_takeLine_snd_lt (k := 2048 - 1) (by decide) hnil
        have hrest : ∀ r : Bytes, r.length ≤ (takeLine (2048 - 1) s).2.length →
            unmergeLoop fopen optdir fuel r = unmergeLoop fopen optdir fuel' r := fun r hr =>
          ih (by omega) (by omega)
        have hcopy : ∀ m, (copyLoop (m + 1) (nextChunk m) (takeLine (2048 - 1) s).2).2.length ≤
            (takeLine (2048 - 1) s).2.length := fun m => by
          rw [copyLoop_eq (Nat.lt_succ_self m), length_drop]
          exact Nat.sub_le _ _
        rw [hrest _ le_rfl, hrest _ (hcopy _)]

theorem unmergeLoop_eq (hs : s.length < fuel) :
    unmergeLoop fopen optdir fuel s = unmergeFiles fopen optdir s :=
  unmergeLoop_congr hs (Nat.lt_succ_self _)

theorem unmergeFiles_newline : unmergeFiles fopen optdir (chr '\n' :: s) =
    unmergeFiles fopen optdir s := by
  rw [unmergeFiles, unmergeLoop]
  have hline : fgets 2048 (chr '\n' :: s) = some ([chr '\n'], s) := by
    rw [fgets, if_neg (cons_ne_nil _ _)]
    exact congrArg some (if_pos rfl)
  rw [hline]
  exact (if_pos (by decide)).trans (unmergeLoop_eq (Nat.lt_succ_self _))

/-- A name that a header can hold, and that the reader finds in it. -/
def readName (size : ℕ) (name : Bytes) : Bytes :=
  (name.take (2047 - ((fmtU size).length + 2))).takeWhile (· != chr '\n')

theorem readName_isPrefix (size : ℕ) (name : Bytes) : readName size name <+: name :=
  (List.takeWhile_prefix _).trans (List.take_prefix _ _)

theorem length_fmtU_lt {size : ℕ} (hsize : size < 2 ^ 63) : (fmtU size).length < 20 :=
  Nat.lt_succ_of_le (length_fmtU_le (by decide) (hsize.trans (by decide)))

/-- The line that is read for a header. -/
theorem takeLine_header {size : ℕ} (hsize : size < 2 ^ 63) {name : Bytes} (hz : ∀ b ∈ name, b ≠ 0)
    (rest : Bytes) : ∃ x, str (takeLine 2047 (header size name ++ rest)).1 =
        chr '!' :: (fmtU size ++ chr ' ' :: (readName size name ++ x)) ∧
      cut (takeLine 2047 (header size name ++ rest)).1 =
        chr '!' :: (fmtU size ++ chr ' ' :: readName size name) := by
  have hdigit : ∀ b ∈ fmtU size, isDigit b := fun _ => isDigit_of_mem_fmtU
  have hheader : header size name ++ rest =
      (chr '!' :: (fmtU size ++ chr ' ' :: name)) ++ chr '\n' :: rest := by
    simp [header]
  -- the line has no zero byte, since the header has none
  have hstr : str (takeLine 2047 (header size name ++ rest)).1 =
      (takeLine 2047 (header size name ++ rest)).1 := by
    apply str_eq_self
    intro b hb
    rw [hheader] at hb
    have hmem := (takeLine_fst_isPrefix 2047 _ rest).subset hb
    simp only [cons_append, append_assoc, mem_cons, mem_append, not_mem_nil, or_false] at hmem
    rcases hmem with rfl | hmem | rfl | hmem | rfl
    · decide
    · intro hb0
      exact absurd (hb0 ▸ hdigit b hmem) (by decide)
    · decide
    · exact hz b hmem
    · decide
  have hcut : cut (takeLine 2047 (header size name ++ rest)).1 =
      chr '!' :: (fmtU size ++ chr ' ' :: readName size name) := by
    have hlen := length_fmtU_lt hsize
    have htake : (header size name ++ rest).take 2047 = chr '!' :: (fmtU size ++ chr ' ' ::
        (name ++ chr '\n' :: rest).take (2047 - ((fmtU size).length + 2))) := by
      have hsub : 2046 - (fmtU size).length = (2047 - ((fmtU size).length + 2)) + 1 := by omega
      rw [hheader, cons_append, append_assoc, take_succ_cons, take_append,
        take_of_length_le (by omega), hsub, cons_append, take_succ_cons]
    have hne : ∀ b ∈ fmtU size, (b != chr '\n') = true := fun b hb => by
      rw [bne_iff_ne]
      intro hbn
      exact absurd (hbn ▸ hdigit b hb) (by decide)
    rw [cut, hstr, takeWhile_takeLine, htake, takeWhile_cons_of_pos (by decide),
      takeWhile_append_of_pos hne, takeWhile_cons_of_pos (by decide), takeWhile_take_append]
    rfl
  refine ⟨(str (takeLine 2047 (header size name ++ rest)).1).dropWhile (· != chr '\n'), ?_, hcut⟩
  conv_lhs => rw [← takeWhile_append_dropWhile (p := (· != chr '\n'))
    (l := str (takeLine 2047 (header size name ++ rest)).1)]
  rw [cut] at hcut
  rw [hcut]
  simp

theorem strchr_header {size : ℕ} (name : Bytes) :
    strchr (chr ' ') (chr '!' :: (fmtU size ++ chr ' ' :: name)) = some (chr ' ' :: name) := by
  have hdigit : ∀ b ∈ fmtU size, isDigit b := fun _ => isDigit_of_mem_fmtU
  have hne : ∀ {c : UInt8}, isDigit c = false → c ∉ fmtU size := fun hc h =>
    Bool.false_ne_true (hc.symm.trans (hdigit _ h))
  rw [← cons_append]
  apply strchr_append
  · rw [mem_cons, not_or]
    exact ⟨by decide, hne (by decide)⟩
  · intro b hb
    rcases mem_cons.mp hb with rfl | hb
    · decide
    · rintro rfl
      exact hne (by decide) hb

/-- What the reader makes of a header and what follows it. -/
theorem unmergeFiles_header {size : ℕ} (hsize : size < 2 ^ 63) {name : Bytes}
    (hz : ∀ b ∈ name, b ≠ 0) (rest : Bytes) :
    let files := readName size name
    let r := (takeLine 2047 (header size name ++ rest)).2
    unmergeFiles fopen optdir (header size name ++ rest) =
      (unmergeFiles fopen optdir (r.drop size)).map fun w =>
        if unsafeName optdir files || !fopen (finalName optdir files) then (false, w.2)
        else (w.1, (finalName optdir files, r.take size) :: w.2) := by
  intro files r
  obtain ⟨x, hstr, hcut⟩ := takeLine_header hsize hz rest
  have hne : header size name ++ rest ≠ [] := cons_ne_nil _ _
  have hfgets : fgets 2048 (header size name ++ rest) =
      some ((takeLine 2047 (header size name ++ rest)).1, r) := by
    rw [fgets, if_neg hne]
  have hlong : strtol (str (takeLine 2047 (header size name ++ rest)).1).tail = size := by
    rw [hstr]
    exact strtol_fmtU_append hsize (by rfl)
  have hsizeT : ((size : ℤ) % 2 ^ 64).toNat = size := by omega
  have hlt : (r.drop size).length < (header size name ++ rest).length := by
    rw [length_drop]
    exact (Nat.sub_le _ _).trans_lt (length_takeLine_snd_lt (by decide) hne)
  rw [unmergeFiles, unmergeLoop, hfgets]
  dsimp only
  rw [hcut, strchr_header, if_neg (by rw [hstr]; exact fun h => h rfl), hlong, hsizeT]
  dsimp only
  rw [copyLoop_eq (Nat.lt_succ_self size), tail_cons]
  rw [unmergeLoop_eq hlt]
  split
  · rfl
  · rfl

/-! ## Round trip -/

/-- The path of an entry, and what belongs there. -/
def target (optdir : Option Bytes) (e : Bytes × Bytes) : Bytes × Bytes :=
  match optdir with
  | some dir => (dir ++ chr '/' :: e.1, e.2)
  | none => e

/-- The header of an entry is one line that the reader gets whole, up to its newline at least if
nothing but newlines follow, and the path of the entry fits. -/
def Fits (optdir : Option Bytes) (e : Bytes × Bytes) : Prop :=
  chr '\n' ∉ e.1 ∧
  ((header e.2.length e.1).length ≤ 2047 ∨
    (header e.2.length e.1).length = 2048 ∧ ∀ b ∈ e.2, b = chr '\n') ∧
  ∀ dir ∈ optdir, dir.length + 1 + e.1.length ≤ 2047

instance (optdir : Option Bytes) (e : Bytes × Bytes) : Decidable (Fits optdir e) :=
  inferInstanceAs (Decidable (_ ∧ (_ ∨ _ ∧ ∀ b ∈ e.2, _) ∧ ∀ dir ∈ optdir, _))

/-- What is promised of an entry: an accepted name without a zero byte, and a size that is a
`long`. -/
structure EntryOk (e : Bytes × Bytes) : Prop where
  name : mergeEntryNameOk e.1
  name_ne_zero : ∀ b ∈ e.1, b ≠ 0
  size : e.2.length < 2 ^ 63

variable {e : Bytes × Bytes} {es : List (Bytes × Bytes)}

theorem length_header (size : ℕ) (name : Bytes) :
    (header size name).length = (fmtU size).length + 2 + name.length + 1 := by
  simp [header]
  omega

/-- The entry as the reader sees it, and what it goes on with. -/
theorem unmergeFiles_entry (hdir : OptdirOk optdir) (he : EntryOk e) (rest : Bytes) :
    let files := readName e.2.length e.1
    let r := (takeLine 2047 (entryBytes e ++ rest)).2
    unmergeFiles fopen optdir (entryBytes e ++ rest) =
      (unmergeFiles fopen optdir (r.drop e.2.length)).map fun w =>
        if fopen (finalName optdir files) then
          (w.1, (finalName optdir files, r.take e.2.length) :: w.2)
        else (false, w.2) := by
  intro files r
  have hr : r = (takeLine 2047 (header e.2.length e.1 ++ (e.2 ++ rest))).2 := by
    rw [← append_assoc]
    rfl
  have hsafe := unsafeName_eq_false hdir he.name (readName_isPrefix e.2.length e.1)
  rw [entryBytes, append_assoc, unmergeFiles_header he.size he.name_ne_zero, ← hr, hsafe]
  congr 1
  ext w
  all_goals cases fopen (finalName optdir (readName e.2.length e.1)) <;> simp [files]

/-- The bytes behind the line that is read for a header, where the reader gets the name whole. -/
theorem takeLine_entry (hn : chr '\n' ∉ e.1) (rest : Bytes) :
    ((header e.2.length e.1).length ≤ 2047 →
      (takeLine 2047 (entryBytes e ++ rest)).2 = e.2 ++ rest) ∧
    ((header e.2.length e.1).length = 2048 →
      (takeLine 2047 (entryBytes e ++ rest)).2 = chr '\n' :: (e.2 ++ rest)) := by
  have hsplit : entryBytes e ++ rest =
      (chr '!' :: (fmtU e.2.length ++ chr ' ' :: e.1)) ++ chr '\n' :: (e.2 ++ rest) := by
    simp [entryBytes, header]
  have hline : chr '\n' ∉ chr '!' :: (fmtU e.2.length ++ chr ' ' :: e.1) := by
    simp only [mem_cons, mem_append, not_or]
    refine ⟨by decide, fun h => ?_, by decide, hn⟩
    exact absurd (isDigit_of_mem_fmtU h) (by decide)
  have hlength : (chr '!' :: (fmtU e.2.length ++ chr ' ' :: e.1)).length + 1 =
      (header e.2.length e.1).length := by
    rw [length_header]
    simp
    omega
  constructor
  · intro h
    rw [hsplit, takeLine_append hline (by omega)]
  · intro h
    rw [hsplit, takeLine_of_length hline (by omega)]

theorem readName_eq_self {size : ℕ} {name : Bytes} :
    readName size name = name ↔
      chr '\n' ∉ name ∧ name.length ≤ 2047 - ((fmtU size).length + 2) := by
  constructor
  · intro h
    rw [← h]
    constructor
    · intro hmem
      exact absurd (mem_takeWhile_imp hmem) (by decide)
    · exact (List.takeWhile_prefix _).length_le.trans (List.length_take_le _ _)
  · rintro ⟨hn, hlen⟩
    rw [readName, take_of_length_le hlen, takeWhile_eq_self_iff]
    intro b hb
    rw [bne_iff_ne]
    rintro rfl
    exact hn hb

theorem take_cons_append_eq_self {b : UInt8} {l r : Bytes} :
    (b :: (l ++ r)).take l.length = l ↔ ∀ c ∈ l, c = b := by
  induction l generalizing b with
  | nil => simp
  | cons a l ih =>
    rw [length_cons, take_succ_cons, cons_append, cons_eq_cons, ih, forall_mem_cons]
    constructor
    · rintro ⟨rfl, h⟩
      exact ⟨rfl, h⟩
    · rintro ⟨rfl, h⟩
      exact ⟨rfl, h⟩

theorem drop_cons_append {b : UInt8} {l r : Bytes} (h : ∀ c ∈ l, c = b) :
    (b :: (l ++ r)).drop l.length = b :: r := by
  induction l with
  | nil => rfl
  | cons a l ih =>
    rw [forall_mem_cons] at h
    obtain ⟨rfl, h⟩ := h
    exact ih h

/-- The path of an entry is kept if it is not cut. -/
theorem finalName_eq_target {files : Bytes} (hfiles : files <+: e.1) :
    finalName optdir files = (target optdir e).1 ↔
      files = e.1 ∧ (∀ dir ∈ optdir, dir.length + 1 + e.1.length ≤ 2047) ∧
        (optdir = none → e.1.length ≤ 2048) := by
  cases optdir with
  | none =>
    show files.take 2048 = e.1 ↔ _
    constructor
    · intro h
      have hle : e.1.length ≤ files.length := by
        rw [← h]
        exact length_take_le' _ _
      obtain rfl := hfiles.eq_of_length_le hle
      refine ⟨rfl, fun dir hdir => absurd hdir (by simp), fun _ => ?_⟩
      rw [← h]
      exact List.length_take_le _ _
    · rintro ⟨rfl, -, hlen⟩
      exact take_of_length_le (hlen rfl)
  | some dir =>
    show (dir ++ chr '/' :: files).take 2047 = dir ++ chr '/' :: e.1 ↔ _
    constructor
    · intro h
      have hlen := congrArg List.length h
      rw [length_take, length_append, length_append, length_cons, length_cons] at hlen
      obtain rfl := hfiles.eq_of_length_le (by omega)
      refine ⟨rfl, fun d hd => ?_, fun h => absurd h (by simp)⟩
      cases hd
      omega
    · rintro ⟨rfl, hlen, -⟩
      apply take_of_length_le
      have := hlen dir rfl
      rw [length_append, length_cons]
      omega

/-- The reader finds name and content of an entry just if it fits. -/
theorem read_eq_target_iff (he : EntryOk e) (rest : Bytes) :
    (finalName optdir (readName e.2.length e.1),
      (takeLine 2047 (entryBytes e ++ rest)).2.take e.2.length) = target optdir e ↔
        Fits optdir e := by
  have hlen := length_header e.2.length e.1
  have htwo : (target optdir e).2 = e.2 := by cases optdir <;> rfl
  rw [Prod.ext_iff, finalName_eq_target (readName_isPrefix _ _), readName_eq_self, htwo, Fits]
  have hdigits := length_fmtU_lt he.size
  constructor
  · rintro ⟨⟨⟨hn, hname⟩, hpath, -⟩, hcontent⟩
    refine ⟨hn, ?_, hpath⟩
    by_cases hshort : (header e.2.length e.1).length ≤ 2047
    · exact .inl hshort
    · -- the newline of the header is left in front of the content
      have hlong : (header e.2.length e.1).length = 2048 := by omega
      rw [(takeLine_entry hn rest).2 hlong] at hcontent
      exact .inr ⟨hlong, take_cons_append_eq_self.mp hcontent⟩
  · rintro ⟨hn, hheader, hpath⟩
    refine ⟨⟨⟨hn, by omega⟩, hpath, fun _ => by omega⟩, ?_⟩
    rcases hheader with hshort | ⟨hlong, hcontent⟩
    · rw [(takeLine_entry hn rest).1 hshort]
      exact take_left
    · rw [(takeLine_entry hn rest).2 hlong]
      exact take_cons_append_eq_self.mpr hcontent

theorem unmergeFiles_drop (hfits : Fits optdir e) (rest : Bytes) :
    unmergeFiles fopen optdir ((takeLine 2047 (entryBytes e ++ rest)).2.drop e.2.length) =
      unmergeFiles fopen optdir rest := by
  obtain ⟨hn, hshort | ⟨hlong, hcontent⟩, -⟩ := hfits
  · rw [(takeLine_entry hn rest).1 hshort, drop_left]
  · rw [(takeLine_entry hn rest).2 hlong, drop_cons_append hcontent, unmergeFiles_newline]

theorem unmergeFiles_of_fits (hdir : OptdirOk optdir) (he : EntryOk e) (hfits : Fits optdir e)
    (rest : Bytes) : unmergeFiles fopen optdir (entryBytes e ++ rest) =
      (unmergeFiles fopen optdir rest).map fun w =>
        if fopen (target optdir e).1 then (w.1, target optdir e :: w.2) else (false, w.2) := by
  have hread := (read_eq_target_iff he rest).mpr hfits
  have hpath : finalName optdir (readName e.2.length e.1) = (target optdir e).1 :=
    congrArg Prod.fst hread
  rw [unmergeFiles_entry hdir he, unmergeFiles_drop hfits, hread, hpath]

/-- The files that are written. -/
def written (w : Option Written) : Option (List (Bytes × Bytes)) := w.map Prod.snd

/-- Where all entries fit, those are read back that can be opened for writing. -/
theorem written_of_fits (hdir : OptdirOk optdir) (hes : ∀ e ∈ es, EntryOk e)
    (hfits : ∀ e ∈ es, Fits optdir e) :
    written (unmergeFiles fopen optdir (merged es)) =
      some ((es.map (target optdir)).filter fun w => fopen w.1) := by
  induction es with
  | nil => rfl
  | cons e es ih =>
    rw [forall_mem_cons] at hes hfits
    have hrest := ih hes.2 hfits.2
    have hcons : merged (e :: es) = entryBytes e ++ merged es := rfl
    rw [written] at hrest
    rw [hcons, unmergeFiles_of_fits hdir hes.1 hfits.1, written, Option.map_map, map_cons,
      filter_cons]
    obtain ⟨w, hw, hsnd⟩ := map_eq_some_iff.mp hrest
    rw [hw, ← hsnd, map_some]
    cases fopen (target optdir e).1 <;> rfl

/-- Where all files can be opened, the entries are read back only if they fit. -/
theorem fits_of_written (hdir : OptdirOk optdir) (hes : ∀ e ∈ es, EntryOk e)
    (h : written (unmergeFiles (fun _ => true) optdir (merged es)) =
      some (es.map (target optdir))) : ∀ e ∈ es, Fits optdir e := by
  induction es with
  | nil => exact fun e he => absurd he not_mem_nil
  | cons e es ih =>
    rw [forall_mem_cons] at hes ⊢
    have hcons : merged (e :: es) = entryBytes e ++ merged es := rfl
    rw [hcons, written, unmergeFiles_entry hdir hes.1, Option.map_map, map_eq_some_iff] at h
    obtain ⟨w, hw, hwritten⟩ := h
    rw [map_cons] at hwritten
    have hfits := (read_eq_target_iff hes.1 (merged es)).mp (List.cons.inj hwritten).1
    rw [unmergeFiles_drop hfits] at hw
    refine ⟨hfits, ih hes.2 ?_⟩
    rw [written, hw]
    exact congrArg some (List.cons.inj hwritten).2

end Read

/-! ## The files that are merged -/

section Files

variable {fopen : Bytes → Option Bytes} {optdir : Option Bytes} {files : List Bytes}

theorem entryOk_of_mem (hz : ∀ file ∈ files, ∀ b ∈ file, b ≠ 0)
    (hsize : ∀ file ∈ files, ∀ content ∈ fopen file, content.length < 2 ^ 63) :
    ∀ e ∈ entries fopen files, EntryOk e := by
  intro e he
  obtain ⟨file, hfile, hentry⟩ := mem_filterMap.mp he
  obtain ⟨content, hcontent, hname⟩ := bind_eq_some_iff.mp hentry
  split at hname
  case isFalse => cases hname
  case isTrue hok =>
    cases hname
    refine ⟨hok, fun b hb => ?_, hsize file hfile content hcontent⟩
    -- the name is the end of the path
    have hmem := (List.takeWhile_prefix _).subset (mem_reverse.mp hb)
    exact hz file hfile b (mem_reverse.mp hmem)

/-- What `UnmergeFiles` writes of a merged file, whichever way it was merged, is what was merged,
but for the files that cannot be opened, just if every entry fits. -/
theorem unmergeFiles_mergeFiles_iff (hdir : OptdirOk optdir)
    (hz : ∀ file ∈ files, ∀ b ∈ file, b ≠ 0)
    (hsize : ∀ file ∈ files, ∀ content ∈ fopen file, content.length < 2 ^ 63) :
    (∀ finalfp ∈ [(mergeFiles fopen files).2, mergeAppendFiles fopen files],
      ∀ fopenw : Bytes → Bool, written (unmergeFiles fopenw optdir finalfp) =
        some (((entries fopen files).map (target optdir)).filter fun w => fopenw w.1)) ↔
      ∀ e ∈ entries fopen files, Fits optdir e := by
  have hes := entryOk_of_mem hz hsize
  have hmerge : (mergeFiles fopen files).2 = merged (entries fopen files) :=
    (mergeLoop_snd true [] files).1
  have happend : mergeAppendFiles fopen files = merged (entries fopen files) :=
    (mergeLoop_snd true [] files).2
  rw [hmerge, happend]
  constructor
  · intro h
    apply fits_of_written hdir hes
    rw [h _ mem_cons_self fun _ => true, filter_eq_self.mpr fun _ _ => rfl]
  · intro hfits finalfp hfinalfp fopenw
    have hfinalfp' : finalfp = merged (entries fopen files) := by simpa using hfinalfp
    rw [hfinalfp', written_of_fits hdir hes hfits]

/-- Two files, the second of which looks like an entry itself, and a path that cannot be opened. -/
theorem unmergeFiles_mergeFiles_two :
    let fopen : Bytes → Option Bytes := fun file =>
      if file = lit "/etc/a" then some (lit "x\n")
      else if file = lit "b" then some (lit "!3 c\nabc") else none
    (∀ finalfp ∈ [(mergeFiles fopen [lit "/etc/a", lit "none", lit "b"]).2,
        mergeAppendFiles fopen [lit "/etc/a", lit "none", lit "b"]],
      ∀ fopenw : Bytes → Bool, written (unmergeFiles fopenw (some (lit "/var")) finalfp) =
        some (((entries fopen [lit "/etc/a", lit "none", lit "b"]).map
          (target (some (lit "/var")))).filter fun w => fopenw w.1)) := by
  intro fopen
  apply (unmergeFiles_mergeFiles_iff _ _ _).mpr
  · decide +kernel
  · intro dir hdir
    obtain rfl := some.inj hdir
    decide +kernel
  · decide +kernel
  · intro file _ content hcontent
    simp only [fopen] at hcontent
    split at hcontent
    · obtain rfl := some.inj hcontent
      decide
    · split at hcontent
      · obtain rfl := some.inj hcontent
        decide
      · exact absurd hcontent (by simp)

/-- The header of a name with a newline is read as two lines: the entry is written to another file,
and its content begins with the rest of the name. -/
theorem unmergeFiles_newline_name :
    let fopen : Bytes → Option Bytes := fun file =>
      if file = lit "a\nb" then some (lit "xyz") else none
    mergeEntryNameOk (lit "a\nb") ∧ entries fopen [lit "a\nb"] = [(lit "a\nb", lit "xyz")] ∧
      unmergeFiles (fun _ => true) none (mergeFiles fopen [lit "a\nb"]).2 =
        some (true, [(lit "a", lit "b\nx")]) ∧
      written (unmergeFiles (fun _ => true) none (mergeFiles fopen [lit "a\nb"]).2) ≠
        some ((entries fopen [lit "a\nb"]).map (target none)) := by
  decide +kernel

end Files

end Merge
