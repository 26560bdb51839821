import Mathlib.Data.List.Induction
import OssecHids.OsCrypto.Keys

/-!
# The shared files of the agents

`manager.c`: `c_files` lists the files in the shared directory with their digests, and
`read_controlmsg` compares the list that an agent reports with them and sends what differs. The
marks of the files are kept in the list, which all agents share.

- `SharedFiles.reported`: the lines of a message, up to the first malformed one;
- `readLoop_eq`: what the loop over a message marks, and where it stops;
- `SharedFiles.answer`: what is sent for a message, from the names and the digests alone;
- `SharedFiles.answer_of_run`: every message is answered so, and leaves no mark.
-/

open CString Transition List Option

namespace SharedFiles

/-- `SHAREDCFG_DIR` -/
def SHAREDCFG_DIR : Bytes := lit "/etc/shared"

/-- `SHAREDCFG_FILENAME` -/
def SHAREDCFG_FILENAME : Bytes := lit "merged.mg"

/-- `SHAREDCFG_FILE` -/
def SHAREDCFG_FILE : Bytes := SHAREDCFG_DIR ++ lit "/merged.mg"

/-- `file_sum` -/
structure FileSum where
  mark : ℤ
  name : Bytes
  sum : Bytes
  deriving DecidableEq

/-- The array `f_sum`: the merged file, and the files behind it up to the `NULL`. -/
structure FSum where
  merged : FileSum
  files : List FileSum
  deriving DecidableEq

/-! ## Functions -/

/-- The loop of `c_files` over the entries of the directory. -/
def entrySum (md5File : Bytes → Option Bytes) (d_name : Bytes) : Option FileSum :=
  let tmp_dir := snprintf 512 (SHAREDCFG_DIR ++ chr '/' :: d_name)
  if d_name = lit "." ∨ d_name = lit ".." then none
  else if tmp_dir = SHAREDCFG_FILE then none
  else (md5File tmp_dir).map fun md5sum =>
    { mark := 0, name := d_name, sum := strncpy 32 md5sum }

/-- `c_files`, for a directory that can be opened, with what `md5sum` holds when the merged file has
been read. -/
def cFiles (md5File : Bytes → Option Bytes) (entries : List Bytes) (md5sum : Bytes) : FSum :=
  { merged := { mark := 0, name := SHAREDCFG_FILENAME, sum := strncpy 32 md5sum }
    files := entries.filterMap (entrySum md5File) }

/-- The loop of `read_controlmsg` that marks the file with a name. -/
def markFile (md5 file : Bytes) : List FileSum → List FileSum
  | [] => []
  | f :: files =>
    if f.name ≠ file then f :: markFile md5 file files
    else if f.sum ≠ md5 then { f with mark := 1 } :: files
    else { f with mark := 2 } :: files

/-- The loop of `read_controlmsg` over a message: the files with their marks, and the digest of the
merged file, if there is a line with it. -/
def readLoop : ℕ → Bytes → List FileSum → List FileSum × Option Bytes
  | 0, _, files => (files, none)
  | fuel + 1, msg, files =>
    if msg.headD 0 = 0 then (files, none)
    else
      match cutAt (chr '\n') msg with
      | none => (files, none)
      | some (line, msg) =>
        match cutAt (chr ' ') line with
        | none => (files, none)
        | some (md5, file) =>
          if file = SHAREDCFG_FILENAME then (files, some md5)
          else readLoop fuel msg (markFile md5 file files)

def resetMark (f : FileSum) : FileSum := { f with mark := 0 }

/-- A call of `send_file_toagent`: the name and the digest of the file. -/
def FileSum.send (f : FileSum) : Bytes × Bytes := (f.name, f.sum)

/-- The last loop of `read_controlmsg`. -/
def sendMarked (files : List FileSum) : List (Bytes × Bytes) × List FileSum :=
  ((files.filter fun f => f.mark = 1 ∨ f.mark = 0).map FileSum.send, files.map resetMark)

/-- `read_controlmsg`: what is sent to the agent. `known` says that the agent has a key and an
address. -/
def readControlmsg (known : Bool) (msg : Bytes) (f_sum : Option FSum) :
    List (Bytes × Bytes) × Option FSum :=
  if known = false then ([], f_sum)
  else
    match cutAt (chr '\n') msg, f_sum with
    | none, f_sum => ([], f_sum)
    | some _, none => ([], none)
    | some (_, msg), some f_sum =>
      match readLoop msg.length msg f_sum.files with
      | (files, some md5) =>
        (if f_sum.merged.sum ≠ md5 then [f_sum.merged.send] else [],
          some { merged := resetMark f_sum.merged, files := files.map resetMark })
      | (files, none) =>
        ((sendMarked files).1, some { f_sum with files := (sendMarked files).2 })

/-! ## What a message says -/

/-- The lines of a message, up to the first one without a newline or a space. -/
def reportedLoop : ℕ → Bytes → List (Bytes × Bytes)
  | 0, _ => []
  | fuel + 1, msg =>
    if msg.headD 0 = 0 then []
    else
      match cutAt (chr '\n') msg with
      | none => []
      | some (line, msg) =>
        match cutAt (chr ' ') line with
        | none => []
        | some (md5, file) => (md5, file) :: reportedLoop fuel msg

/-- The digests and the names that a message reports. -/
def reported (msg : Bytes) : List (Bytes × Bytes) := reportedLoop msg.length msg

/-- The digest in the first line with a name. -/
def firstDigest (lines : List (Bytes × Bytes)) (name : Bytes) : Option Bytes :=
  (lines.find? fun line => line.2 = name).map Prod.fst

/-- The digest in the last line with a name. -/
def lastDigest (lines : List (Bytes × Bytes)) (name : Bytes) : Option Bytes :=
  firstDigest lines.reverse name

/-- What is sent for some lines: the merged file alone, if there is a line with its name, and
otherwise each file that is not reported with its digest. -/
def FSum.answer (f_sum : FSum) (lines : List (Bytes × Bytes)) : List (Bytes × Bytes) :=
  match firstDigest lines SHAREDCFG_FILENAME with
  | some md5 => if f_sum.merged.sum ≠ md5 then [f_sum.merged.send] else []
  | none =>
    (f_sum.files.filter fun f => lastDigest lines f.name ≠ some f.sum).map FileSum.send

/-- What is sent for a message. -/
def answer (known : Bool) (msg : Bytes) (f_sum : Option FSum) : List (Bytes × Bytes) :=
  match known, cutAt (chr '\n') msg, f_sum with
  | true, some (_, msg), some f_sum => f_sum.answer (reported msg)
  | _, _, _ => []

/-! ## One call -/

variable {files : List FileSum} {lines : List (Bytes × Bytes)} {f_sum : FSum}

theorem firstDigest_cons_of_eq {line : Bytes × Bytes} {name : Bytes} (h : line.2 = name) :
    firstDigest (line :: lines) name = some line.1 := by
  rw [firstDigest, find?_cons_of_pos (by simpa using h)]
  rfl

theorem firstDigest_cons_of_ne {line : Bytes × Bytes} {name : Bytes} (h : line.2 ≠ name) :
    firstDigest (line :: lines) name = firstDigest lines name := by
  rw [firstDigest, find?_cons_of_neg (by simpa using h)]
  rfl

theorem lastDigest_concat (line : Bytes × Bytes) (name : Bytes) :
    lastDigest (lines ++ [line]) name =
      if line.2 = name then some line.1 else lastDigest lines name := by
  rw [lastDigest, reverse_append, reverse_singleton, singleton_append]
  split
  case isTrue h => exact firstDigest_cons_of_eq h
  case isFalse h => exact firstDigest_cons_of_ne h

/-- What a line does to the mark of a file. -/
def markOne (f : FileSum) (line : Bytes × Bytes) : FileSum :=
  if f.name ≠ line.2 then f else { f with mark := if f.sum ≠ line.1 then 1 else 2 }

theorem name_markOne (f : FileSum) (line : Bytes × Bytes) : (markOne f line).name = f.name := by
  unfold markOne
  split <;> rfl

theorem markFile_eq_map (hnodup : (files.map FileSum.name).Nodup) (md5 file : Bytes) :
    markFile md5 file files = files.map (markOne · (md5, file)) := by
  induction files with
  | nil => rfl
  | cons f files ih =>
    rw [map_cons, nodup_cons] at hnodup
    obtain ⟨hf, hfiles⟩ := hnodup
    rw [markFile, map_cons]
    by_cases hname : f.name = file
    · -- no other file has the name
      have hrest : files.map (markOne · (md5, file)) = files.map id := by
        apply map_congr_left
        intro g hg
        refine if_pos ?_
        rintro (rfl : g.name = file)
        exact hf (hname ▸ mem_map_of_mem hg)
      rw [hrest, List.map_id, if_neg (not_not.mpr hname), markOne, if_neg (not_not.mpr hname)]
      split <;> rfl
    · rw [if_pos hname, markOne, if_pos hname, ih hfiles]

theorem foldl_markFile (hnodup : (files.map FileSum.name).Nodup) (lines : List (Bytes × Bytes)) :
    lines.foldl (fun files line => markFile line.1 line.2 files) files =
      files.map fun f => lines.foldl markOne f := by
  induction lines generalizing files with
  | nil => exact (List.map_id _).symm
  | cons line lines ih =>
    have hnames : (files.map (markOne · line)).map FileSum.name = files.map FileSum.name := by
      rw [List.map_map]
      exact map_congr_left fun f _ => name_markOne f line
    rw [foldl_cons, markFile_eq_map hnodup, ih (hnames ▸ hnodup), List.map_map]
    rfl

theorem foldl_markOne (f : FileSum) (lines : List (Bytes × Bytes)) :
    lines.foldl markOne f =
      { f with mark := match lastDigest lines f.name with
          | none => f.mark
          | some md5 => if f.sum ≠ md5 then 1 else 2 } := by
  induction lines using List.reverseRecOn with
  | nil => rfl
  | append_singleton lines line ih =>
    rw [foldl_append, foldl_cons, foldl_nil, ih, markOne, lastDigest_concat]
    by_cases hname : line.2 = f.name
    · rw [if_neg (not_not.mpr hname.symm), if_pos hname]
    · rw [if_pos (Ne.symm hname), if_neg hname]

/-- The loop marks the files in the lines in front of the merged file, and stops there. -/
theorem readLoop_eq (fuel : ℕ) (msg : Bytes) (files : List FileSum) :
    readLoop fuel msg files =
      (((reportedLoop fuel msg).takeWhile fun line => line.2 ≠ SHAREDCFG_FILENAME).foldl
        (fun files line => markFile line.1 line.2 files) files,
        firstDigest (reportedLoop fuel msg) SHAREDCFG_FILENAME) := by
  induction fuel generalizing msg files with
  | zero => rfl
  | succ fuel ih =>
    rw [readLoop, reportedLoop]
    by_cases hend : msg.headD 0 = 0
    · rw [if_pos hend, if_pos hend]
      rfl
    rw [if_neg hend, if_neg hend]
    cases hline : cutAt (chr '\n') msg with
    | none => rfl
    | some l =>
      dsimp only
      cases hfile : cutAt (chr ' ') l.1 with
      | none => rfl
      | some field =>
        dsimp only
        by_cases hmerged : field.2 = SHAREDCFG_FILENAME
        · rw [if_pos hmerged, takeWhile_cons_of_neg (by simpa using hmerged),
            firstDigest_cons_of_eq hmerged]
          rfl
        · rw [if_neg hmerged, ih, takeWhile_cons_of_pos (by simpa using hmerged),
            firstDigest_cons_of_ne hmerged]
          rfl

/-- What all agents share: no two files of one name, none with the name of the merged file, and no
marks. -/
structure FSum.Unmarked (f_sum : FSum) : Prop where
  merged_name : f_sum.merged.name = SHAREDCFG_FILENAME
  merged_mark : f_sum.merged.mark = 0
  nodup : (f_sum.files.map FileSum.name).Nodup
  name_ne : ∀ f ∈ f_sum.files, f.name ≠ SHAREDCFG_FILENAME
  mark : ∀ f ∈ f_sum.files, f.mark = 0

theorem resetMark_of_mark {f : FileSum} (h : f.mark = 0) : resetMark f = f := by
  obtain ⟨mark, name, sum⟩ := f
  obtain rfl : mark = 0 := h
  rfl

/-- Some marks and the reset of all marks lead back to the files without marks. -/
theorem map_resetMark (hmark : ∀ f ∈ files, f.mark = 0) (lines : List (Bytes × Bytes)) :
    (files.map fun f => lines.foldl markOne f).map resetMark = files := by
  rw [List.map_map, map_congr_left (g := id), List.map_id]
  intro f hf
  rw [Function.comp_apply, foldl_markOne]
  exact resetMark_of_mark (hmark f hf)

theorem takeWhile_of_firstDigest (h : firstDigest lines SHAREDCFG_FILENAME = none) :
    (lines.takeWhile fun line => line.2 ≠ SHAREDCFG_FILENAME) = lines := by
  rw [firstDigest, map_eq_none_iff, find?_eq_none] at h
  rw [takeWhile_eq_self_iff]
  intro line hline
  simpa using h line hline

/-- The marks that are left to be sent are those of the files that are not reported with their
digest. -/
theorem filter_marked (hmark : ∀ f ∈ files, f.mark = 0) (lines : List (Bytes × Bytes)) :
    (sendMarked (files.map fun f => lines.foldl markOne f)).1 =
      (files.filter fun f => lastDigest lines f.name ≠ some f.sum).map FileSum.send := by
  rw [sendMarked]
  dsimp only
  rw [List.filter_map, List.map_map]
  have hsend : (FileSum.send ∘ fun f => lines.foldl markOne f) = FileSum.send := by
    funext f
    rw [Function.comp_apply, foldl_markOne]
    rfl
  rw [hsend]
  congr 1
  apply filter_congr
  intro f hf
  rw [Function.comp_apply, foldl_markOne]
  cases hlast : lastDigest lines f.name with
  | none => simp [hmark f hf]
  | some md5 =>
    by_cases hsum : f.sum = md5
    · simp [hsum]
    · simp [hsum, Ne.symm hsum]

/-- A message is answered from the names and the digests, and leaves everything as it was. -/
theorem FSum.Unmarked.readControlmsg (h : f_sum.Unmarked) (known : Bool) (msg : Bytes) :
    SharedFiles.readControlmsg known msg (some f_sum) =
      (SharedFiles.answer known msg (some f_sum), some f_sum) := by
  unfold SharedFiles.readControlmsg SharedFiles.answer
  cases known with
  | false => rfl
  | true =>
    rw [if_neg (Ne.symm Bool.false_ne_true)]
    cases cutAt (chr '\n') msg with
    | none => rfl
    | some line =>
      dsimp only
      rw [readLoop_eq, foldl_markFile h.nodup, FSum.answer, reported]
      cases hmerged : firstDigest (reportedLoop line.2.length line.2) SHAREDCFG_FILENAME with
      | some md5 =>
        dsimp only
        rw [map_resetMark h.mark, resetMark_of_mark h.merged_mark]
      | none =>
        dsimp only
        rw [takeWhile_of_firstDigest hmerged, filter_marked h.mark, sendMarked,
          map_resetMark h.mark]

/-! ## Runs -/

/-- What `wait_for_msgs` does with the list of files. -/
inductive Call
  /-- `f_files` and `c_files`, with the entries of the directory, what `OS_MD5_File` says about
  files, and what `md5sum` holds in the end. -/
  | read (md5File : Bytes → Option Bytes) (entries : List Bytes) (md5sum : Bytes)
  | control (known : Bool) (msg : Bytes)

/-- A call, and what it sends. The entries of a directory have different names. -/
def Step (f_sum : Option FSum) (l : Call × List (Bytes × Bytes)) (f_sum' : Option FSum) : Prop :=
  match l.1 with
  | .read md5File entries md5sum =>
    entries.Nodup ∧ l.2 = [] ∧ f_sum' = some (cFiles md5File entries md5sum)
  | .control known msg => readControlmsg known msg f_sum = (l.2, f_sum')

theorem entrySum_spec {md5File : Bytes → Option Bytes} {d_name : Bytes} {f : FileSum}
    (h : entrySum md5File d_name = some f) :
    f.name = d_name ∧ f.mark = 0 ∧ d_name ≠ SHAREDCFG_FILENAME := by
  unfold entrySum at h
  dsimp only at h
  split at h
  case isTrue => exact nomatch h
  case isFalse =>
    split at h
    case isTrue => exact nomatch h
    case isFalse hmerged =>
      obtain ⟨md5sum, -, rfl⟩ := map_eq_some_iff.mp h
      refine ⟨rfl, rfl, ?_⟩
      rintro rfl
      exact hmerged (by decide)

theorem unmarked_cFiles {entries : List Bytes} (hnodup : entries.Nodup)
    (md5File : Bytes → Option Bytes) (md5sum : Bytes) :
    (cFiles md5File entries md5sum).Unmarked := by
  have hspec : ∀ f ∈ (cFiles md5File entries md5sum).files, ∃ d_name ∈ entries,
      f.name = d_name ∧ f.mark = 0 ∧ d_name ≠ SHAREDCFG_FILENAME := by
    intro f hf
    obtain ⟨d_name, hmem, hentry⟩ := mem_filterMap.mp hf
    exact ⟨d_name, hmem, entrySum_spec hentry⟩
  refine ⟨rfl, rfl, ?_, fun f hf => ?_, fun f hf => ?_⟩
  · rw [List.Nodup, pairwise_map]
    refine (pairwise_filterMap).mpr (hnodup.imp fun hne f hf g hg => ?_)
    rw [(entrySum_spec hf).1, (entrySum_spec hg).1]
    exact hne
  · obtain ⟨d_name, -, hname, -, hne⟩ := hspec f hf
    exact hname ▸ hne
  · obtain ⟨d_name, -, -, hmark, -⟩ := hspec f hf
    exact hmark

theorem readControlmsg_none (known : Bool) (msg : Bytes) :
    readControlmsg known msg none = (answer known msg none, none) := by
  unfold readControlmsg answer
  cases known with
  | false => rfl
  | true => cases cutAt (chr '\n') msg <;> rfl

theorem unmarked_of_run {calls : List (Call × List (Bytes × Bytes))} {f_sum : Option FSum}
    (h : Run Step none calls f_sum) : ∀ s, f_sum = some s → s.Unmarked := by
  have hstart : ∀ s, (none : Option FSum) = some s → s.Unmarked := fun _ hnone => (nomatch hnone)
  have hstep : ∀ (f_sum : Option FSum) l f_sum', (∀ s, f_sum = some s → s.Unmarked) →
      Step f_sum l f_sum' → ∀ s, f_sum' = some s → s.Unmarked := by
    rintro f_sum ⟨call, sent⟩ f_sum' hf_sum hcall
    cases call with
    | read md5File entries md5sum =>
      obtain ⟨hnodup, -, rfl⟩ := hcall
      intro s hs
      cases hs
      exact unmarked_cFiles hnodup md5File md5sum
    | control known msg =>
      have heq : readControlmsg known msg f_sum = (sent, f_sum') := hcall
      have hkept : f_sum' = f_sum := by
        cases f_sum with
        | none =>
          rw [readControlmsg_none] at heq
          exact (congrArg Prod.snd heq).symm
        | some s =>
          rw [(hf_sum s rfl).readControlmsg] at heq
          exact (congrArg Prod.snd heq).symm
      rw [hkept]
      exact hf_sum
  exact h.invariant hstep hstart

/-- The merged file is sent just when the first line with its name has another digest. -/
theorem FSum.Unmarked.mem_answer_iff (h : f_sum.Unmarked) (lines : List (Bytes × Bytes)) :
    SHAREDCFG_FILENAME ∈ (f_sum.answer lines).map Prod.fst ↔
      ∃ md5, firstDigest lines SHAREDCFG_FILENAME = some md5 ∧ f_sum.merged.sum ≠ md5 := by
  rw [FSum.answer]
  cases hfirst : firstDigest lines SHAREDCFG_FILENAME with
  | some md5 =>
    dsimp only
    split
    case isTrue hne =>
      refine iff_of_true ?_ ⟨md5, rfl, hne⟩
      rw [map_singleton, FileSum.send, h.merged_name]
      exact mem_singleton_self _
    case isFalse heq =>
      refine iff_of_false not_mem_nil ?_
      rintro ⟨md5', hmd5, hne⟩
      exact heq (some.inj hmd5 ▸ hne)
  | none =>
    refine iff_of_false (fun hmem => ?_) (fun ⟨_, hnone, _⟩ => nomatch hnone)
    rw [List.map_map] at hmem
    obtain ⟨f, hf, hname⟩ := mem_map.mp hmem
    exact h.name_ne f (mem_of_mem_filter hf) hname

/-- After any calls no file has a mark, and a message is answered from the names and the digests of
the files alone: the merged file is sent just when the first line with its name has another digest,
and the other files, when there is no such line, unless the last line with their name has their
digest. -/
theorem answer_of_run {calls : List (Call × List (Bytes × Bytes))} {f_sum : Option FSum}
    (h : Run Step none calls f_sum) (known : Bool) (msg : Bytes) :
    (∀ s, f_sum = some s → s.Unmarked) ∧
      readControlmsg known msg f_sum = (answer known msg f_sum, f_sum) ∧
      (SHAREDCFG_FILENAME ∈ (answer known msg f_sum).map Prod.fst ↔
        known = true ∧ ∃ uname body s md5, cutAt (chr '\n') msg = some (uname, body) ∧
          f_sum = some s ∧ firstDigest (reported body) SHAREDCFG_FILENAME = some md5 ∧
          s.merged.sum ≠ md5) := by
  have hunmarked := unmarked_of_run h
  refine ⟨hunmarked, ?_, ?_⟩
  · cases f_sum with
    | none => exact readControlmsg_none known msg
    | some s => exact (hunmarked s rfl).readControlmsg known msg
  · unfold answer
    cases known with
    | false => simp
    | true =>
      cases hbody : cutAt (chr '\n') msg with
      | none => simp
      | some line =>
        cases f_sum with
        | none => simp
        | some s =>
          dsimp only
          rw [(hunmarked s rfl).mem_answer_iff]
          constructor
          · rintro ⟨md5, hfirst, hne⟩
            exact ⟨rfl, line.1, line.2, s, md5, rfl, rfl, hfirst, hne⟩
          · rintro ⟨-, uname, body, s', md5, hline, hs, hfirst, hne⟩
            obtain rfl := some.inj hline
            obtain rfl := some.inj hs
            exact ⟨md5, hfirst, hne⟩

/-- An agent that reports no merged file gets the other files, and not the merged one. -/
theorem sent_without_merged :
    (readControlmsg true (lit "Linux\n")
      (some (cFiles (fun _ => some (lit "6d7f")) [lit "agent.conf"] (lit "90ab")))).1 =
      [(lit "agent.conf", lit "6d7f")] := by
  decide

/-- An agent whose merged file differs, behind one that has reported two other files. -/
theorem answer_of_run_second :
    readControlmsg true (lit "Linux\n12cd merged.mg\n6d7f agent.conf\n")
        (some (cFiles (fun _ => some (lit "6d7f")) [lit "agent.conf"] (lit "90ab"))) =
      ([(SHAREDCFG_FILENAME, lit "90ab")],
        some (cFiles (fun _ => some (lit "6d7f")) [lit "agent.conf"] (lit "90ab"))) := by
  have hreported : readControlmsg true (lit "Linux\n1111 agent.conf\n2222 other\n")
      (some (cFiles (fun _ => some (lit "6d7f")) [lit "agent.conf"] (lit "90ab"))) =
      ([(lit "agent.conf", lit "6d7f")],
        some (cFiles (fun _ => some (lit "6d7f")) [lit "agent.conf"] (lit "90ab"))) := by
    decide
  have hrun : Run Step none
      [(.read (fun _ => some (lit "6d7f")) [lit "agent.conf"] (lit "90ab"), []),
        (.control true (lit "Linux\n1111 agent.conf\n2222 other\n"),
          [(lit "agent.conf", lit "6d7f")])]
      (some (cFiles (fun _ => some (lit "6d7f")) [lit "agent.conf"] (lit "90ab"))) :=
    .cons ⟨nodup_singleton _, rfl, rfl⟩ (.cons hreported (.nil _))
  exact (answer_of_run hrun true _).2.1.trans (by decide)

end SharedFiles
