import OssecHids.Lib.Transition
import OssecHids.Syscheckd.SeechangesStore

/-!
# Snapshots of changed files

`seechanges_addfile` keeps the last snapshot of a file, which is replaced when the file has changed.

- `addfile`, `delfile`: what a change and a deletion do to the store;
- `Accounted`: the counter is the size of the store;
- `Accounted.firstSnapshot`, `Accounted.replaceSnapshot`: a snapshot keeps it so;
- `addfile_law`: runs.
-/

open CString WeightedMap Transition Option

namespace Seechanges

def OS_MAXSTR : ℕ := 6144

/-! ## Alerts -/

/-- The first 20 lines, and whether there are more. -/
def cutLines : ℕ → Bytes → Bytes × Bool
  | _, [] => ([], false)
  | n, b :: s =>
    if b = chr '\n' then
      if n ≥ 19 then ([], true) else (b :: (cutLines (n + 1) s).1, (cutLines (n + 1) s).2)
    else (b :: (cutLines n s).1, (cutLines n s).2)

/-- `gen_diff_alert`, of the file that it reads. -/
def genDiffAlert (content : Bytes) : Option Bytes :=
  let buf := content.take (4096 - 1)
  if buf = [] then none
  else
    let (text, truncated) :=
      if buf.length ≥ 4000 then
        -- without a newline there is only one large line
        ((beforeLast (chr '\n') (str buf)).getD ((str buf).take 256), true)
      else (str buf, false)
    let (text, more) := cutLines 0 text
    let truncated := truncated || content.length ≥ 4096 - 1 || more
    some (snprintf (4096 - 1)
      (text ++ if truncated then lit "\n... diff was truncated ..." else []))

/-! ## Changes -/

/-- What happens when the diff is made. -/
structure DiffRun where
  /-- The links to the three files can be made. -/
  links : Bool := true
  /-- `is_nodiff(filename)` -/
  nodiff : Bool := false
  /-- The file can be opened to write the message for `nodiff`. -/
  opens : Bool := true
  /-- What `diff` has written, if its output could be opened. -/
  output : Option Bytes := some []
  /-- `diff` has run. -/
  exits : Bool := true

/-- What happens during `seechanges_addfile`. -/
structure Change where
  /-- The size of the file, if it is a regular one. -/
  lstat : Option ℕ
  /-- The directories in the store are there, and safe. -/
  createpath : Bool := true
  /-- The stored snapshot can be opened, without following a link. -/
  opens : Bool := true
  /-- What is read of the file for its hash. -/
  content : Option Bytes
  old_date : ℤ := 0
  new_date : ℤ := 0
  /-- The stored snapshot can be renamed. -/
  rename : Bool := true
  copying : Copying
  /-- It can be renamed back. -/
  renameBack : Bool := true
  diff : DiffRun := {}

/-- `OS_SHA256_File_nofollow_max`, where `some none` is `EFBIG`. -/
def sha256File (cfg : Limits) (sha256 : Bytes → Bytes) (content : Option Bytes) :
    Option (Option Bytes) :=
  content.map fun content =>
    if cfg.diff_max_size > 0 ∧ content.length > cfg.diff_max_size then none
    else some (sha256 content)

/-- What is read of a stored snapshot. -/
def storedContent (c : Change) (files : Files) (path : Bytes) : Option Bytes :=
  if !c.opens then none
  else
    match files.lookup path with
    | some (.regular content) => some content
    | _ => none

def nodiffMessage : Bytes := lit "<Diff truncated because nodiff option>" ++ [0]

/-- The file of the diff, and whether it is complete. -/
def makeDiff (d : DiffRun) (diff : Bytes) (s : DiffStore) : Bool × DiffStore :=
  if !d.links then (false, s)
  else if d.nodiff then
    if d.opens then (true, writeFile diff nodiffMessage s) else (false, s)
  else (d.exits, d.output.elim s fun output => writeFile diff output s)

/-- The part of `seechanges_addfile` for a file without a snapshot. -/
def firstSnapshot (cfg : Limits) (fs : FileSystem) (c : Change) (size : ℕ) (old : Bytes)
    (s : DiffStore) : DiffStore :=
  if !quotaAllow cfg size 0 s then s
  else
    match dupfile cfg fs c.copying old s with
    | (false, s) => s
    | (true, s) =>
      -- the file can grow during the copy
      let new_sz := snapshotSize s.files old
      if !quotaAllow cfg new_sz 0 s then unlinkFile fs old s else noteAdded new_sz s

/-- The part of `seechanges_addfile` for a file whose snapshot is another one. -/
def replaceSnapshot (cfg : Limits) (fs : FileSystem) (c : Change) (size : ℕ) (rel : Bytes)
    (s : DiffStore) : DiffStore × Option Bytes :=
  let old := rel ++ chr '/' :: DIFF_LAST_FILE
  let old_sz := snapshotSize s.files old
  if !quotaAllow cfg size old_sz s then (s, none)
  else
    let tmp := rel ++ chr '/' :: (lit "state." ++ fmtD c.old_date)
    if !c.rename then (s, none)
    else
      match dupfile cfg fs c.copying old (renameFile old tmp s) with
      | (false, s) => (restore fs c.renameBack tmp old s, none)
      | (true, s) =>
        let new_sz := snapshotSize s.files old
        if !quotaAllow cfg new_sz old_sz s then
          (restore fs c.renameBack tmp old (unlinkFile fs old s), none)
        else
          let diff := rel ++ chr '/' :: (lit "diff." ++ fmtD c.new_date)
          let (complete, s) := makeDiff c.diff diff s
          let alert := if complete then
              match s.files.lookup diff with
              | some (.regular content) => genDiffAlert content
              | _ => none
            else none
          (dropReplaced fs tmp diff old_sz new_sz s, alert)

/-- `seechanges_addfile` -/
def addfile (cfg : Limits) (sha256 : Bytes → Bytes) (fs : FileSystem) (c : Change)
    (filename : Bytes) (s : DiffStore) : DiffStore × Option Bytes :=
  match c.lstat with
  | none => (s, none)
  | some size =>
    let rel := filename.drop 1
    let old := rel ++ chr '/' :: DIFF_LAST_FILE
    if !c.createpath then (s, none)
    else
      let s := ensureStore cfg fs s
      if cfg.diff_max_size > 0 ∧ size > 0 ∧ size > cfg.diff_max_size then
        (reclaimSnapshot cfg fs old s, none)
      else
        match sha256File cfg sha256 (storedContent c s.files old) with
        | some none => (firstSnapshot cfg fs c size old (unlinkCounted fs old s), none)
        | none => (firstSnapshot cfg fs c size old (reclaimSnapshot cfg fs old s), none)
        | some (some sha256_old) =>
          match sha256File cfg sha256 c.content with
          | none | some none => (s, none)
          | some (some sha256_new) =>
            if sha256_new = sha256_old then (s, none) else replaceSnapshot cfg fs c size rel s

/-- A path is that of a file, or of one below it. -/
def isBelow (rel path : Bytes) : Bool := path == rel || (rel ++ [chr '/']).isPrefixOf path

/-- `seechanges_delfile`, where `opens` says that the directories can be opened. -/
def delfile (fs : FileSystem) (opens : Bool) (filename : Bytes) (s : DiffStore) : DiffStore :=
  let rel := if filename.headD 0 = chr '/' then filename.drop 1 else filename
  if rel = [] then s
  else if rel.length ≥ OS_MAXSTR + 1 then s
  else if !opens ∨ leafName rel = [] then s
  else
    let removed := fun path => isBelow rel path && fs.unlink path
    noteRemoved (size (keep (fun path _ => removed path) s.files))
      { s with files := keep (fun path _ => !removed path) s.files }

/-- A file has changed, or is deleted. -/
inductive StoreEvent
  | add (filename : Bytes) (c : Change) (fs : FileSystem)
  | delete (filename : Bytes) (opens : Bool) (fs : FileSystem)

def step (cfg : Limits) (sha256 : Bytes → Bytes) (s : DiffStore) : StoreEvent → DiffStore
  | .add filename c fs => (addfile cfg sha256 fs c filename s).1
  | .delete filename opens fs => delfile fs opens filename s

def Step (cfg : Limits) (sha256 : Bytes → Bytes) (s : DiffStore) (e : StoreEvent) (s' : DiffStore) :
    Prop := s' = step cfg sha256 s e

/-! ## What a call leaves -/

/-- The counter is the size of the store, which has only snapshots. -/
structure Accounted (cfg : Limits) (s : DiffStore) : Prop where
  scanned : s.scanned = true
  used : s.used = size s.files
  fits : size s.files < SIZE_T
  quota : cfg.diff_quota_size ≠ 0 → s.used ≤ cfg.diff_quota_size
  snapshot : ∀ path content, regularAt s.files path = some content →
    leafName path = DIFF_LAST_FILE ∧
      (cfg.diff_max_size > 0 → content.length ≤ cfg.diff_max_size)

/-- The snapshots and the counter are as before. -/
structure Same (s s' : DiffStore) : Prop where
  files : ∀ path, regularAt s'.files path = regularAt s.files path
  used : s'.used = s.used

/-- There is another snapshot, and the counter has its size. -/
structure Stored (s : DiffStore) (old content : Bytes) (s' : DiffStore) : Prop where
  here : regularAt s'.files old = some content
  others : ∀ path, path ≠ old → regularAt s'.files path = regularAt s.files path
  used : s'.used + snapshotSize s.files old = s.used + content.length

variable {cfg : Limits} {sha256 : Bytes → Bytes} {fs : FileSystem} {c : Change} {s s' : DiffStore}
  {rel path old tmp diff content : Bytes} {files : Files} {node : Node} {n old_sz new_sz : ℕ}

theorem Same.rfl : Same s s := ⟨fun _ => .refl _, .refl _⟩

/-- What is not a snapshot can be removed. -/
theorem Accounted.erase (h : Accounted cfg s) (hnone : regularAt s.files path = none) :
    Accounted cfg { s with files := s.files.erase path } ∧
      Same s { s with files := s.files.erase path } := by
  have hregular : ∀ x, regularAt (s.files.erase path) x = regularAt s.files x := by
    intro x
    by_cases hx : x = path
    · rw [hx, regularAt_erase, hnone]
    · exact regularAt_congr (Finmap.lookup_erase_ne hx)
  have hsize : size (s.files.erase path) = size s.files := by
    have herase := size_erase s.files path
    rwa [snapshotSize_eq, hnone, elim_none, add_zero] at herase
  refine ⟨{ scanned := h.scanned, used := ?_, fits := ?_, quota := h.quota, snapshot := ?_ },
    hregular, .refl _⟩
  · exact h.used.trans hsize.symm
  · exact hsize.trans_lt h.fits
  · intro x content hx
    exact h.snapshot x content ((hregular x).symm.trans hx)

/-- A snapshot is stored. -/
theorem Accounted.store (h : Accounted cfg s) (hscanned : s'.scanned = true)
    (hleaf : leafName old = DIFF_LAST_FILE) (hstored : Stored s old content s')
    (hsize : size s'.files + snapshotSize s.files old = size s.files + content.length)
    (hfits : size s'.files < SIZE_T)
    (hquota : cfg.diff_quota_size ≠ 0 → s'.used ≤ cfg.diff_quota_size)
    (hmax : cfg.diff_max_size > 0 → content.length ≤ cfg.diff_max_size) : Accounted cfg s' where
  scanned := hscanned
  used := by
    have hused := hstored.used
    have hbefore := h.used
    omega
  fits := hfits
  quota := hquota
  snapshot := by
    intro path content' hpath
    by_cases heq : path = old
    · rw [heq, hstored.here] at hpath
      cases hpath
      rw [heq]
      exact ⟨hleaf, hmax⟩
    · exact h.snapshot path content' ((hstored.others path heq).symm.trans hpath)

@[simp]
theorem files_noteAdded (n : ℕ) (s : DiffStore) : (noteAdded n s).files = s.files := by
  rw [noteAdded]
  split_ifs
  · rfl
  · rfl

/-! ## The first snapshot -/

theorem snapshotSize_insert (files : Files) (path content : Bytes) :
    snapshotSize (files.insert path (.regular content)) path = content.length := by
  rw [snapshotSize_eq, regularAt_insert, elim_some]

/-- **The first snapshot** of a file is stored and counted, or it leaves no trace. -/
theorem Accounted.firstSnapshot (h : Accounted cfg s) (hleaf : leafName old = DIFF_LAST_FILE)
    (hnone : regularAt s.files old = none) (hunlink : fs.unlink old = true)
    (hsized : c.copying.content.length < SIZE_T)
    (hfits : size (firstSnapshot cfg fs c n old s).files < SIZE_T) :
    Accounted cfg (firstSnapshot cfg fs c n old s) ∧
      (Same s (firstSnapshot cfg fs c n old s) ∨
        Stored s old c.copying.content (firstSnapshot cfg fs c n old s)) := by
  have hzero : snapshotSize s.files old = 0 := by rw [snapshotSize_eq, hnone, elim_none]
  have herased := h.erase hnone
  rw [Seechanges.firstSnapshot] at hfits ⊢
  by_cases hallow : quotaAllow cfg n 0 s = true
  case neg =>
    rw [if_pos (by simpa using hallow)]
    exact ⟨h, .inl .rfl⟩
  case pos =>
    rw [if_neg (by simpa using hallow)] at hfits ⊢
    obtain hdup | hdup | ⟨hdup, hmax⟩ := @dupfile_spec cfg fs s old c.copying hunlink
    · rw [hdup]
      exact ⟨h, .inl .rfl⟩
    · rw [hdup]
      exact herased.imp_right .inl
    · rw [hdup] at hfits ⊢
      dsimp only at hfits ⊢
      rw [snapshotSize_insert] at hfits ⊢
      by_cases hagain : quotaAllow cfg c.copying.content.length 0
          { s with files := s.files.insert old (.regular c.copying.content) } = true
      case neg =>
        -- the snapshot is removed again
        rw [if_pos (by simpa using hagain), unlinkFile, if_pos hunlink]
        rw [erase_insert_self]
        exact herased.imp_right .inl
      case pos =>
        rw [if_neg (by simpa using hagain)] at hfits ⊢
        rw [files_noteAdded] at hfits
        have hsize := size_insert s.files old c.copying.content
        rw [hzero, add_zero] at hsize
        have hadded : (noteAdded c.copying.content.length
            { s with files := s.files.insert old (.regular c.copying.content) }) =
            { s with files := s.files.insert old (.regular c.copying.content)
                     used := s.used + c.copying.content.length } := by
          apply @noteAdded_eq { s with files := s.files.insert old (.regular c.copying.content) }
          · exact h.scanned
          · rw [h.used, ← hsize]
            exact hfits
        have hstored : Stored s old c.copying.content
            { s with files := s.files.insert old (.regular c.copying.content)
                     used := s.used + c.copying.content.length } := {
          here := regularAt_insert _ _ _
          others := fun path hne => regularAt_congr (Finmap.lookup_insert_of_ne _ hne)
          used := by rw [hzero, add_zero] }
        rw [hadded]
        refine ⟨h.store h.scanned hleaf hstored ?_ hfits ?_ hmax, .inr hstored⟩
        · rw [hzero, add_zero]
          exact hsize
        · intro hquota
          have hlt : s.used < SIZE_T := h.used.trans_lt h.fits
          exact le_of_quotaAllow hagain hsized hlt (Nat.zero_le _) hquota

/-! ## Another snapshot -/

theorem restore_eq (hold : s.files.lookup old = some node) (hne : old ≠ tmp)
    (hfiles : ∀ x, x ≠ old → files.lookup x = ((s.files.erase old).insert tmp node).lookup x) :
    restore fs true tmp old { s with files } = { s with files := s.files.erase tmp } := by
  have htmp : files.lookup tmp = some node := by rw [hfiles tmp hne.symm, Finmap.lookup_insert]
  have hback : (files.erase tmp).insert old node = s.files.erase tmp := by
    apply Finmap.ext_lookup
    intro x
    by_cases hold' : x = old
    · rw [hold', Finmap.lookup_insert, Finmap.lookup_erase_ne hne, hold]
    · rw [Finmap.lookup_insert_of_ne _ hold']
      by_cases htmp' : x = tmp
      · rw [htmp', Finmap.lookup_erase, Finmap.lookup_erase]
      · rw [Finmap.lookup_erase_ne htmp', Finmap.lookup_erase_ne htmp', hfiles x hold',
          Finmap.lookup_insert_of_ne _ htmp', Finmap.lookup_erase_ne hold']
  rw [restore, if_pos rfl, renameFile]
  rw [htmp]
  dsimp only
  rw [hback]

theorem makeDiff_spec (d : DiffRun) (diff : Bytes) (s : DiffStore) :
    ∃ complete files, makeDiff d diff s = (complete, { s with files }) ∧
      ∀ x, x ≠ diff → files.lookup x = s.files.lookup x := by
  have hwrite : ∀ content, ∃ files, writeFile diff content s = { s with files } ∧
      ∀ x, x ≠ diff → files.lookup x = s.files.lookup x := by
    intro content
    rw [writeFile]
    split
    · exact ⟨s.files, rfl, fun _ _ => rfl⟩
    · exact ⟨_, rfl, fun x hx => Finmap.lookup_insert_of_ne _ hx⟩
  rw [makeDiff]
  split_ifs
  · exact ⟨_, _, rfl, fun _ _ => rfl⟩
  · obtain ⟨files, heq, hfiles⟩ := hwrite nodiffMessage
    exact ⟨true, files, by rw [heq], hfiles⟩
  · exact ⟨_, _, rfl, fun _ _ => rfl⟩
  · cases d.output with
    | none => exact ⟨_, _, rfl, fun _ _ => rfl⟩
    | some output =>
      obtain ⟨files, heq, hfiles⟩ := hwrite output
      exact ⟨d.exits, files, by rw [elim_some, heq], hfiles⟩

theorem dropReplaced_eq (hunlink : ∀ path, fs.unlink path = true) (hscanned : s.scanned = true)
    (htmp : s.files.lookup tmp = some node) (hle : old_sz ≤ s.used) :
    dropReplaced fs tmp diff old_sz new_sz s =
      noteAdded new_sz
        { s with files := (s.files.erase tmp).erase diff, used := s.used - old_sz } := by
  have hremoved : noteRemoved old_sz { s with files := s.files.erase tmp } =
      { s with files := s.files.erase tmp, used := s.used - old_sz } :=
    noteRemoved_eq hscanned hle
  rw [dropReplaced, if_pos ⟨by rw [htmp]; rfl, hunlink tmp⟩, hremoved]
  congr 1
  split
  case h_1 hdiff => rw [erase_of_notMem hdiff]
  case h_2 => rw [if_pos (hunlink diff)]

theorem leafName_append {name : Bytes} (rel : Bytes) (h : chr '/' ∉ name) :
    leafName (rel ++ chr '/' :: name) = name := by
  rw [leafName]
  induction rel using Framing.framesRec (c := chr '/') with
  | unfinished l hl => rw [Framing.rest_append_cons hl, Framing.rest_of_notMem h]
  | frame l r hl ih => rw [List.append_assoc, List.cons_append, Framing.rest_append_cons hl, ih]

theorem leafName_last (rel : Bytes) :
    leafName (rel ++ chr '/' :: DIFF_LAST_FILE) = DIFF_LAST_FILE :=
  leafName_append rel (by decide)

theorem leafName_dated {name : Bytes} (rel : Bytes) (hname : chr '/' ∉ name) (date : ℤ) :
    leafName (rel ++ chr '/' :: (name ++ fmtD date)) = name ++ fmtD date := by
  apply leafName_append
  intro hmem
  rcases List.mem_append.mp hmem with hmem | hmem
  · exact hname hmem
  · rcases mem_fmtD hmem with h | h
    · cases h
    · cases h

theorem Accounted.eq_none (h : Accounted cfg s) (hleaf : leafName path ≠ DIFF_LAST_FILE) :
    regularAt s.files path = none := by
  cases hpath : regularAt s.files path with
  | none => rfl
  | some content => exact absurd (h.snapshot path content hpath).1 hleaf

/-- The end of a replacement: the old snapshot and the diff are removed. -/
theorem Accounted.dropReplaced {new : Bytes} (h : Accounted cfg s)
    (hold : regularAt s.files old = some content) (hunlink : ∀ path, fs.unlink path = true)
    (hleaf : leafName old = DIFF_LAST_FILE) (hneTmp : leafName tmp ≠ DIFF_LAST_FILE)
    (hneDiff : leafName diff ≠ DIFF_LAST_FILE) (htmpDiff : tmp ≠ diff)
    (hfiles : ∀ x, x ≠ diff → files.lookup x =
      (((s.files.erase old).insert tmp (.regular content)).insert old (.regular new)).lookup x)
    (hquota : cfg.diff_quota_size ≠ 0 → s.used - content.length + new.length ≤ cfg.diff_quota_size)
    (hmax : cfg.diff_max_size > 0 → new.length ≤ cfg.diff_max_size)
    (hfits : size (dropReplaced fs tmp diff content.length new.length { s with files }).files <
      SIZE_T) :
    Accounted cfg (dropReplaced fs tmp diff content.length new.length { s with files }) ∧
      Stored s old new (dropReplaced fs tmp diff content.length new.length { s with files }) := by
  have holdTmp : old ≠ tmp := fun heq => hneTmp (heq ▸ hleaf)
  have holdDiff : old ≠ diff := fun heq => hneDiff (heq ▸ hleaf)
  have hold_sz : snapshotSize s.files old = content.length := by
    rw [snapshotSize_eq, hold, elim_some]
  have hle : content.length ≤ s.used := by
    rw [h.used, ← hold_sz]
    exact snapshotSize_le _ _
  have htmp : files.lookup tmp = some (.regular content) := by
    rw [hfiles tmp htmpDiff, Finmap.lookup_insert_of_ne _ holdTmp.symm, Finmap.lookup_insert]
  -- what is left is the store with the new snapshot
  have hleft : (files.erase tmp).erase diff =
      ((s.files.erase tmp).erase diff).insert old (.regular new) := by
    apply Finmap.ext_lookup
    intro x
    by_cases hxd : x = diff
    · rw [hxd, Finmap.lookup_erase, Finmap.lookup_insert_of_ne _ holdDiff.symm, Finmap.lookup_erase]
    by_cases hxt : x = tmp
    · rw [hxt, Finmap.lookup_erase_ne htmpDiff, Finmap.lookup_erase,
        Finmap.lookup_insert_of_ne _ holdTmp.symm, Finmap.lookup_erase_ne htmpDiff,
        Finmap.lookup_erase]
    rw [Finmap.lookup_erase_ne hxd, Finmap.lookup_erase_ne hxt, hfiles x hxd]
    by_cases hxo : x = old
    · rw [hxo, Finmap.lookup_insert, Finmap.lookup_insert]
    · rw [Finmap.lookup_insert_of_ne _ hxo, Finmap.lookup_insert_of_ne _ hxt,
        Finmap.lookup_erase_ne hxo, Finmap.lookup_insert_of_ne _ hxo, Finmap.lookup_erase_ne hxd,
        Finmap.lookup_erase_ne hxt]
  obtain ⟨herasedTmp, hsameTmp⟩ := h.erase (h.eq_none hneTmp)
  obtain ⟨herased, hsame⟩ := herasedTmp.erase (herasedTmp.eq_none hneDiff)
  have hbefore : ∀ x, regularAt ((s.files.erase tmp).erase diff) x = regularAt s.files x :=
    fun x => (hsame.files x).trans (hsameTmp.files x)
  have hsize := size_insert ((s.files.erase tmp).erase diff) old new
  rw [snapshotSize_eq, hbefore, hold, elim_some, ← hleft] at hsize
  have hused : s.used = size ((s.files.erase tmp).erase diff) := herased.used
  have hdropped := @dropReplaced_eq fs { s with files } tmp diff _ _ new.length hunlink h.scanned
    htmp hle
  rw [hdropped] at hfits ⊢
  rw [files_noteAdded] at hfits
  have hadded : noteAdded new.length { s with
      files := (files.erase tmp).erase diff, used := s.used - content.length } =
      { s with
        files := (files.erase tmp).erase diff, used := s.used - content.length + new.length } := by
    apply @noteAdded_eq { s with
      files := (files.erase tmp).erase diff, used := s.used - content.length }
    · exact h.scanned
    · dsimp only at hfits ⊢
      omega
  rw [hadded]
  have hstored : Stored s old new { s with
      files := (files.erase tmp).erase diff, used := s.used - content.length + new.length } := {
    here := by
      rw [hleft]
      exact regularAt_insert _ _ _
    others := fun x hx => by
      rw [hleft, regularAt_congr (Finmap.lookup_insert_of_ne _ hx), hbefore]
    used := by
      rw [hold_sz]
      dsimp only
      omega }
  refine ⟨h.store h.scanned hleaf hstored ?_ hfits hquota hmax, hstored⟩
  rw [hold_sz]
  rw [hsize, ← hused, h.used]

/-- **Another snapshot** replaces the old one, in the store and in the counter, or the old one stays. -/
theorem Accounted.replaceSnapshot (h : Accounted cfg s)
    (hold : regularAt s.files (rel ++ chr '/' :: DIFF_LAST_FILE) = some content)
    (hunlink : ∀ path, fs.unlink path = true) (hback : c.renameBack = true)
    (hsized : c.copying.content.length < SIZE_T)
    (hfits : size (replaceSnapshot cfg fs c n rel s).1.files < SIZE_T) :
    Accounted cfg (replaceSnapshot cfg fs c n rel s).1 ∧
      (Same s (replaceSnapshot cfg fs c n rel s).1 ∨
        Stored s (rel ++ chr '/' :: DIFF_LAST_FILE) c.copying.content
          (replaceSnapshot cfg fs c n rel s).1) := by
  rw [Seechanges.replaceSnapshot] at hfits ⊢
  have hleaf := leafName_last rel
  have hleafTmp := @leafName_dated (lit "state.") rel (by decide) c.old_date
  have hleafDiff := @leafName_dated (lit "diff.") rel (by decide) c.new_date
  generalize hpath : rel ++ chr '/' :: DIFF_LAST_FILE = old at hold hleaf hfits ⊢
  generalize htmp : rel ++ chr '/' :: (lit "state." ++ fmtD c.old_date) = tmp at hleafTmp hfits ⊢
  generalize hdiff : rel ++ chr '/' :: (lit "diff." ++ fmtD c.new_date) = diff at hleafDiff hfits ⊢
  -- three different files, of which one is there
  have hneTmp : leafName tmp ≠ DIFF_LAST_FILE := by
    rw [hleafTmp]
    exact fun heq => absurd (List.cons.inj heq).1 (by decide)
  have hneDiff : leafName diff ≠ DIFF_LAST_FILE := by
    rw [hleafDiff]
    exact fun heq => absurd (List.cons.inj heq).1 (by decide)
  have holdTmp : old ≠ tmp := fun heq => hneTmp (heq ▸ hleaf)
  have htmpDiff : tmp ≠ diff := by
    intro heq
    rw [heq, hleafDiff] at hleafTmp
    exact absurd (List.cons.inj hleafTmp).1 (by decide)
  have hold_sz : snapshotSize s.files old = content.length := by
    rw [snapshotSize_eq, hold, elim_some]
  have hlookup := regularAt_eq_some.mp hold
  by_cases hallow : quotaAllow cfg n (snapshotSize s.files old) s = true
  case neg =>
    rw [if_pos (by simpa using hallow)]
    exact ⟨h, .inl .rfl⟩
  rw [if_neg (by simpa using hallow)] at hfits ⊢
  by_cases hrename : c.rename = true
  case neg =>
    rw [if_pos (by simpa using hrename)]
    exact ⟨h, .inl .rfl⟩
  rw [if_neg (by simpa using hrename)] at hfits ⊢
  have haside : renameFile old tmp s =
      { s with files := (s.files.erase old).insert tmp (.regular content) } := by
    rw [renameFile, hlookup]
  have hrestored : ∀ files : Files,
      (∀ x, x ≠ old →
        files.lookup x = ((s.files.erase old).insert tmp (.regular content)).lookup x) →
      Accounted cfg (restore fs c.renameBack tmp old { s with files }) ∧
        (Same s (restore fs c.renameBack tmp old { s with files }) ∨
          Stored s old c.copying.content (restore fs c.renameBack tmp old { s with files })) := by
    intro files hfiles
    rw [hback, restore_eq hlookup holdTmp hfiles]
    exact (h.erase (h.eq_none hneTmp)).imp_right .inl
  rw [haside] at hfits ⊢
  obtain hdup | hdup | ⟨hdup, hmax⟩ := @dupfile_spec cfg fs
    { s with files := (s.files.erase old).insert tmp (.regular content) } old c.copying (hunlink old)
  · rw [hdup]
    exact hrestored _ fun _ _ => rfl
  · rw [hdup]
    exact hrestored _ fun x hx => Finmap.lookup_erase_ne hx
  · rw [hdup] at hfits ⊢
    dsimp only at hfits ⊢
    rw [snapshotSize_insert] at hfits ⊢
    by_cases hagain : quotaAllow cfg c.copying.content.length (snapshotSize s.files old)
        { s with files := ((s.files.erase old).insert tmp (.regular content)).insert old
                   (.regular c.copying.content) } = true
    case neg =>
      -- the copy is too large
      rw [if_pos (by simpa using hagain), unlinkFile, if_pos (hunlink old)]
      apply hrestored
      intro x hx
      rw [Finmap.lookup_erase_ne hx, Finmap.lookup_insert_of_ne _ hx]
    case pos =>
      rw [if_neg (by simpa using hagain)] at hfits ⊢
      obtain ⟨complete, files, hmake, hfiles⟩ := makeDiff_spec c.diff diff
        { s with files := ((s.files.erase old).insert tmp (.regular content)).insert old
                   (.regular c.copying.content) }
      rw [hmake, hold_sz] at hfits ⊢
      rw [hold_sz] at hagain
      have hle : content.length ≤ s.used := by
        rw [h.used, ← hold_sz]
        exact snapshotSize_le _ _
      obtain ⟨haccounted, hstored⟩ := h.dropReplaced hold hunlink hleaf hneTmp hneDiff htmpDiff hfiles
        (le_of_quotaAllow hagain hsized (h.used.trans_lt h.fits) hle) hmax hfits
      exact ⟨haccounted, .inr hstored⟩

/-! ## Runs -/

/-- The files that there are after the scan. -/
def afterScan (cfg : Limits) (fs : FileSystem) (s : DiffStore) : Files :=
  if s.scanned then s.files else keep (scanKeeps cfg fs) s.files

/-- Files can be removed and renamed back, the scan reads the whole store, which is within the quota,
and a stored snapshot can be opened for its hash. -/
structure AddMeets (cfg : Limits) (fs : FileSystem) (c : Change) (filename : Bytes) (s : DiffStore) :
    Prop where
  unlink : ∀ path, fs.unlink path = true
  renameBack : c.renameBack = true
  sized : c.copying.content.length < SIZE_T
  reached : s.scanned = false → ∀ path, fs.reached path = true
  quota : s.scanned = false → cfg.diff_quota_size ≠ 0 →
    size (keep (scanKeeps cfg fs) s.files) ≤ cfg.diff_quota_size
  opens : ∀ size content, c.lstat = some size →
    ¬(cfg.diff_max_size > 0 ∧ size > 0 ∧ size > cfg.diff_max_size) →
      regularAt (afterScan cfg fs s) (filename.drop 1 ++ chr '/' :: DIFF_LAST_FILE) = some content →
        c.opens = true

def StoreEvent.Meets (cfg : Limits) (s : DiffStore) : StoreEvent → Prop
  | .add filename c fs => c.lstat ≠ none → c.createpath = true → AddMeets cfg fs c filename s
  | .delete _ _ _ => True

/-- The store has room on a disk. -/
def GoodStep (cfg : Limits) (sha256 : Bytes → Bytes) (s : DiffStore) (e : StoreEvent)
    (s' : DiffStore) : Prop :=
  Step cfg sha256 s e s' ∧ e.Meets cfg s ∧ size s'.files < SIZE_T

/-- A store before the scan: the files have the names that the daemon gives them. -/
structure Unscanned (s : DiffStore) : Prop where
  scanned : s.scanned = false
  fits : size s.files < SIZE_T
  names : ∀ path content, regularAt s.files path = some content →
    leafName path = DIFF_LAST_FILE ∨ isHistory path = true

variable {filename : Bytes} {opens : Bool}

theorem regularAt_keep {p : Bytes → Node → Bool} :
    regularAt (keep p files) path = some content ↔
      regularAt files path = some content ∧ p path (.regular content) = true := by
  rw [regularAt_eq_some, lookup_keep, regularAt_eq_some]

theorem ensureStore_of_scanned (h : s.scanned = true) : ensureStore cfg fs s = s := if_pos h

/-- **The scan** sets the counter to the size of the store that it leaves. -/
theorem Unscanned.ensureStore (h : Unscanned s) (hunlink : ∀ path, fs.unlink path = true)
    (hreached : ∀ path, fs.reached path = true)
    (hquota : cfg.diff_quota_size ≠ 0 →
      size (keep (scanKeeps cfg fs) s.files) ≤ cfg.diff_quota_size) :
    Accounted cfg (ensureStore cfg fs s) := by
  have hnot : ¬s.scanned = true := by
    rw [h.scanned]
    decide
  have hkept : ∀ path content, regularAt s.files path = some content →
      (scanKeeps cfg fs path (.regular content) = true ↔ fs.missing path = false ∧
        leafName path = DIFF_LAST_FILE ∧ isOversized cfg path (.regular content) = false) := by
    intro path content hpath
    have hhistory : leafName path = DIFF_LAST_FILE → isHistory path = false := by
      intro hleaf
      rw [isHistory, hleaf]
      decide
    rw [scanKeeps, hreached, hunlink]
    obtain hleaf | hold := h.names path content hpath
    · simp [hleaf, hhistory hleaf]
    · have hleaf : leafName path ≠ DIFF_LAST_FILE := by
        intro hleaf
        rw [hhistory hleaf] at hold
        cases hold
      simp [hleaf, hold]
  have hused : total (scanCounts cfg fs) s.files = size (keep (scanKeeps cfg fs) s.files) := by
    rw [size, total_keep]
    apply total_congr
    intro path node hnode
    cases node with
    | symlink => rw [scanCounts, Node.size, ite_self, ite_self]
    | regular content =>
      have hiff := hkept path content (regularAt_eq_some.mpr hnode)
      rw [scanCounts, hreached]
      congr 1
      rw [hiff]
      simp [and_assoc]
  have hfits : size (keep (scanKeeps cfg fs) s.files) < SIZE_T :=
    (total_keep_le _ _ _).trans_lt h.fits
  rw [Seechanges.ensureStore, if_neg hnot, hused, Nat.mod_eq_of_lt hfits]
  refine { scanned := rfl, used := rfl, fits := hfits, quota := hquota, snapshot := ?_ }
  intro path content hpath
  obtain ⟨hpath, hkeeps⟩ := regularAt_keep.mp hpath
  obtain ⟨-, hleaf, hmax⟩ := (hkept path content hpath).mp hkeeps
  refine ⟨hleaf, fun hpos => ?_⟩
  rw [isOversized, hleaf] at hmax
  simpa [hpos, Node.size] using hmax

/-- A link in the place of a snapshot is removed. -/
theorem Accounted.reclaim (h : Accounted cfg s) (hunlink : fs.unlink path = true) :
    Accounted cfg (reclaimSnapshot cfg fs path s) ∧ Same s (reclaimSnapshot cfg fs path s) := by
  rw [reclaimSnapshot]
  cases hlookup : s.files.lookup path with
  | none => exact ⟨h, .rfl⟩
  | some node =>
    cases node with
    | symlink =>
      rw [unlinkFile, if_pos hunlink]
      apply h.erase
      rw [regularAt, hlookup]
    | regular content =>
      have hmax := (h.snapshot path content (regularAt_eq_some.mpr hlookup)).2
      dsimp only
      rw [if_neg fun hlarge => absurd (hmax hlarge.1) (not_le.mpr hlarge.2.2)]
      exact ⟨h, .rfl⟩

theorem Same.then {s'' : DiffStore} (h : Same s s')
    (h' : Same s' s'' ∨ Stored s' old content s'') : Same s s'' ∨ Stored s old content s'' := by
  refine h'.imp (fun h' => ?_) (fun h' => ?_)
  · exact ⟨fun path => (h'.files path).trans (h.files path), h'.used.trans h.used⟩
  · have hsize : snapshotSize s'.files old = snapshotSize s.files old := by
      rw [snapshotSize_eq, snapshotSize_eq, h.files]
    refine ⟨h'.here, fun path hne => (h'.others path hne).trans (h.files path), ?_⟩
    rw [← hsize, ← h.used]
    exact h'.used

/-- **A change** of a file stores its snapshot, or leaves the store and the counter as they were. -/
theorem Accounted.addfile (h : Accounted cfg s) (hmeets : AddMeets cfg fs c filename s)
    (hfits : size (addfile cfg sha256 fs c filename s).1.files < SIZE_T) :
    Accounted cfg (addfile cfg sha256 fs c filename s).1 ∧
      (Same s (addfile cfg sha256 fs c filename s).1 ∨
        Stored s (filename.drop 1 ++ chr '/' :: DIFF_LAST_FILE) c.copying.content
          (addfile cfg sha256 fs c filename s).1) := by
  rw [Seechanges.addfile] at hfits ⊢
  cases hlstat : c.lstat with
  | none => exact ⟨h, .inl .rfl⟩
  | some n =>
    rw [hlstat] at hfits
    dsimp only at hfits ⊢
    by_cases hcreate : c.createpath = true
    case neg =>
      rw [if_pos (by simpa using hcreate)]
      exact ⟨h, .inl .rfl⟩
    rw [if_neg (by simpa using hcreate), ensureStore_of_scanned h.scanned] at hfits ⊢
    by_cases hlarge : cfg.diff_max_size > 0 ∧ n > 0 ∧ n > cfg.diff_max_size
    case pos =>
      rw [if_pos hlarge]
      exact (h.reclaim (hmeets.unlink _)).imp_right .inl
    rw [if_neg hlarge] at hfits ⊢
    have hopens := fun content => hmeets.opens n content hlstat hlarge
    rw [afterScan, if_pos h.scanned] at hopens
    have hleaf := leafName_last (filename.drop 1)
    cases hold : regularAt s.files (filename.drop 1 ++ chr '/' :: DIFF_LAST_FILE) with
    | none =>
      -- there is no snapshot
      have hcontent : storedContent c s.files (filename.drop 1 ++ chr '/' :: DIFF_LAST_FILE) =
          none := by
        rw [storedContent]
        split_ifs
        · rfl
        · exact hold
      rw [hcontent] at hfits ⊢
      obtain ⟨haccounted, hsame⟩ := h.reclaim (hmeets.unlink _)
      obtain ⟨hafter, hstored⟩ := haccounted.firstSnapshot hleaf ((hsame.files _).trans hold)
        (hmeets.unlink _) hmeets.sized hfits
      exact ⟨hafter, hsame.then hstored⟩
    | some content =>
      have hcontent : storedContent c s.files (filename.drop 1 ++ chr '/' :: DIFF_LAST_FILE) =
          some content := by
        rw [storedContent, hopens content hold]
        exact hold
      have hsmall : ¬(cfg.diff_max_size > 0 ∧ content.length > cfg.diff_max_size) := fun hlarge =>
        absurd ((h.snapshot _ _ hold).2 hlarge.1) (not_le.mpr hlarge.2)
      rw [hcontent, sha256File, map_some, if_neg hsmall] at hfits ⊢
      dsimp only at hfits ⊢
      split at hfits
      case h_1 => exact ⟨h, .inl .rfl⟩
      case h_2 => exact ⟨h, .inl .rfl⟩
      case h_3 sha256_new hnew =>
        split_ifs at hfits ⊢ with hequal
        · exact ⟨h, .inl .rfl⟩
        · exact h.replaceSnapshot hold hmeets.unlink hmeets.renameBack hmeets.sized hfits

/-- **A deletion** releases what it removes. -/
theorem Accounted.delfile (h : Accounted cfg s) : Accounted cfg (delfile fs opens filename s) := by
  rw [Seechanges.delfile]
  generalize (if filename.headD 0 = chr '/' then filename.drop 1 else filename) = rel
  dsimp only
  split_ifs
  · exact h
  · exact h
  · exact h
  · generalize hremoved : (fun (path : Bytes) (_ : Node) => isBelow rel path && fs.unlink path) = p
    have hadd := total_keep_add (fun _ node => node.size) p s.files
    have hle : size (keep p s.files) ≤ s.used := by
      rw [h.used]
      exact total_keep_le _ _ _
    have hnot : (fun path (_ : Node) => !(isBelow rel path && fs.unlink path)) =
        fun path node => !p path node := by
      rw [← hremoved]
    have hnoted := @noteRemoved_eq
      { s with files := keep (fun path node => !p path node) s.files } _ h.scanned hle
    rw [hnot, hnoted]
    have hleft : size (keep (fun path node => !p path node) s.files) =
        s.used - size (keep p s.files) := by
      rw [h.used]
      exact Nat.eq_sub_of_add_eq' hadd
    refine { scanned := h.scanned, used := hleft.symm, fits := ?_, quota := ?_, snapshot := ?_ }
    · exact (total_keep_le _ _ _).trans_lt h.fits
    · exact fun hquota => (Nat.sub_le _ _).trans (h.quota hquota)
    · exact fun path content hpath => h.snapshot path content (regularAt_keep.mp hpath).1

theorem Unscanned.delfile (h : Unscanned s) : Unscanned (delfile fs opens filename s) := by
  rw [Seechanges.delfile]
  generalize (if filename.headD 0 = chr '/' then filename.drop 1 else filename) = rel
  split_ifs
  · exact h
  · exact h
  · exact h
  · rw [noteRemoved, if_pos (.inl (by rw [h.scanned]; rfl))]
    exact {
      scanned := h.scanned
      fits := (total_keep_le _ _ _).trans_lt h.fits
      names := fun path content hpath => h.names path content (regularAt_keep.mp hpath).1 }

theorem addfile_ensureStore (hlstat : c.lstat ≠ none) (hcreate : c.createpath = true) :
    addfile cfg sha256 fs c filename s =
      addfile cfg sha256 fs c filename (ensureStore cfg fs s) := by
  obtain ⟨n, hlstat⟩ := ne_none_iff_exists'.mp hlstat
  have hscanned : (ensureStore cfg fs s).scanned = true := by
    rw [ensureStore]
    split_ifs with h
    · exact h
    · rfl
  rw [addfile, addfile, hlstat]
  dsimp only
  have hnot : ¬(!c.createpath) = true := by simpa using hcreate
  rw [if_neg hnot, if_neg hnot, ensureStore_of_scanned hscanned]

theorem addfile_of_not (h : ¬(c.lstat ≠ none ∧ c.createpath = true)) :
    (addfile cfg sha256 fs c filename s).1 = s := by
  rw [addfile]
  cases hlstat : c.lstat with
  | none => rfl
  | some n =>
    have hcreate : c.createpath = false :=
      Bool.eq_false_iff.mpr fun hcreate => h ⟨by rw [hlstat]; exact some_ne_none n, hcreate⟩
    dsimp only
    rw [if_pos (by rw [hcreate]; rfl)]

/-- The store of a daemon, before its scan and after it. -/
def WellKept (cfg : Limits) (s : DiffStore) : Prop := Unscanned s ∨ Accounted cfg s

theorem WellKept.ensureStore (h : WellKept cfg s) (hmeets : AddMeets cfg fs c filename s) :
    Accounted cfg (Seechanges.ensureStore cfg fs s) := by
  obtain h | h := h
  · exact h.ensureStore hmeets.unlink (hmeets.reached h.scanned) (hmeets.quota h.scanned)
  · rw [ensureStore_of_scanned h.scanned]
    exact h

/-- A change of a file, whether the store has been scanned or not. -/
theorem WellKept.addfile (h : WellKept cfg s)
    (hstep : GoodStep cfg sha256 s (.add filename c fs) s') :
    (s' = s ∨ Accounted cfg s') ∧ (s' = s ∨ Same (Seechanges.ensureStore cfg fs s) s' ∨
      Stored (Seechanges.ensureStore cfg fs s) (filename.drop 1 ++ chr '/' :: DIFF_LAST_FILE)
        c.copying.content s') := by
  obtain ⟨rfl, hmeets, hfits⟩ := hstep
  by_cases hreach : c.lstat ≠ none ∧ c.createpath = true
  case neg => exact ⟨.inl (addfile_of_not hreach), .inl (addfile_of_not hreach)⟩
  case pos =>
    obtain ⟨hlstat, hcreate⟩ := hreach
    have hmeets := hmeets hlstat hcreate
    have haccounted := h.ensureStore hmeets
    have hafter : AddMeets cfg fs c filename (Seechanges.ensureStore cfg fs s) := {
      unlink := hmeets.unlink
      renameBack := hmeets.renameBack
      sized := hmeets.sized
      reached := fun hnot => absurd haccounted.scanned (by rw [hnot]; decide)
      quota := fun hnot => absurd haccounted.scanned (by rw [hnot]; decide)
      opens := by
        intro n content hn hsmall hcontent
        refine hmeets.opens n content hn hsmall ?_
        rw [afterScan, if_pos haccounted.scanned, Seechanges.ensureStore] at hcontent
        rw [afterScan]
        split_ifs at hcontent ⊢
        · exact hcontent
        · exact hcontent }
    rw [step, addfile_ensureStore hlstat hcreate] at hfits ⊢
    obtain ⟨hnext, hstored⟩ := haccounted.addfile hafter hfits
    exact ⟨.inr hnext, .inr hstored⟩

theorem WellKept.step {e : StoreEvent} (h : WellKept cfg s) (hstep : GoodStep cfg sha256 s e s') :
    WellKept cfg s' := by
  cases e with
  | add filename c fs =>
    obtain rfl | hnext := (h.addfile hstep).1
    · exact h
    · exact .inr hnext
  | delete filename opens fs =>
    obtain ⟨rfl, -, -⟩ := hstep
    exact h.imp Unscanned.delfile Accounted.delfile

/-- **Snapshots**: in every run of changes and deletions, with any successes and failures of the copies
and the diffs, the counter is the size of the store and within the quota, and a change stores its
snapshot or leaves the last one and the counter as they were, if every snapshot that is there can be
opened for its hash, files of the store can be removed and renamed back, and the scan finds a store
within the quota. -/
theorem addfile_law {es : List StoreEvent} (hfits : size files < SIZE_T)
    (hnames : ∀ path content, regularAt files path = some content →
      leafName path = DIFF_LAST_FILE ∨ isHistory path = true)
    (h : Run (GoodStep cfg sha256) { files } es s) :
    (s.scanned = true → s.used = size s.files ∧
      (cfg.diff_quota_size ≠ 0 → s.used ≤ cfg.diff_quota_size) ∧
      ∀ path content, regularAt s.files path = some content → leafName path = DIFF_LAST_FILE) ∧
    ∀ filename c fs s', GoodStep cfg sha256 s (.add filename c fs) s' →
      s' = s ∨ Same (ensureStore cfg fs s) s' ∨
        Stored (ensureStore cfg fs s) (filename.drop 1 ++ chr '/' :: DIFF_LAST_FILE)
          c.copying.content s' := by
  have hstart : WellKept cfg { files } := .inl ⟨rfl, hfits, hnames⟩
  have hkept : WellKept cfg s := h.invariant (fun _ _ _ hkept hstep => hkept.step hstep) hstart
  refine ⟨fun hscanned => ?_, fun filename c fs s' hstep => (hkept.addfile hstep).2⟩
  obtain hnot | haccounted := hkept
  · rw [hnot.scanned] at hscanned
    cases hscanned
  · exact ⟨haccounted.used, haccounted.quota,
      fun path content hpath => (haccounted.snapshot path content hpath).1⟩

/-- A file that is copied as a whole, when the store can be used. -/
def wholeChange (content : Bytes) : Change where
  lstat := some content.length
  content := some content
  copying := { source := some content.length, pieces := [(content, true)] }

/-- A file is stored, then replaced by a smaller one while a copy that is too large is refused, and
deleted. -/
theorem addfile_law_replaced :
    ∃ s : DiffStore, s.used = 2 ∧ regularAt s.files (lit "a/last-entry") = some (lit "zz") ∧
      (s.scanned = true → s.used = size s.files ∧ ((10 : ℕ) ≠ 0 → s.used ≤ 10) ∧
        ∀ path content, regularAt s.files path = some content → leafName path = DIFF_LAST_FILE) := by
  have hmeets : ∀ (filename content : Bytes) (s : DiffStore), content.length < SIZE_T →
      s.scanned = true ∨ s.files = ∅ →
      StoreEvent.Meets ⟨0, 10⟩ s (.add filename (wholeChange content) {}) := by
    intro filename content s hsized hs _ _
    exact {
      unlink := fun _ => rfl
      renameBack := rfl
      sized := by
        show (List.flatten [content]).length < SIZE_T
        rw [List.flatten_singleton]
        exact hsized
      reached := fun _ _ => rfl
      quota := fun hnot _ => by
        obtain hscanned | hempty := hs
        · rw [hscanned] at hnot
          cases hnot
        · rw [hempty]
          exact Nat.zero_le _
      opens := fun _ _ _ _ _ => rfl }
  have hrun : ∃ s, Run (GoodStep ⟨0, 10⟩ id) {}
      [.add (lit "/a") (wholeChange (lit "xxxxx")) {}, .add (lit "/b") (wholeChange (lit "123456")) {},
        .add (lit "/a") (wholeChange (lit "zz")) {}, .add (lit "/c") (wholeChange (lit "yy")) {},
        .delete (lit "/c") true {}] s ∧
      s.used = 2 ∧ regularAt s.files (lit "a/last-entry") = some (lit "zz") := by
    refine ⟨_, .cons ⟨rfl, hmeets _ _ _ (by decide) (.inr rfl), by decide⟩
      (.cons ⟨rfl, hmeets _ _ _ (by decide) (.inl (by decide)), by decide⟩
      (.cons ⟨rfl, hmeets _ _ _ (by decide) (.inl (by decide)), by decide⟩
      (.cons ⟨rfl, hmeets _ _ _ (by decide) (.inl (by decide)), by decide⟩
      (.cons ⟨rfl, trivial, by decide⟩ (.nil _))))), ?_, ?_⟩
    · decide
    · decide
  obtain ⟨s, hrun, hused, hstored⟩ := hrun
  refine ⟨s, hused, hstored, (addfile_law (by decide) (fun path content h => ?_) hrun).1⟩
  rw [regularAt, Finmap.lookup_empty] at h
  cases h

/-- Only copies and diffs fail. -/
def StoreEvent.Reliable : StoreEvent → Prop
  | .add _ c fs => (∀ path, fs.unlink path = true ∧ fs.reached path = true) ∧
      c.rename = true ∧ c.renameBack = true
  | .delete _ opens fs => opens = true ∧ ∀ path, fs.unlink path = true

/-- A snapshot that cannot be opened for its hash, as when a directory above the store is a link, is
counted twice. -/
theorem not_addfile_accounted : ¬ ∀ (cfg : Limits) (sha256 : Bytes → Bytes) (es : List StoreEvent)
    (s : DiffStore), (∀ e ∈ es, e.Reliable) → Run (Step cfg sha256) {} es s → s.scanned = true →
      s.used = size s.files := by
  intro h
  have hrun : ∃ s, Run (Step ⟨0, 0⟩ id) {}
      [.add (lit "/a") (wholeChange (lit "xxx")) {},
        .add (lit "/a") { wholeChange (lit "zzzz") with opens := false } {}] s ∧
      s.scanned = true ∧ s.used = 7 ∧ size s.files = 4 :=
    ⟨_, .cons rfl (.cons rfl (.nil _)), by decide, by decide, by decide⟩
  obtain ⟨s, hrun, hscanned, hused, hsize⟩ := hrun
  have hreliable : ∀ e ∈ [StoreEvent.add (lit "/a") (wholeChange (lit "xxx")) {},
      .add (lit "/a") { wholeChange (lit "zzzz") with opens := false } {}], e.Reliable := by
    intro e he
    rcases List.mem_pair.mp he with rfl | rfl
    · exact ⟨fun _ => ⟨rfl, rfl⟩, rfl, rfl⟩
    · exact ⟨fun _ => ⟨rfl, rfl⟩, rfl, rfl⟩
  have heq := h _ _ _ _ hreliable hrun hscanned
  rw [hused, hsize] at heq
  exact absurd heq (by decide)

end Seechanges
