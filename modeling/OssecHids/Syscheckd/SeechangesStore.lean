import OssecHids.Lib.Lines
import OssecHids.Lib.WeightedMap

/-!
# The store of the snapshots

The files that `seechanges.c` keeps below `DIFF_DIR_PATH/local`, and the counter of their sizes.

- `noteRemoved`, `noteAdded`: the counter;
- `ensureStore`: the scan that sets it;
- `dupfile`: a copy;
- `quotaAllow`, `dropReplaced`: what a new snapshot needs, and what it replaces.
-/

open CString WeightedMap

namespace Seechanges

def SIZE_T : ℕ := 2 ^ 64

def DIFF_LAST_FILE : Bytes := lit "last-entry"

/-- What there is at a path, if it is not a directory. -/
inductive Node
  | regular (content : Bytes)
  | symlink
  deriving DecidableEq

/-- `st_size`, for a regular file. -/
def Node.size : Node → ℕ
  | .regular content => content.length
  | .symlink => 0

/-- The files below `DIFF_DIR_PATH/local`, by their paths. -/
abbrev Files := Finmap fun _ : Bytes => Node

/-- The size of all of them. -/
def size (files : Files) : ℕ := total (fun _ node => node.size) files

/-- `seechanges_snapshot_size` -/
def snapshotSize (files : Files) (path : Bytes) : ℕ := weightAt (fun _ node => node.size) files path

/-- The files, and the static variables of `seechanges.c`. -/
structure DiffStore where
  files : Files := ∅
  /-- `seechanges_store_used` -/
  used : ℕ := 0
  /-- `seechanges_store_scanned` -/
  scanned : Bool := false
  deriving DecidableEq

/-- The limits in `syscheck`. -/
structure Limits where
  diff_max_size : ℕ
  diff_quota_size : ℕ

/-- What the file system answers during a call. -/
structure FileSystem where
  /-- The file at a path can be removed. -/
  unlink : Bytes → Bool := fun _ => true
  /-- The directories of a path can be opened. -/
  reached : Bytes → Bool := fun _ => true
  /-- A directory of a path is not there any more outside of the store. -/
  missing : Bytes → Bool := fun _ => false

/-! ## The counter -/

/-- `seechanges_note_removed` -/
def noteRemoved (n : ℕ) (s : DiffStore) : DiffStore :=
  if !s.scanned ∨ n = 0 then s
  else if n > s.used then { s with used := 0 }
  else { s with used := s.used - n }

/-- `seechanges_note_added` -/
def noteAdded (n : ℕ) (s : DiffStore) : DiffStore :=
  if !s.scanned ∨ n = 0 then s else { s with used := (s.used + n) % SIZE_T }

def unlinkFile (fs : FileSystem) (path : Bytes) (s : DiffStore) : DiffStore :=
  if fs.unlink path then { s with files := s.files.erase path } else s

/-- `seechanges_unlink_counted` -/
def unlinkCounted (fs : FileSystem) (path : Bytes) (s : DiffStore) : DiffStore :=
  if fs.unlink path then
    noteRemoved (snapshotSize s.files path) { s with files := s.files.erase path }
  else s

/-- `seechanges_reclaim_snapshot` -/
def reclaimSnapshot (cfg : Limits) (fs : FileSystem) (path : Bytes) (s : DiffStore) : DiffStore :=
  match s.files.lookup path with
  | none => s
  | some .symlink => unlinkFile fs path s
  | some (.regular content) =>
    if cfg.diff_max_size > 0 ∧ content.length > 0 ∧ content.length > cfg.diff_max_size then
      unlinkCounted fs path s
    else s

/-! ## The scan -/

/-- The name of a file in its directory. -/
def leafName (path : Bytes) : Bytes := Framing.rest (chr '/') path

/-- What an older version left of a history. -/
def isHistory (path : Bytes) : Bool :=
  (lit "state.").isPrefixOf (leafName path) || (lit "diff.").isPrefixOf (leafName path)

/-- A snapshot that is larger than the limit. -/
def isOversized (cfg : Limits) (path : Bytes) (node : Node) : Bool :=
  leafName path == DIFF_LAST_FILE && cfg.diff_max_size > 0 && node.size > cfg.diff_max_size

/-- `seechanges_scan_at` keeps a file: the files of a directory that is not there any more are
removed, and so are old files, unless they are links. -/
def scanKeeps (cfg : Limits) (fs : FileSystem) (path : Bytes) (node : Node) : Bool :=
  !(fs.reached path && fs.unlink path &&
    (fs.missing path || node != .symlink && (isHistory path || isOversized cfg path node)))

/-- What `seechanges_scan_at` counts of a file. -/
def scanCounts (cfg : Limits) (fs : FileSystem) (path : Bytes) (node : Node) : ℕ :=
  if fs.reached path && !fs.missing path && leafName path == DIFF_LAST_FILE &&
      !isOversized cfg path node then node.size
  else 0

/-- `seechanges_ensure_store` -/
def ensureStore (cfg : Limits) (fs : FileSystem) (s : DiffStore) : DiffStore :=
  if s.scanned then s
  else
    { files := keep (scanKeeps cfg fs) s.files
      used := total (scanCounts cfg fs) s.files % SIZE_T
      scanned := true }

/-- `seechanges_quota_allow(filename, add, drop)`, of a store that has been scanned. -/
def quotaAllow (cfg : Limits) (add drop : ℕ) (s : DiffStore) : Bool :=
  if cfg.diff_quota_size = 0 then true
  else
    let drop := if drop > s.used then s.used else drop
    let base := s.used - drop
    let next := (base + add) % SIZE_T
    !(next < base || next > cfg.diff_quota_size)

/-! ## Copies -/

/-- What happens during a copy. -/
structure Copying where
  /-- The size of the source, if it can be opened. -/
  source : Option ℕ
  /-- The destination can be opened. -/
  dest : Bool := true
  /-- `is_text` of the first piece; without libmagic, nothing is tested. -/
  text : Bool := true
  /-- The pieces that are read, and whether they can be written. -/
  pieces : List (Bytes × Bool)
  /-- Both files can be closed. -/
  closed : Bool := true

/-- `seechanges_open_dest`: a link is replaced. -/
def openDest (fs : FileSystem) (opens : Bool) (path : Bytes) (s : DiffStore) : Bool × DiffStore :=
  match s.files.lookup path with
  | some .symlink =>
    if fs.unlink path then
      if opens then (true, { s with files := s.files.insert path (.regular []) })
      else (false, { s with files := s.files.erase path })
    else (false, s)
  | _ => if opens then (true, { s with files := s.files.insert path (.regular []) }) else (false, s)

/-- The loop of `seechanges_dupfile`, and what it has written. -/
def copyLoop (cfg : Limits) (out : Bytes) : List (Bytes × Bool) → Bool × Bytes
  | [] => (true, out)
  | (piece, written) :: pieces =>
    if cfg.diff_max_size > 0 ∧ (out ++ piece).length > cfg.diff_max_size then (false, out)
    else if !written then (false, out)
    else copyLoop cfg (out ++ piece) pieces

/-- `seechanges_dupfile` -/
def dupfile (cfg : Limits) (fs : FileSystem) (c : Copying) (current : Bytes) (s : DiffStore) :
    Bool × DiffStore :=
  match c.source with
  | none => (false, s)
  | some size =>
    if cfg.diff_max_size > 0 ∧ size > 0 ∧ size > cfg.diff_max_size then (false, s)
    else
      match openDest fs c.dest current s with
      | (false, s) => (false, s)
      | (true, s) =>
        let (copied, out) := if !c.text then (true, []) else copyLoop cfg [] c.pieces
        let s := { s with files := s.files.insert current (.regular out) }
        if !copied ∨ !c.closed then (false, unlinkFile fs current s) else (true, s)

/-! ## Replacing -/

/-- `rename(old, new)`, when it succeeds. -/
def renameFile (old new : Bytes) (s : DiffStore) : DiffStore :=
  match s.files.lookup old with
  | none => s
  | some node => { s with files := (s.files.erase old).insert new node }

/-- The end of a snapshot that is given up: the old one comes back, unless its file cannot be renamed. -/
def restore (fs : FileSystem) (renamed : Bool) (tmp old : Bytes) (s : DiffStore) : DiffStore :=
  if renamed then renameFile tmp old s else unlinkCounted fs tmp s

/-- A file is written, through a link if there is one. -/
def writeFile (path content : Bytes) (s : DiffStore) : DiffStore :=
  match s.files.lookup path with
  | some .symlink => s
  | _ => { s with files := s.files.insert path (.regular content) }

/-- `seechanges_drop_replaced` -/
def dropReplaced (fs : FileSystem) (state diff : Bytes) (old_sz new_sz : ℕ) (s : DiffStore) :
    DiffStore :=
  -- the old size stays in the counter when the state file is still there
  let s := if (s.files.lookup state).isSome ∧ fs.unlink state then
      noteRemoved old_sz { s with files := s.files.erase state }
    else s
  let s := match s.files.lookup diff with
    | none => s
    | some node =>
      if fs.unlink diff then { s with files := s.files.erase diff } else noteAdded node.size s
  noteAdded new_sz s

variable {cfg : Limits} {fs : FileSystem} {s : DiffStore} {path old tmp diff : Bytes} {files : Files}
  {n add drop : ℕ}

/-! ## Sizes -/

/-- What is stored at a path. -/
def regularAt (files : Files) (path : Bytes) : Option Bytes :=
  match files.lookup path with
  | some (.regular content) => some content
  | _ => none

theorem regularAt_eq_some {content : Bytes} :
    regularAt files path = some content ↔ files.lookup path = some (.regular content) := by
  rw [regularAt]
  split
  case h_1 c h => rw [h, Option.some.injEq, Option.some.injEq, Node.regular.injEq]
  case h_2 h => exact iff_of_false nofun (h content)

theorem regularAt_insert (files : Files) (path content : Bytes) :
    regularAt (files.insert path (.regular content)) path = some content :=
  regularAt_eq_some.mpr (Finmap.lookup_insert _)

theorem regularAt_erase (files : Files) (path : Bytes) : regularAt (files.erase path) path = none := by
  rw [regularAt, Finmap.lookup_erase]

theorem regularAt_congr {files' : Files} (h : files'.lookup path = files.lookup path) :
    regularAt files' path = regularAt files path := by
  rw [regularAt, regularAt, h]

theorem snapshotSize_eq (files : Files) (path : Bytes) :
    snapshotSize files path = (regularAt files path).elim 0 List.length := by
  rw [snapshotSize, weightAt, regularAt]
  cases files.lookup path with
  | none => rfl
  | some node =>
    cases node with
    | regular content => rfl
    | symlink => rfl

theorem size_erase (files : Files) (path : Bytes) :
    size (files.erase path) + snapshotSize files path = size files := total_erase _ _ _

theorem size_insert (files : Files) (path content : Bytes) :
    size (files.insert path (.regular content)) + snapshotSize files path =
      size files + content.length := total_insert _ _ _ _

theorem snapshotSize_le (files : Files) (path : Bytes) : snapshotSize files path ≤ size files :=
  weightAt_le_total _ _ _

theorem noteRemoved_eq (hscanned : s.scanned = true) (hle : n ≤ s.used) :
    noteRemoved n s = { s with used := s.used - n } := by
  rw [noteRemoved, hscanned]
  by_cases hn : n = 0
  · rw [if_pos (.inr hn), hn, Nat.sub_zero, ← hscanned]
  · rw [if_neg (by simp [hn]), if_neg (not_lt.mpr hle)]

theorem noteAdded_eq (hscanned : s.scanned = true) (hlt : s.used + n < SIZE_T) :
    noteAdded n s = { s with used := s.used + n } := by
  rw [noteAdded, hscanned]
  by_cases hn : n = 0
  · rw [if_pos (.inr hn), hn, add_zero, ← hscanned]
  · rw [if_neg (by simp [hn]), Nat.mod_eq_of_lt hlt]

theorem le_of_quotaAllow (h : quotaAllow cfg add drop s = true) (hadd : add < SIZE_T)
    (hused : s.used < SIZE_T) (hdrop : drop ≤ s.used) (hquota : cfg.diff_quota_size ≠ 0) :
    s.used - drop + add ≤ cfg.diff_quota_size := by
  rw [quotaAllow, if_neg hquota, if_neg (not_lt.mpr hdrop)] at h
  rw [Bool.not_eq_true', Bool.or_eq_false_iff, decide_eq_false_iff_not, decide_eq_false_iff_not] at h
  obtain ⟨hbase, hnext⟩ := h
  by_cases hwrap : s.used - drop + add < SIZE_T
  case pos =>
    rw [Nat.mod_eq_of_lt hwrap] at hnext
    omega
  case neg =>
    -- the sum wraps to less than the base
    rw [Nat.mod_eq_sub_mod (not_lt.mp hwrap), Nat.mod_eq_of_lt (by omega)] at hbase
    omega

/-! ## Copies -/

/-- What a copy stores. -/
def Copying.content (c : Copying) : Bytes := if c.text then (c.pieces.map Prod.fst).flatten else []

theorem copyLoop_spec {out res : Bytes} {pieces : List (Bytes × Bool)}
    (hout : cfg.diff_max_size > 0 → out.length ≤ cfg.diff_max_size)
    (h : copyLoop cfg out pieces = (true, res)) :
    res = out ++ (pieces.map Prod.fst).flatten ∧
      (cfg.diff_max_size > 0 → res.length ≤ cfg.diff_max_size) := by
  induction pieces generalizing out with
  | nil =>
    obtain rfl : out = res := (Prod.mk.inj h).2
    exact ⟨(List.append_nil _).symm, hout⟩
  | cons p pieces ih =>
    obtain ⟨piece, written⟩ := p
    rw [copyLoop] at h
    split_ifs at h with hlarge hfail
    · cases h
    · cases h
    · obtain ⟨hres, hmax⟩ := ih (fun hpos => not_lt.mp fun hlt => hlarge ⟨hpos, hlt⟩) h
      refine ⟨?_, hmax⟩
      rw [hres, List.map_cons, List.flatten_cons, List.append_assoc]

/-- A copy leaves the store as it was, or without the file, or with the whole copy. -/
theorem dupfile_spec (c : Copying) (hunlink : fs.unlink path = true) :
    dupfile cfg fs c path s = (false, s) ∨
    dupfile cfg fs c path s = (false, { s with files := s.files.erase path }) ∨
    dupfile cfg fs c path s = (true, { s with files := s.files.insert path (.regular c.content) }) ∧
      (cfg.diff_max_size > 0 → c.content.length ≤ cfg.diff_max_size) := by
  have hopen : openDest fs c.dest path s = (false, s) ∨
      openDest fs c.dest path s = (false, { s with files := s.files.erase path }) ∨
      openDest fs c.dest path s = (true, { s with files := s.files.insert path (.regular []) }) := by
    rw [openDest]
    split
    · rw [if_pos hunlink]
      split_ifs
      · exact .inr (.inr rfl)
      · exact .inr (.inl rfl)
    · split_ifs
      · exact .inr (.inr rfl)
      · exact .inl rfl
  rw [dupfile]
  cases c.source with
  | none => exact .inl rfl
  | some size =>
    dsimp only
    by_cases hlarge : cfg.diff_max_size > 0 ∧ size > 0 ∧ size > cfg.diff_max_size
    · rw [if_pos hlarge]
      exact .inl rfl
    · rw [if_neg hlarge]
      obtain hopen | hopen | hopen := hopen
      · rw [hopen]
        exact .inl rfl
      · rw [hopen]
        exact .inr (.inl rfl)
      · rw [hopen]
        dsimp only
        rw [Finmap.insert_insert]
        generalize hcopy : (if (!c.text) = true then (true, []) else copyLoop cfg [] c.pieces) = res
        obtain ⟨copied, out⟩ := res
        dsimp only
        split_ifs with hfail
        · -- what has been written is removed
          refine .inr (.inl ?_)
          rw [unlinkFile, if_pos hunlink, erase_insert_self]
        · refine .inr (.inr ?_)
          rw [not_or, Bool.not_eq_true', Bool.not_eq_false] at hfail
          have hcontent : out = c.content ∧
              (cfg.diff_max_size > 0 → out.length ≤ cfg.diff_max_size) := by
            rw [Copying.content]
            rw [hfail.1] at hcopy
            cases htext : c.text with
            | false =>
              rw [htext] at hcopy
              obtain rfl : [] = out := (Prod.mk.inj hcopy).2
              exact ⟨rfl, fun _ => Nat.zero_le _⟩
            | true =>
              rw [htext] at hcopy
              exact copyLoop_spec (fun _ => Nat.zero_le _) hcopy
          obtain ⟨rfl, hmax⟩ := hcontent
          exact ⟨rfl, hmax⟩

end Seechanges
