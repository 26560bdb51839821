import OssecHids.Shared.FimSum

/-!
# The texts of integrity alerts

What `DB_ProcessFoundEntry` and `DB_Search` write about a file. The texts are put together in
buffers that live as long as the decoder, and one of them is not written on every path.

- `changeTexts_eq`: of the old buffers, only that for the permissions can be printed;
- `changeComment_eq_iff`: and when it is.
-/

open CString FimSum List

namespace Syscheck

/-! ## Permissions and attributes -/

/-- `agent_file_perm`, for the bits of `sys/stat.h` -/
def agentFilePerm (perm : Bytes) : Bytes :=
  let mode := strtoul (if perm.length = 3 then 8 else 10) perm % 2 ^ 32
  let bit (mask : ℕ) (c : Char) : Char := if mode &&& mask ≠ 0 then c else '-'
  let exec (special : ℕ) (c : Char) (mask : ℕ) : Char :=
    if mode &&& special ≠ 0 then c else bit mask 'x'
  [bit 256 'r', bit 128 'w', exec 2048 's' 64, bit 32 'r', bit 16 'w', exec 1024 's' 8, bit 4 'r',
    bit 2 'w', exec 512 't' 1].map chr

/-- The table of `fim_win_attrs_str` -/
def winAttrs : List (ℕ × Bytes) :=
  [(0x1, lit "READONLY"), (0x2, lit "HIDDEN"), (0x4, lit "SYSTEM"), (0x10, lit "DIRECTORY"),
    (0x20, lit "ARCHIVE"), (0x40, lit "DEVICE"), (0x80, lit "NORMAL"), (0x100, lit "TEMPORARY"),
    (0x200, lit "SPARSE"), (0x400, lit "REPARSE_POINT"), (0x800, lit "COMPRESSED"),
    (0x1000, lit "OFFLINE"), (0x2000, lit "NOT_CONTENT_INDEXED"), (0x4000, lit "ENCRYPTED")]

/-- The loop of `fim_win_attrs_str`: what is in the buffer, and whether a name is. -/
def winAttrsLoop (attrs buflen : ℕ) : Bytes → Bool → List (ℕ × Bytes) → Bytes × Bool
  | buf, any, [] => (buf, any)
  | buf, any, (mask, name) :: table =>
    if attrs &&& mask = 0 then winAttrsLoop attrs buflen buf any table
    else if any ∧ buflen ≤ buf.length + 2 then (buf, any)
    else
      let buf := if any then buf ++ lit ", " else buf
      if buflen ≤ buf.length + name.length then (buf, any)
      else winAttrsLoop attrs buflen (buf ++ name) true table

/-- `fim_win_attrs_str` -/
def fimWinAttrsStr (attrs buflen : ℕ) : Bytes :=
  let (buf, any) := winAttrsLoop attrs buflen [] false winAttrs
  if any then buf else snprintf buflen (lit "NONE")

/-! ## The fields of two sums -/

/-- The first fields of an old and a new sum, which are split at their colons as long as both have
one. What is left is the last field. -/
def splitPairs : ℕ → Bytes → Bytes → List (Bytes × Bytes)
  | 0, old, new => [(old, new)]
  | n + 1, old, new =>
    match strchr (chr ':') old, strchr (chr ':') new with
    | some o, some h =>
      (old.take (ptrDiff o old), new.take (ptrDiff h new)) :: splitPairs n o.tail h.tail
    | _, _ => [(old, new)]

/-- A field that is split at its first colon, on its own side only. -/
def splitColon (s : Bytes) : Bytes × Option Bytes :=
  match strchr (chr ':') s with
  | some p => (s.take (ptrDiff p s), some p.tail)
  | none => (s, none)

/-- The old and the new fields of the sums that are compared. -/
structure Pairs where
  size : Bytes × Bytes
  perm : Option (Bytes × Bytes)
  uid : Option (Bytes × Bytes)
  gid : Option (Bytes × Bytes)
  md5 : Option (Bytes × Bytes)
  sha1 : Option (Bytes × Bytes)
  sha256 : Option (Bytes × Bytes)
  attrs : Option Bytes × Option Bytes
  acl : Option Bytes × Option Bytes

def pairs (saved_sum c_sum : Bytes) : Pairs :=
  let fields := splitPairs 6 saved_sum c_sum
  let sides := fields[6]?.map fun (old, new) => (splitColon old, splitColon new)
  let attrs := (sides.bind (·.1.2), sides.bind (·.2.2))
  { size := fields.headD ([], [])
    perm := fields[1]?
    uid := fields[2]?
    gid := fields[3]?
    md5 := fields[4]?
    sha1 := fields[5]?
    sha256 := sides.map fun (old, new) => (old.1, new.1)
    attrs := (attrs.1.map (splitColon · |>.1), attrs.2.map (splitColon · |>.1))
    acl := (attrs.1.bind (splitColon · |>.2), attrs.2.bind (splitColon · |>.2)) }

/-! ## The buffers -/

/-- The buffers for the parts of a text: members of `_sdb`. -/
structure Texts where
  size : Bytes := []
  perm : Bytes := []
  owner : Bytes := []
  gowner : Bytes := []
  md5 : Bytes := []
  sha1 : Bytes := []
  sha256 : Bytes := []
  attrs : Bytes := []
  deriving DecidableEq

/-- The values of an event that a change leaves: `size_before`, `size_after` and so on. Nothing is
left for the hashes of a new file but `md5_after`, `sha1_after` and `sha256_after`. -/
structure Changes where
  size : Option (Bytes × Bytes) := none
  perm : Option (ℤ × ℤ) := none
  owner : Option (Bytes × Bytes) := none
  gowner : Option (Bytes × Bytes) := none
  md5 : Option (Option Bytes × Bytes) := none
  sha1 : Option (Option Bytes × Bytes) := none
  sha256 : Option (Option Bytes × Bytes) := none
  deriving DecidableEq

/-- A pair whose sides differ. -/
def differing (pair : Option (Bytes × Bytes)) : Option (Bytes × Bytes) :=
  pair.filter fun (old, new) => decide (old ≠ new)

/-- A pair of real hashes that differ. -/
def differingHash (pair : Option (Bytes × Bytes)) : Option (Bytes × Bytes) :=
  (differing pair).filter fun (old, new) =>
    !fimHashIsPlaceholder old && !fimHashIsPlaceholder new

/-- A text about two values; the buffer is emptied if there is nothing to say. -/
def pairText (pair : Option (Bytes × Bytes)) (start middle stop : String) : Bytes :=
  match pair with
  | some (old, new) => snprintf 256 (lit start ++ old ++ lit middle ++ new ++ lit stop)
  | none => []

def sizeText (p : Pairs) : Bytes :=
  pairText (differing (some p.size)) "Size changed from '" "' to '" "'\n"

/-- The permissions as numbers. -/
def permNumbers (p : Pairs) : ℤ × ℤ :=
  match p.perm with
  | some (old, new) => (atoi old, atoi new)
  | none => (0, 0)

/-- The text about the permissions; the buffer is left as it is if one of the numbers is not
positive. -/
def permText (sdb : Texts) (p : Pairs) : Bytes :=
  let (oldperm, newperm) := permNumbers p
  let (c_oldperm, c_newperm) := p.perm.getD ([], [])
  if oldperm = newperm then []
  else if 0 < oldperm ∧ 0 < newperm then
    snprintf 256 (lit "Permissions changed from '" ++ agentFilePerm c_oldperm ++ lit "' to '" ++
      agentFilePerm c_newperm ++ lit "'\n")
  else sdb.perm

def ownerText (p : Pairs) : Bytes :=
  pairText (differing p.uid) "Ownership was '" "', now it is '" "'\n"

def gownerText (p : Pairs) : Bytes :=
  pairText (differing p.gid) "Group ownership was '" "', now it is '" "'\n"

def md5Text (p : Pairs) : Bytes :=
  pairText (differingHash p.md5) "Old md5sum was: '" "'\nNew md5sum is : '" "'\n"

def sha1Text (p : Pairs) : Bytes :=
  pairText (differingHash p.sha1) "Old sha1sum was: '" "'\nNew sha1sum is : '" "'\n"

def sha256Text (p : Pairs) : Bytes :=
  pairText (differingHash p.sha256) "Old sha256sum was: '" "'\nNew sha256sum is : '" "'\n"

/-- The text about the attributes, and behind it the one about the digest of the access list. -/
def attrsText (p : Pairs) : Bytes :=
  let attrs :=
    match p.attrs with
    | (some oldattrs, some newattrs) =>
      if oldattrs = newattrs then []
      else
        snprintf 256 (lit "Attributes changed from '" ++
          fimWinAttrsStr (strtoul 10 oldattrs % 2 ^ 32) 128 ++ lit "' to '" ++
            fimWinAttrsStr (strtoul 10 newattrs % 2 ^ 32) 128 ++ lit "'\n")
    | _ => []
  match p.acl with
  | (some oldacl, some newacl) =>
    if oldacl = newacl then attrs
    else
      let acl_line := snprintf 256 (lit "ACL digest changed from '" ++ oldacl.take 32 ++
        lit "' to '" ++ newacl.take 32 ++ lit "'\n")
      if attrs = [] then acl_line else snprintf 256 (attrs ++ acl_line)
  | _ => attrs

/-- The buffers after the texts about a change are written. -/
def changeTexts (sdb : Texts) (p : Pairs) : Texts where
  size := sizeText p
  perm := permText sdb p
  owner := ownerText p
  gowner := gownerText p
  md5 := md5Text p
  sha1 := sha1Text p
  sha256 := sha256Text p
  attrs := attrsText p

/-- The values of the event after that. -/
def changes (p : Pairs) : Changes where
  size := differing (some p.size)
  perm :=
    let (oldperm, newperm) := permNumbers p
    if oldperm ≠ newperm ∧ 0 < oldperm ∧ 0 < newperm then some (oldperm, newperm) else none
  owner := differing p.uid
  gowner := differing p.gid
  md5 := (differingHash p.md5).map fun (old, new) => (some old, new)
  sha1 := (differingHash p.sha1).map fun (old, new) => (some old, new)
  sha256 := (differingHash p.sha256).map fun (old, new) => (some old, new)

/-- The end of a text, from what is behind the first line of the message. -/
def whatChanged : Option Bytes → Bytes
  | none => []
  | some data =>
    (if strncmpEq 12 data (lit "Permissions:") then [] else lit "What changed:\n") ++ data

/-- `sdb.comment` for a change -/
def changeComment (t : Texts) (f_name : Bytes) (data : Option Bytes) : Bytes :=
  snprintf 6144 (lit "Integrity checksum changed for: '" ++ f_name.take 756 ++ lit "'\n" ++
    t.size ++ t.perm ++ t.owner ++ t.gowner ++ t.md5 ++ t.sha1 ++ t.sha256 ++ t.attrs ++
    whatChanged data)

/-- `sdb.comment` for a file that was deleted. -/
def deletedComment (f_name : Bytes) : Bytes :=
  snprintf 6144 (lit "File '" ++ f_name.take 756 ++
    lit "' was deleted. Unable to retrieve checksum.")

/-- `sdb.comment` for a file that is there again. -/
def readdedComment (f_name : Bytes) : Bytes :=
  snprintf 6144 (lit "File '" ++ f_name.take 756 ++ lit "' was re-added.")

/-- `strtok_r(s, ":", &saveptr)`, called until it returns `NULL` -/
def tokens (s : Bytes) : List Bytes := (Fields.splitMax (chr ':') (s.length + 1) s).filter (· ≠ [])

/-- The buffers after the texts about a new file are written, and the values of the event. -/
def newTexts (sdb : Texts) (c_sum : Bytes) : Texts × Changes :=
  let newfilemd5 := (tokens c_sum)[4]?.getD (lit "Unknown")
  let newfilesha1 := (tokens c_sum)[5]?.getD (lit "Unknown")
  let newfilesha256 := (tokens c_sum)[6]?
  ({ sdb with
      sha256 := newfilesha256.elim [] fun h =>
        snprintf 256 (lit "New sha256sum is : '" ++ h ++ lit "'\n")
      sha1 := snprintf 256 (lit "New sha1sum is : '" ++ newfilesha1 ++ lit "'\n")
      md5 := snprintf 256 (lit "New md5sum is : '" ++ newfilemd5 ++ lit "'\n") },
    { md5 := some (none, newfilemd5)
      sha1 := some (none, newfilesha1)
      sha256 := newfilesha256.map (none, ·) })

/-- `sdb.comment` for a new file. -/
def newComment (t : Texts) (f_name : Bytes) : Bytes :=
  snprintf 6144 (lit "New file '" ++ f_name.take 756 ++ lit "' added to the file system.\n" ++
    t.sha1 ++ t.md5 ++ t.sha256)

/-! ## Old buffers -/

variable {sdb sdb' : Texts} {p : Pairs} {f_name : Bytes} {data : Option Bytes}

/-- The permissions differ, but one of the numbers is not positive: nothing is written about them. -/
def PermStale (p : Pairs) : Prop :=
  (permNumbers p).1 ≠ (permNumbers p).2 ∧ ¬ (0 < (permNumbers p).1 ∧ 0 < (permNumbers p).2)

instance (p : Pairs) : Decidable (PermStale p) := inferInstanceAs (Decidable (_ ∧ ¬ _))

theorem permText_of_stale (h : PermStale p) (sdb : Texts) : permText sdb p = sdb.perm := by
  rw [permText]
  dsimp only
  rw [if_neg h.1, if_neg h.2]

theorem permText_of_not_stale (h : ¬ PermStale p) (sdb sdb' : Texts) :
    permText sdb p = permText sdb' p := by
  rw [permText, permText]
  dsimp only
  split
  · rfl
  case isFalse hne =>
    split
    · rfl
    case isFalse hpos => exact absurd ⟨hne, hpos⟩ h

/-- Where the buffer for the permissions is written, the old buffers leave no trace. -/
theorem changeTexts_eq (h : ¬ PermStale p) (sdb sdb' : Texts) :
    changeTexts sdb p = changeTexts sdb' p := by
  rw [changeTexts, changeTexts, permText_of_not_stale h sdb sdb']

theorem length_snprintf_le (n : ℕ) (s : Bytes) : (snprintf n s).length ≤ n - 1 :=
  List.length_take_le _ _

theorem length_pairText_le (pair : Option (Bytes × Bytes)) (start middle stop : String) :
    (pairText pair start middle stop).length ≤ 255 := by
  cases pair with
  | none => exact Nat.zero_le _
  | some pair => exact length_snprintf_le 256 _

/-- Where it is not, what it holds is printed. -/
theorem changeComment_eq_iff (h : PermStale p) (hlen : sdb.perm.length = sdb'.perm.length)
    (hle : sdb.perm.length ≤ 255) :
    changeComment (changeTexts sdb p) f_name data = changeComment (changeTexts sdb' p) f_name data ↔
      sdb.perm = sdb'.perm := by
  constructor
  · intro heq
    -- the text in front of the permissions is short enough
    have hhead : ∀ t : Texts, ∃ rest, changeComment (changeTexts t p) f_name data =
        ((lit "Integrity checksum changed for: '" ++ f_name.take 756 ++ lit "'\n" ++ sizeText p) ++
          (t.perm ++ rest)).take 6143 := fun t => by
      refine ⟨ownerText p ++ gownerText p ++ md5Text p ++ sha1Text p ++ sha256Text p ++
        attrsText p ++ whatChanged data, ?_⟩
      rw [changeComment, changeTexts, permText_of_stale h, snprintf]
      simp only [append_assoc]
    obtain ⟨rest, hrest⟩ := hhead sdb
    obtain ⟨rest', hrest'⟩ := hhead sdb'
    have hshort : (lit "Integrity checksum changed for: '" ++ f_name.take 756 ++ lit "'\n" ++
        sizeText p).length ≤ 33 + 756 + 2 + 255 := by
      have hname : (f_name.take 756).length ≤ 756 := List.length_take_le _ _
      have hsize : (sizeText p).length ≤ 255 := length_pairText_le _ _ _ _
      have hlit : (lit "Integrity checksum changed for: '").length = 33 := by decide
      have hlit' : (lit "'\n").length = 2 := by decide
      simp only [length_append]
      omega
    generalize hstart : lit "Integrity checksum changed for: '" ++ f_name.take 756 ++ lit "'\n" ++
        sizeText p = start at hrest hrest' hshort
    rw [hrest, hrest'] at heq
    have hcut := congrArg (List.take (start.length + sdb.perm.length)) heq
    have hle' : start.length + sdb.perm.length ≤ 6143 := by omega
    have htake : ∀ t r : Bytes, t.length = sdb.perm.length →
        ((start ++ (t ++ r)).take 6143).take (start.length + sdb.perm.length) = start ++ t := by
      intro t r ht
      rw [take_take, min_eq_left hle', ← append_assoc, ← ht, ← length_append, take_left]
    rw [htake _ _ rfl, htake _ _ hlen.symm] at hcut
    exact append_cancel_left hcut
  · intro heq
    rw [changeTexts, changeTexts, permText_of_stale h, permText_of_stale h, heq]

end Syscheck
