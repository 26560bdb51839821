import OssecHids.Lib.Stream
import OssecHids.OsCrypto.Primitives

/-!
# Reports about files

The messages that rootcheck sends about a file: a rootkit that is known by the presence of the
file, and a file that does not look the same in two ways. The hashes of the file stand behind the
sentence.

- `notMem_name`: the name of a rootkit has no blank in it;
- `rkAppendFileHash_eq`: what is appended, if it fits the buffer.
-/

open CString List

namespace Rootcheck

def OS_SIZE_1024 : ℕ := 1024

def OS_SIZE_2048 : ℕ := 2048

/-! ## The list of rootkits -/

/-- A blank of the list. -/
def isBlank (b : UInt8) : Bool := b == chr ' ' || b == chr '\t'

/-- The loop that looks for the mark in front of the name: what stands behind the mark, if there is
one, or nothing at all where the line is skipped. -/
def markLoop : Bytes → Option (Option Bytes)
  | [] => some none
  | b :: s =>
    if b = chr '!' then
      if isBlank (s.headD 0) then some (some s.tail) else markLoop s
    else if isBlank b then markLoop s
    else none

/-- The file and the name of the rootkit in a line that `check_rc_files` has read. -/
def rcLine (buf : Bytes) : Option (Bytes × Bytes) :=
  let nbuf := (buf.takeWhile (· != chr '\n')).dropWhile isBlank
  if nbuf.headD 0 = chr '#' then none
  else
    let file := nbuf.takeWhile fun b => !isBlank b
    let nbuf := (nbuf.dropWhile fun b => !isBlank b).tail
    if nbuf = [] then none
    else
      (markLoop nbuf).map fun mark =>
        match mark with
        | none => (file, file)
        -- the link behind the colon is cut, and any blank at the end
        | some nbuf => (file, (nbuf.takeWhile (· != chr ':')).takeWhile (· != chr ' '))

/-- The name ends at the first blank. -/
theorem notMem_name {buf file name : Bytes} (h : rcLine buf = some (file, name)) :
    chr ' ' ∉ name := by
  have hfile : ∀ s : Bytes, chr ' ' ∉ s.takeWhile fun b => !isBlank b := fun s hmem =>
    absurd (mem_takeWhile_imp hmem) (by decide)
  have hname : ∀ s : Bytes, chr ' ' ∉ s.takeWhile (· != chr ' ') := fun s hmem =>
    absurd (mem_takeWhile_imp hmem) (by decide)
  rw [rcLine] at h
  split at h
  case isTrue => cases h
  case isFalse =>
    dsimp only at h
    split at h
    case isTrue => cases h
    case isFalse =>
      obtain ⟨mark, -, hmark⟩ := Option.map_eq_some_iff.mp h
      cases mark with
      | none =>
        cases hmark
        exact hfile _
      | some nbuf =>
        cases hmark
        exact hname _

/-! ## Hashes -/

/-- The bytes as `%02x` prints them. -/
def hexText (bytes : Bytes) : Bytes :=
  bytes.flatMap fun b => [Crypto.hexDigit (b.toNat / 16), Crypto.hexDigit (b.toNat % 16)]

/-- What `OS_MD5_SHA1_SHA256_File` computes. -/
structure Digests where
  md5 : Fin 16 → UInt8
  sha1 : Fin 20 → UInt8
  sha256 : Fin 32 → UInt8

def Digests.md5Text (d : Digests) : Bytes := hexText (List.ofFn d.md5)

def Digests.sha1Text (d : Digests) : Bytes := hexText (List.ofFn d.sha1)

def Digests.sha256Text (d : Digests) : Bytes := hexText (List.ofFn d.sha256)

/-- What `stat` tells about a file. -/
structure Stat where
  isReg : Bool
  size : ℤ

/-- What can be found out about a file: `stat`, and the digests unless it cannot be read. -/
structure File where
  stat : Option Stat
  digests : Option Digests

/-- The digests that are reported: only those of a regular file that is not too large. -/
def File.sums (file : File) (file_max_size : ℕ) : Option Digests :=
  file.stat.bind fun st =>
    if st.isReg ∧ (file_max_size = 0 ∨ st.size ≤ 0 ∨ st.size.toNat ≤ file_max_size) then
      file.digests
    else none

/-- `" MD5=%s SHA1=%s SHA256=%s"` -/
def hashText (sums : Option Digests) : Bytes :=
  lit " MD5=" ++ sums.elim (lit "n/a") Digests.md5Text ++
    (lit " SHA1=" ++ sums.elim (lit "n/a") Digests.sha1Text ++
      (lit " SHA256=" ++ sums.elim (lit "n/a") Digests.sha256Text))

/-- `rk_append_file_hash` -/
def rkAppendFileHash (file_max_size : ℕ) (file : File) (dest : Bytes) (dest_size : ℕ) : Bytes :=
  if dest_size ≤ dest.length then dest
  else dest ++ snprintf (dest_size - dest.length) (hashText (file.sums file_max_size))

/-! ## Messages -/

/-- The sentence of `check_rc_files` and of `read_sys_dir`. -/
def rootkitText (name file_path : Bytes) : Bytes :=
  lit "Rootkit '" ++ name ++ lit "' detected by the presence of file '" ++ file_path ++ lit "'."

/-- The sentence of `read_sys_file` for a file whose size is not what was read. -/
def sizeText (file_name : Bytes) : Bytes :=
  lit "Anomaly detected in file '" ++ file_name ++
    lit "'. File size doesn't match what we found. Possible kernel level rootkit."

/-- The sentence of `read_sys_file` for a file that only `readdir` shows. -/
def hiddenText (file_name : Bytes) : Bytes :=
  lit "Anomaly detected in file '" ++ file_name ++
    lit "'. Hidden from stats, but showing up on readdir. Possible kernel level rootkit."

/-- A sentence in a buffer of `OS_SIZE_2048 + 1` bytes, with the hashes behind it. -/
def withHash (file_max_size : ℕ) (file : File) (text : Bytes) : Bytes :=
  rkAppendFileHash file_max_size file (snprintf OS_SIZE_2048 text) (OS_SIZE_2048 + 1)

def rootkitMsg (file_max_size : ℕ) (file : File) (name file_path : Bytes) : Bytes :=
  withHash file_max_size file (rootkitText name file_path)

def sizeMsg (file_max_size : ℕ) (file : File) (file_name : Bytes) : Bytes :=
  withHash file_max_size file (sizeText file_name)

/-- The end of a message that did not fit is not that of a name. -/
def hiddenMsg (file_name : Bytes) : Bytes :=
  if (hiddenText file_name).length ≥ OS_SIZE_1024 then
    (snprintf OS_SIZE_1024 (hiddenText file_name)).take (OS_SIZE_1024 - 4) ++ lit "..."
  else snprintf OS_SIZE_1024 (hiddenText file_name)

/-! ## What is sent -/

theorem mem_hexText {bytes : Bytes} {b : UInt8} (h : b ∈ hexText bytes) :
    b ∈ lit "0123456789abcdef" := by
  have hdigit : ∀ n < 16, Crypto.hexDigit n ∈ lit "0123456789abcdef" := by decide
  obtain ⟨c, -, hb⟩ := mem_flatMap.mp h
  have hc : c.toNat < 256 := c.toNat_lt
  simp only [mem_cons, not_mem_nil, or_false] at hb
  rcases hb with rfl | rfl
  · exact hdigit _ (by omega)
  · exact hdigit _ (by omega)

@[simp]
theorem length_hexText (bytes : Bytes) : (hexText bytes).length = 2 * bytes.length := by
  induction bytes with
  | nil => rfl
  | cons b bytes ih =>
    rw [hexText, flatMap_cons, length_append, ← hexText, ih, length_cons,
      length_cons, length_cons, length_nil]
    omega

variable {file_max_size : ℕ} {file : File} {text : Bytes}

theorem withHash_eq (hfits : (text ++ hashText (file.sums file_max_size)).length ≤ OS_SIZE_2048) :
    withHash file_max_size file text = text ++ hashText (file.sums file_max_size) := by
  have hhash : 0 < (hashText (file.sums file_max_size)).length :=
    length_pos_of_mem (a := chr ' ') mem_cons_self
  rw [length_append] at hfits
  have htext : snprintf OS_SIZE_2048 text = text := take_of_length_le (by omega)
  rw [withHash, htext, rkAppendFileHash, if_neg (by omega)]
  exact congrArg (text ++ ·) (take_of_length_le (by omega))

theorem hiddenMsg_eq {file_name : Bytes} (hfits : (hiddenText file_name).length < OS_SIZE_1024) :
    hiddenMsg file_name = hiddenText file_name := by
  rw [hiddenMsg, if_neg (Nat.not_le_of_lt hfits)]
  exact take_of_length_le (by omega)

end Rootcheck
