import OssecHids.Lib.Baseline
import OssecHids.Shared.FimSum

/-!
# Scanning a file

What the agent does with one file in a scan: `read_file_at`, and `c_read_file` for a file that it
has in its database already. Agents for Windows, whose sums have more fields, are left out, and so
are files that are gone.

- `readFileAt_eq`: the entry of a file is the baseline of an observer, and a message is sent where
  a report is due.
-/

open CString FimSum Baseline Fields List Option

namespace Syscheckd

/-! ## Data -/

/-- A hash as it is printed -/
structure Digest where
  hex : Bytes
  hex_ne_nil : hex ≠ []
  length_le : hex.length ≤ 64
  isHex : ∀ b ∈ hex, isDigit b ∨ (97 ≤ b ∧ b ≤ 102)
  deriving DecidableEq

/-- The hashes `mf_sum`, `sf_sum` and `sha256_sum` -/
inductive Algorithm
  | md5 | sha1 | sha256
  deriving DecidableEq

instance : Fintype Algorithm where
  elems := {.md5, .sha1, .sha256}
  complete a := by cases a <;> decide

/-- What a hash function leaves in its buffers: a hash, or `xxx`. -/
abbrev Sums := Algorithm → Option Digest

/-- The members of `struct stat` that are printed. The size of a file is not negative. -/
structure Stat where
  st_size : Fin (2 ^ 63)
  st_mode : UInt32
  st_uid : UInt32
  st_gid : UInt32

/-- What is found when a file is read: `hash` is what the hash functions leave, unless they
fail. -/
structure Reading where
  statbuf : Stat
  hash : Option Sums

/-- What is checked of a file. -/
structure Checks where
  size : Bool
  perm : Bool
  owner : Bool
  group : Bool
  md5sum : Bool
  sha1sum : Bool
  sha256sum : Bool

/-- The options of a directory, `CHECK_*` -/
structure Opts extends Checks where
  seechanges : Bool

/-- A scan of a file. The file is read once, and once more if there is an entry for it, which can
fail. Whether the message that the scan leads to is delivered is part of it, and what
`seechanges_addfile` returns. -/
structure Scan where
  first : Reading
  again : Option Reading
  holding_baseline : Bool
  fullalert : Option Bytes
  sent : Bool

/-! ## Sums -/

def Checks.hash (c : Checks) : Algorithm → Bool
  | .md5 => c.md5sum
  | .sha1 => c.sha1sum
  | .sha256 => c.sha256sum

/-- A hash, or `xxx` -/
def hashText (sum : Option Digest) : Bytes := sum.elim (lit "xxx") Digest.hex

/-- The format `%ld:%d:%d:%d:%s:%s:%s` of the sums. -/
def sumText (c : Checks) (statbuf : Stat) (sums : Sums) : Bytes :=
  fmtD (if c.size then statbuf.st_size.val else 0 : ℕ) ++ chr ':' ::
    (fmtD (if c.perm then statbuf.st_mode.toInt32 else 0).toInt ++ chr ':' ::
      (fmtD (if c.owner then statbuf.st_uid.toInt32 else 0).toInt ++ chr ':' ::
        (fmtD (if c.group then statbuf.st_gid.toInt32 else 0).toInt ++ chr ':' ::
          ((if c.md5sum then hashText (sums .md5) else lit "xxx") ++ chr ':' ::
            ((if c.sha1sum then hashText (sums .sha1) else lit "xxx") ++ chr ':' ::
              (if c.sha256sum then hashText (sums .sha256) else lit "xxx"))))))

/-- The flag for SHA-1, which tells about the report of changes, too. -/
def sha1s (opts : Opts) : UInt8 :=
  if opts.md5sum || opts.sha1sum || opts.sha256sum then
    if opts.seechanges then if opts.sha1sum then chr 's' else chr 'n'
    else if opts.sha1sum then chr '+' else chr '-'
  else if opts.seechanges then chr 'n'
  else chr '-'

def flag (check : Bool) : UInt8 := if check then chr '+' else chr '-'

/-- The flags in front of the sum of an entry. -/
def flags (opts : Opts) : Bytes :=
  [flag opts.size, flag opts.perm, flag opts.owner, flag opts.group, flag opts.md5sum, sha1s opts,
    flag opts.sha256sum]

/-- Hashes are computed if one of them is checked. -/
def checksum (c : Checks) (r : Reading) : Option Sums :=
  if c.md5sum || c.sha1sum || c.sha256sum then r.hash else some fun _ => none

/-! ## The functions -/

/-- What an entry says is checked. -/
def oldChecks (oldsum : Bytes) : Checks :=
  let at' (i : ℕ) : UInt8 := (oldsum.drop i).headD 0
  { size := at' 0 == chr '+'
    perm := at' 1 == chr '+'
    owner := at' 2 == chr '+'
    group := at' 3 == chr '+'
    md5sum := at' 4 == chr '+'
    sha1sum := at' 5 == chr '+' || at' 5 == chr 's'
    sha256sum := at' 6 == chr '+' }

/-- `c_read_file`: the new sum, or nothing where it returns `-2`. -/
def cReadFile (r : Option Reading) (oldsum : Bytes) : Option Bytes :=
  r.bind fun r =>
    let c := oldChecks oldsum
    (checksum c r).map fun sums =>
      let newsum := snprintf 6144 (sumText c r.statbuf sums)
      snprintf 6144 (fimSumKeepHashes 6144 (oldsum.drop (fimSumDataOffset oldsum)) newsum)

/-- The entry that is stored in the place of another one. -/
def updatedEntry (buf c_sum : Bytes) : Bytes :=
  let sum_off := fimSumDataOffset buf
  let fields := (c_sum.take (fimSumDataLen c_sum)).count (chr ':') + 1
  let nflags := if 9 ≤ fields then 9 else if 8 ≤ fields then 8 else 7
  let updated := buf.take (min sum_off 7) ++ List.replicate (nflags - min sum_off 7) 0
  let updated := if sum_off < 7 then setByte updated 6 (chr '-') else updated
  let updated := if 8 ≤ nflags then
      setByte updated 7
        (if fields = 9 ∧ (sum_off < 8 ∨ (buf.drop 7).headD 0 ≠ chr '+') then chr '-' else chr '+')
    else updated
  let updated := if 9 ≤ nflags then setByte updated 8 (chr '+') else updated
  updated ++ c_sum

/-- The message for a change. -/
def changeMsg (file_name buf c_sum : Bytes) (fullalert : Option Bytes) : Bytes :=
  let text := c_sum ++ chr ' ' :: file_name
  let fullalert :=
    if (buf.drop 5).headD 0 = chr 's' ∨ (buf.drop 5).headD 0 = chr 'n' then fullalert else none
  snprintf 6144 (text ++ fullalert.elim [] (chr '\n' :: ·))

/-- `read_file_at`, for a regular file or a link: the entry of the file after it, and the message
that was delivered. -/
def readFileAt (opts : Opts) (file_name : Bytes) (buf : Option Bytes) (s : Scan) :
    Option Bytes × Option Bytes :=
  let sums := checksum opts.toChecks s.first
  if sums.isNone && s.holding_baseline then (buf, none)
  else
    match buf with
    | none =>
      let sum := sumText opts.toChecks s.first.statbuf (sums.getD fun _ => none)
      let hash_entry := snprintf 916 (flags opts ++ sum)
      let alert_msg := snprintf 6144 (sum ++ chr ' ' :: file_name)
      if s.sent then (some hash_entry, some alert_msg) else (none, none)
    | some buf =>
      match cReadFile s.again buf with
      | none => (some buf, none)
      | some c_sum =>
        let old := buf.drop (fimSumDataOffset buf)
        if fimSumEqual c_sum old then (some buf, none)
        else if fimSumHasRealChange old c_sum then
          if s.sent then
            (some (updatedEntry buf c_sum), some (changeMsg file_name buf c_sum s.fullalert))
          else (some buf, none)
        else (some (updatedEntry buf c_sum), none)

/-! ## Observations -/

/-- What is told of a file besides its hashes. -/
@[ext]
structure Meta where
  size : Fin (2 ^ 63)
  perm : Int32
  uid : Int32
  gid : Int32
  deriving DecidableEq

/-- What is observed of a file -/
abbrev Observed := Observation Meta Algorithm Digest

/-- What is checked of what is found -/
def observe (c : Checks) (statbuf : Stat) (sums : Sums) : Observed where
  data :=
    { size := if c.size then statbuf.st_size else 0
      perm := if c.perm then statbuf.st_mode.toInt32 else 0
      uid := if c.owner then statbuf.st_uid.toInt32 else 0
      gid := if c.group then statbuf.st_gid.toInt32 else 0 }
  value a := if c.hash a then sums a else none

/-- The fields of a sum -/
def sumFields (o : Observed) : List Bytes :=
  [fmtD (o.data.size.val : ℕ), fmtD o.data.perm.toInt, fmtD o.data.uid.toInt,
    fmtD o.data.gid.toInt, hashText (o.value .md5), hashText (o.value .sha1),
    hashText (o.value .sha256)]

/-- The sum for an observation -/
def sumOf (o : Observed) : Bytes := [chr ':'].intercalate (sumFields o)

theorem sumText_eq (c : Checks) (statbuf : Stat) (sums : Sums) :
    sumText c statbuf sums = sumOf (observe c statbuf sums) := by
  have hhash : ∀ (b : Bool) (sum : Option Digest),
      (if b then hashText sum else lit "xxx") = hashText (if b then sum else none) := by
    intro b sum
    cases b <;> rfl
  have hsize : ((if c.size then statbuf.st_size.val else 0 : ℕ)) =
      (if c.size then statbuf.st_size else 0 : Fin (2 ^ 63)).val := by
    cases c.size <;> rfl
  rw [sumText, sumOf, sumFields, hsize, hhash, hhash, hhash]
  simp [intercalate_cons_cons, observe, Checks.hash]
  rfl

variable {o o' b : Observed} {f : Bytes}

/-! ## Printed hashes -/

theorem hashText_hex (sum : Option Digest) (x : UInt8) (hx : x ∈ hashText sum) :
    x = chr 'x' ∨ isDigit x ∨ (97 ≤ x ∧ x ≤ 102) := by
  cases sum with
  | none =>
    left
    revert x
    decide +kernel
  | some d => exact .inr (d.isHex x hx)

theorem fimHashIsPlaceholder_hashText (sum : Option Digest) :
    fimHashIsPlaceholder (hashText sum) = sum.isNone := by
  cases sum with
  | none => decide
  | some d =>
    show fimHashIsPlaceholder d.hex = false
    have hx : chr 'x' ∉ d.hex := fun hmem => by
      rcases d.isHex _ hmem with h | h
      · exact absurd h (by decide)
      · exact absurd h (by decide)
    have htake : d.hex.take 3 ≠ lit "xxx" := fun h => by
      have hmem : chr 'x' ∈ d.hex.take 3 := by
        rw [h]
        decide
      exact hx (mem_of_mem_take hmem)
    rw [fimHashIsPlaceholder, isEmpty_eq_false_iff.mpr d.hex_ne_nil, Bool.false_or,
      beq_eq_false_iff_ne.mpr htake, Bool.false_and]

theorem hashText_injective : Function.Injective hashText := by
  intro x y h
  have hnone : x.isNone = y.isNone := by
    rw [← fimHashIsPlaceholder_hashText, h, fimHashIsPlaceholder_hashText]
  cases x with
  | none => exact (isNone_iff_eq_none.mp hnone.symm).symm
  | some d =>
    cases y with
    | none => exact absurd hnone Bool.false_ne_true
    | some e =>
      obtain ⟨hex, h1, h2, h3⟩ := d
      obtain ⟨hex', h1', h2', h3'⟩ := e
      obtain rfl : hex = hex' := h
      rfl

/-! ## Printed sums -/

theorem mem_sumFields {x : UInt8} (hf : f ∈ sumFields o) (hx : x ∈ f) :
    x = chr '-' ∨ x = chr 'x' ∨ isDigit x ∨ (97 ≤ x ∧ x ≤ 102) := by
  have hnum : ∀ i, f = fmtD i → x = chr '-' ∨ x = chr 'x' ∨ isDigit x ∨ (97 ≤ x ∧ x ≤ 102) := by
    rintro i rfl
    exact (mem_fmtD hx).imp_right fun h => .inr (.inl h)
  have hhash : ∀ sum, f = hashText sum →
      x = chr '-' ∨ x = chr 'x' ∨ isDigit x ∨ (97 ≤ x ∧ x ≤ 102) := by
    rintro sum rfl
    exact .inr (hashText_hex sum x hx)
  rw [sumFields, mem_cons, mem_cons, mem_cons, mem_cons, mem_cons, mem_cons, mem_singleton] at hf
  rcases hf with h | h | h | h | h | h | h
  · exact hnum _ h
  · exact hnum _ h
  · exact hnum _ h
  · exact hnum _ h
  · exact hhash _ h
  · exact hhash _ h
  · exact hhash _ h

theorem notMem_sumFields {x : UInt8} (hx : x ∈ [0, chr ' ', chr '\n', chr ':'])
    (hf : f ∈ sumFields o) : x ∉ f := fun hmem => by
  have hno : ∀ x ∈ [0, chr ' ', chr '\n', chr ':'],
      ¬ (x = chr '-' ∨ x = chr 'x' ∨ isDigit x ∨ (97 ≤ x ∧ x ≤ 102)) := by decide +kernel
  exact hno x hx (mem_sumFields hf hmem)

theorem notMem_sumOf {x : UInt8} (hx : x ∈ [0, chr ' ', chr '\n']) : x ∉ sumOf o := by
  have hsub : ∀ x ∈ [0, chr ' ', chr '\n'], x ∈ [0, chr ' ', chr '\n', chr ':'] ∧ x ≠ chr ':' := by
    decide +kernel
  exact notMem_intercalate (hsub x hx).2 fun f hf => notMem_sumFields (hsub x hx).1 hf

theorem length_hashText_le (sum : Option Digest) : (hashText sum).length ≤ 64 := by
  cases sum with
  | none => decide
  | some d => exact d.length_le

theorem length_sumOf_lt (o : Observed) : (sumOf o).length < 512 := by
  have hint : ∀ i : Int32, (fmtD i.toInt).length ≤ 11 := fun i => by
    apply length_fmtD_le (by decide)
    have hlt := i.toInt_lt
    have hge := i.le_toInt
    omega
  have hsize : (fmtD (o.data.size.val : ℕ)).length ≤ 20 := by
    apply length_fmtD_le (by decide)
    have hlt := o.data.size.isLt
    omega
  have h1 := hint o.data.perm
  have h2 := hint o.data.uid
  have h3 := hint o.data.gid
  have h4 := length_hashText_le (o.value .md5)
  have h5 := length_hashText_le (o.value .sha1)
  have h6 := length_hashText_le (o.value .sha256)
  rw [sumOf, sumFields]
  simp [intercalate_cons_cons]
  omega

theorem fimSumDataLen_sumOf (o : Observed) : fimSumDataLen (sumOf o) = (sumOf o).length := by
  have htake : (sumOf o).takeWhile (· != chr '\n') = sumOf o := by
    rw [takeWhile_eq_self_iff]
    intro x hx
    rw [bne_iff_ne]
    rintro rfl
    exact notMem_sumOf (by decide) hx
  rw [fimSumDataLen, htake]

theorem isFields_sumFields (o : Observed) : IsFields (sumFields o) where
  ne_nil := cons_ne_nil _ _
  length_le := by
    exact of_decide_eq_true rfl
  notMem_newline f hf := notMem_sumFields (by decide) hf
  notMem_colon i f hf _ := notMem_sumFields (by decide) (mem_of_getElem? hf)

theorem fields_sumOf (o : Observed) : fields (sumOf o) = sumFields o := by
  rw [fields, fimSumDataLen_sumOf, take_length, fimSplitSum, sumOf,
    splitMax_intercalate (isFields_sumFields o).ne_nil (isFields_sumFields o).length_le
      (isFields_sumFields o).notMem_colon]

/-! ## One sum after another -/

theorem keptHash_hashText (x y : Option Digest) :
    keptHash (some (hashText x)) (some (hashText y)) = some (hashText (y.or x)) := by
  cases y with
  | some e => exact keptHash_of_real (fimHashIsPlaceholder_hashText (some e)) _
  | none =>
    cases x with
    | none => exact keptHash_self _
    | some d =>
      exact keptHash_of_placeholder (fimHashIsPlaceholder_hashText none)
        (fimHashIsPlaceholder_hashText (some d))

theorem keptFields_sumFields (b o : Observed) :
    (keptFields (sumFields b) (sumFields o)).1 = sumFields (b.merge o) := by
  apply ext_getElem?
  intro j
  rw [getElem?_keptFields]
  match j with
  | 0 | 1 | 2 | 3 => rfl
  | 4 => exact keptHash_hashText (b.value .md5) (o.value .md5)
  | 5 => exact keptHash_hashText (b.value .sha1) (o.value .sha1)
  | 6 => exact keptHash_hashText (b.value .sha256) (o.value .sha256)
  | j + 7 => rw [if_neg (by omega)]; rfl

/-- `fim_sum_keep_hashes` keeps the values that are missing. -/
theorem fimSumKeepHashes_sumOf {buflen : ℕ} (hlen : 512 ≤ buflen) (b o : Observed) :
    fimSumKeepHashes buflen (sumOf b) (sumOf o) = sumOf (b.merge o) := by
  have hrebuild : rebuild (keptFields (fields (sumOf b)) (fields (sumOf o))).1 (sumOf o) =
      sumOf (b.merge o) := by
    rw [fields_sumOf, fields_sumOf, keptFields_sumFields, rebuild, fimSumDataLen_sumOf,
      drop_length, append_nil, sumOf]
  have hb := length_sumOf_lt b
  have ho := length_sumOf_lt o
  have hmerge := length_sumOf_lt (b.merge o)
  have hacc : Accepts buflen (sumOf b) (sumOf o) := {
    old_len := by
      rw [fimSumDataLen_sumOf]
      omega
    new_len := by
      rw [fimSumDataLen_sumOf]
      omega
    old_fields := by
      rw [fields_sumOf]
      exact of_decide_eq_true rfl
    new_fields := by
      rw [fields_sumOf]
      exact of_decide_eq_true rfl
    kept_len := by
      rw [hrebuild]
      omega }
  rw [fimSumKeepHashes_eq hacc, hrebuild]

theorem fieldDiffers_sumFields (b o : Observed) :
    (∃ i ∈ [0, 1, 2, 3, 7, 8], fieldDiffers (sumFields b) (sumFields o) i = true) ↔
      b.data ≠ o.data := by
  have hfmt : ∀ i j : Int32, (fmtD i.toInt != fmtD j.toInt) = true ↔ i ≠ j := fun i j => by
    rw [bne_iff_ne, ne_eq, fmtD_injective.eq_iff, Int32.toInt_inj]
  have hsize : (fmtD (b.data.size.val : ℕ) != fmtD (o.data.size.val : ℕ)) = true ↔
      b.data.size ≠ o.data.size := by
    rw [bne_iff_ne, ne_eq, fmtD_injective.eq_iff, Int.natCast_inj, Fin.val_inj]
  have hfields : (∃ i ∈ [0, 1, 2, 3, 7, 8], fieldDiffers (sumFields b) (sumFields o) i = true) ↔
      (fmtD (b.data.size.val : ℕ) != fmtD (o.data.size.val : ℕ)) = true ∨
        (fmtD b.data.perm.toInt != fmtD o.data.perm.toInt) = true ∨
          (fmtD b.data.uid.toInt != fmtD o.data.uid.toInt) = true ∨
            (fmtD b.data.gid.toInt != fmtD o.data.gid.toInt) = true := by
    simp [fieldDiffers, sumFields]
  rw [hfields, hsize, hfmt, hfmt, hfmt]
  simp only [ne_eq, Meta.ext_iff, not_and_or]

theorem hashDiffers_sumFields (b o : Observed) :
    (∃ i ∈ [4, 5, 6], hashDiffers (sumFields b) (sumFields o) i = true) ↔
      ∃ a, ∃ x ∈ b.value a, ∃ y ∈ o.value a, x ≠ y := by
  have hhash : ∀ a, (hashText (b.value a) != hashText (o.value a) &&
      !fimHashIsPlaceholder (hashText (b.value a)) &&
        !fimHashIsPlaceholder (hashText (o.value a))) = true ↔
          ∃ x ∈ b.value a, ∃ y ∈ o.value a, x ≠ y := by
    intro a
    rw [fimHashIsPlaceholder_hashText, fimHashIsPlaceholder_hashText, Bool.and_eq_true,
      Bool.and_eq_true, bne_iff_ne, ne_eq, hashText_injective.eq_iff]
    cases b.value a with
    | none => simp
    | some x =>
      cases o.value a with
      | none => simp
      | some y => simp
  constructor
  · rintro ⟨i, hi, h⟩
    rw [mem_cons, mem_cons, mem_singleton] at hi
    rcases hi with rfl | rfl | rfl
    · exact ⟨.md5, (hhash .md5).mp h⟩
    · exact ⟨.sha1, (hhash .sha1).mp h⟩
    · exact ⟨.sha256, (hhash .sha256).mp h⟩
  · rintro ⟨a, h⟩
    cases a with
    | md5 => exact ⟨4, by decide, (hhash .md5).mpr h⟩
    | sha1 => exact ⟨5, by decide, (hhash .sha1).mpr h⟩
    | sha256 => exact ⟨6, by decide, (hhash .sha256).mpr h⟩

theorem hasRealChange_sumOf (b o : Observed) :
    fimSumHasRealChange (sumOf b) (sumOf o) = true ↔ b.Differs o := by
  have hlen : ∀ o, fimSumDataLen (sumOf o) < 1024 := fun o => by
    rw [fimSumDataLen_sumOf]
    exact (length_sumOf_lt o).trans (by decide)
  have hfields : ∀ o, 6 ≤ (fields (sumOf o)).length := fun o => by
    rw [fields_sumOf]
    exact of_decide_eq_true rfl
  rw [hasRealChange_iff (hlen b) (hlen o) (hfields b) (hfields o), fields_sumOf, fields_sumOf,
    fieldDiffers_sumFields, hashDiffers_sumFields]
  rfl

/-! ## Entries -/

/-- The entry for a baseline -/
def entryOf (opts : Opts) (o : Observed) : Bytes := flags opts ++ sumOf o

theorem exists_cons_sumOf (o : Observed) :
    ∃ d e rest, isDigit d ∧ (isDigit e ∨ e = chr ':') ∧ sumOf o = d :: e :: rest := by
  have hsize : fmtD (o.data.size.val : ℕ) = fmtU o.data.size.val := fmtD_natCast _
  have hdigit : ∀ x ∈ fmtU o.data.size.val, isDigit x := fun _ => isDigit_of_mem_fmtU
  rw [sumOf, sumFields, hsize, intercalate_cons_cons]
  cases hd : fmtU o.data.size.val with
  | nil => exact absurd hd (fmtU_ne_nil _)
  | cons d ds =>
    rw [hd, forall_mem_cons] at hdigit
    cases ds with
    | nil => exact ⟨d, chr ':', _, hdigit.1, .inr rfl, rfl⟩
    | cons e ds => exact ⟨d, e, _, hdigit.1, .inl (hdigit.2 e mem_cons_self), rfl⟩

theorem flag_sign (check : Bool) : (flag check == chr '+' || flag check == chr '-') = true := by
  cases check <;> rfl

theorem fimSumDataOffset_entryOf (opts : Opts) (o : Observed) :
    fimSumDataOffset (entryOf opts o) = 7 := by
  obtain ⟨d, e, rest, hd, he, hsum⟩ := exists_cons_sumOf o
  -- neither the digit behind the flags nor what follows it is a flag
  have hsign : ∀ x, isDigit x ∨ x = chr ':' → (x == chr '+' || x == chr '-') = false := by
    intro x hx
    rw [Bool.or_eq_false_iff, beq_eq_false_iff_ne, beq_eq_false_iff_ne]
    constructor
    · rintro rfl
      exact absurd hx (by decide)
    · rintro rfl
      exact absurd hx (by decide)
  rw [entryOf, hsum, flags, fimSumDataOffset]
  simp [flag_sign, hsign d (.inl hd), hsign e he]

theorem drop_entryOf (opts : Opts) (o : Observed) : (entryOf opts o).drop 7 = sumOf o := rfl

theorem oldChecks_entryOf (opts : Opts) (o : Observed) :
    oldChecks (entryOf opts o) = opts.toChecks := by
  have hflag : ∀ check : Bool, (flag check == chr '+') = check := by decide
  have hsha1 : (sha1s opts == chr '+' || sha1s opts == chr 's') = opts.sha1sum := by
    rw [sha1s]
    cases opts.md5sum <;> cases opts.sha1sum <;> cases opts.sha256sum <;>
      cases opts.seechanges <;> rfl
  have hold : oldChecks (entryOf opts o) =
      { size := flag opts.size == chr '+'
        perm := flag opts.perm == chr '+'
        owner := flag opts.owner == chr '+'
        group := flag opts.group == chr '+'
        md5sum := flag opts.md5sum == chr '+'
        sha1sum := sha1s opts == chr '+' || sha1s opts == chr 's'
        sha256sum := flag opts.sha256sum == chr '+' } := rfl
  rw [hold, hsha1, hflag, hflag, hflag, hflag, hflag, hflag]

theorem count_sumOf (o : Observed) : (sumOf o).count (chr ':') = 6 := by
  have hzero : ∀ f ∈ sumFields o, f.count (chr ':') = 0 := fun f hf =>
    count_eq_zero_of_not_mem (notMem_sumFields (by decide) hf)
  have hsplit : ∀ (f : Bytes) (fs : List Bytes), (∀ g ∈ f :: fs, g.count (chr ':') = 0) →
      ([chr ':'].intercalate (f :: fs)).count (chr ':') = fs.length := by
    intro f fs
    induction fs generalizing f with
    | nil =>
      intro h
      rw [intercalate_singleton]
      exact h f mem_cons_self
    | cons g fs ih =>
      intro h
      rw [forall_mem_cons] at h
      rw [intercalate_cons_cons, count_append, count_append, h.1, ih g h.2]
      exact add_comm _ _
  exact hsplit _ _ hzero

theorem updatedEntry_entryOf (opts : Opts) (b o : Observed) :
    updatedEntry (entryOf opts b) (sumOf o) = entryOf opts o := by
  rw [updatedEntry, fimSumDataOffset_entryOf, fimSumDataLen_sumOf, take_length, count_sumOf]
  rfl

/-! ## A scan -/

/-- What a scan yields: nothing, if the hashes of a file that is known cannot be computed. -/
def observed (opts : Opts) (seen : Option Observed) (s : Scan) : Option Observed :=
  let sums := checksum opts.toChecks s.first
  if sums.isNone && s.holding_baseline then none
  else
    match seen with
    | none => some (observe opts.toChecks s.first.statbuf (sums.getD fun _ => none))
    | some _ =>
      s.again.bind fun r => (checksum opts.toChecks r).map (observe opts.toChecks r.statbuf)

theorem snprintf_sumOf (o : Observed) : snprintf 6144 (sumOf o) = sumOf o := by
  have hlen := length_sumOf_lt o
  exact take_of_length_le (by omega)

theorem snprintf_entryOf (opts : Opts) (o : Observed) :
    snprintf 916 (entryOf opts o) = entryOf opts o := by
  have hlen := length_sumOf_lt o
  refine take_of_length_le ?_
  rw [entryOf, length_append]
  have hflags : (flags opts).length = 7 := rfl
  omega

theorem fimSumEqual_sumOf (b o : Observed) :
    fimSumEqual (sumOf b) (sumOf o) = true ↔ sumOf b = sumOf o := by
  rw [fimSumEqual, fimSumDataLen_sumOf, fimSumDataLen_sumOf, take_length, Bool.and_eq_true,
    beq_iff_eq, beq_iff_eq]
  constructor
  · rintro ⟨hlen, htake⟩
    rw [hlen, take_length] at htake
    exact htake
  · intro h
    rw [h, take_length]
    exact ⟨rfl, rfl⟩

theorem cReadFile_entryOf (opts : Opts) (b : Observed) (r : Option Reading) :
    cReadFile r (entryOf opts b) =
      (r.bind fun r => (checksum opts.toChecks r).map (observe opts.toChecks r.statbuf)).map
        fun o => sumOf (b.merge o) := by
  cases r with
  | none => rfl
  | some r =>
    rw [cReadFile, bind_some, bind_some, oldChecks_entryOf,
      fimSumDataOffset_entryOf, drop_entryOf, Option.map_map]
    refine congrArg (Option.map · (checksum opts.toChecks r)) (funext fun sums => ?_)
    dsimp only [Function.comp_apply]
    rw [sumText_eq, snprintf_sumOf, fimSumKeepHashes_sumOf (by decide), snprintf_sumOf]

theorem readFileAt_of_observed_eq_none {opts : Opts} {seen : Option Observed} {s : Scan}
    (h : observed opts seen s = none) (file_name : Bytes) :
    readFileAt opts file_name (seen.map (entryOf opts)) s = (seen.map (entryOf opts), none) := by
  rw [observed.eq_def] at h
  rw [readFileAt.eq_def]
  dsimp only at h ⊢
  split at h
  case isTrue hhold => rw [if_pos hhold]
  case isFalse hhold =>
    rw [if_neg hhold]
    cases seen with
    | none => exact absurd h (by simp)
    | some b =>
      dsimp only [map_some] at h ⊢
      rw [cReadFile_entryOf, h]
      rfl

theorem changeMsg_eq (file_name buf c_sum : Bytes) (fullalert : Option Bytes) :
    ∃ tail : Bytes, (tail = [] ∨ tail.headD 0 = chr '\n') ∧
      changeMsg file_name buf c_sum fullalert =
        snprintf 6144 (c_sum ++ chr ' ' :: (file_name ++ tail)) := by
  rw [changeMsg]
  generalize (if (buf.drop 5).headD 0 = chr 's' ∨ (buf.drop 5).headD 0 = chr 'n' then fullalert
    else none) = reported
  refine ⟨reported.elim [] (chr '\n' :: ·), ?_, by rw [append_assoc, cons_append]⟩
  cases reported with
  | none => exact .inl rfl
  | some text => exact .inr rfl

/-- The entry follows the baseline, and the messages are the reports that are due. -/
theorem readFileAt_eq {opts : Opts} {seen : Option Observed} {s : Scan}
    (h : observed opts seen s = some o) (file_name : Bytes) :
    ∃ tail : Bytes, (tail = [] ∨ tail.headD 0 = chr '\n') ∧
      readFileAt opts file_name (seen.map (entryOf opts)) s =
        ((next seen o s.sent).map (entryOf opts),
          if Due seen o ∧ s.sent = true then
            (next seen o s.sent).map fun b =>
              snprintf 6144 (sumOf b ++ chr ' ' :: (file_name ++ tail))
          else none) := by
  rw [observed.eq_def] at h
  rw [readFileAt.eq_def]
  dsimp only at h ⊢
  split at h
  case isTrue => exact absurd h (by simp)
  case isFalse hhold =>
    rw [if_neg hhold]
    cases seen with
    | none =>
      cases h
      refine ⟨[], .inl rfl, ?_⟩
      dsimp only [map_none]
      rw [sumText_eq, append_nil]
      have hentry := snprintf_entryOf opts (observe opts.toChecks s.first.statbuf
        ((checksum opts.toChecks s.first).getD fun _ => none))
      rw [entryOf] at hentry
      rw [hentry]
      cases hsent : s.sent with
      | true => rfl
      | false => rfl
    | some b =>
      dsimp only [map_some] at h ⊢
      rw [cReadFile_entryOf, h, map_some, fimSumDataOffset_entryOf, drop_entryOf]
      dsimp only
      have hreal := hasRealChange_sumOf b (b.merge o)
      rw [differs_merge_self_iff] at hreal
      by_cases hdiffers : b.Differs o
      · have hchange := hreal.mpr hdiffers
        have hne : ¬ fimSumEqual (sumOf (b.merge o)) (sumOf b) = true := by
          rw [fimSumEqual_sumOf]
          intro heq
          rw [heq, fimSumHasRealChange, if_pos rfl] at hchange
          exact Bool.false_ne_true hchange
        rw [if_neg hne, if_pos hchange, updatedEntry_entryOf]
        cases hsent : s.sent with
        | false =>
          -- the message is lost, and the entry stays
          refine ⟨[], .inl rfl, ?_⟩
          have hnext : next (some b) o false = some b := if_pos ⟨hdiffers, rfl⟩
          rw [if_neg Bool.false_ne_true, if_neg fun h => Bool.false_ne_true h.2, hnext]
          rfl
        | true =>
          obtain ⟨tail, htail, hmsg⟩ := changeMsg_eq file_name (entryOf opts b) (sumOf (b.merge o))
            s.fullalert
          have hnext : next (some b) o true = some (b.merge o) :=
            if_neg fun h => Bool.false_ne_true h.2.symm
          have hdue : Due (some b) o := hdiffers
          refine ⟨tail, htail, ?_⟩
          rw [if_pos rfl, if_pos ⟨hdue, rfl⟩, hnext, hmsg]
          rfl
      · -- at most new values: nothing is sent
        have hnext : next (some b) o s.sent = some (b.merge o) := if_neg fun h => hdiffers h.1
        have hdue : ¬ (Due (some b) o ∧ s.sent = true) := fun h => hdiffers h.1
        refine ⟨[], .inl rfl, ?_⟩
        rw [if_neg hdue, hnext, if_neg fun h => hdiffers (hreal.mp h), updatedEntry_entryOf]
        split
        case isTrue heq =>
          rw [fimSumEqual_sumOf] at heq
          rw [map_some, entryOf, entryOf, heq]
        case isFalse => rfl

end Syscheckd
