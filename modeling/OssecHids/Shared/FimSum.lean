import OssecHids.Lib.CString
import OssecHids.Lib.Fields

/-!
# Integrity sums

The sums `size:perm:uid:gid:md5:sha1[:sha256[:attrs[:acl]]]` that the agent and the manager store
for a file, and how one follows another.

- `getElem?_fields_keepHashes`: the fields of the sum that is stored;
- `baseline_law`: a hash that cannot be computed for a while is not forgotten.
-/

open CString Fields List Option

namespace FimSum

/-! ## The functions -/

/-- `fim_hash_is_placeholder` -/
def fimHashIsPlaceholder (hash : Bytes) : Bool :=
  hash.isEmpty ||
    (hash.take 3 == lit "xxx" && (hash.length == 3 || (hash.drop 3).headD 0 == chr ':'))

/-- `fim_sum_data_len`: a snapshot may follow behind a newline. -/
def fimSumDataLen (sum : Bytes) : ℕ := (sum.takeWhile (· != chr '\n')).length

/-- `fim_sum_equal` -/
def fimSumEqual (a b : Bytes) : Bool :=
  fimSumDataLen a == fimSumDataLen b && a.take (fimSumDataLen a) == b.take (fimSumDataLen a)

/-- `fim_sum_data_offset`: the flags in front of a sum in the agent's database. -/
def fimSumDataOffset (hash_entry : Bytes) : ℕ :=
  let sign (i : ℕ) : Bool :=
    (hash_entry.drop i).headD 0 == chr '+' || (hash_entry.drop i).headD 0 == chr '-'
  if hash_entry.length < 7 then 6
  else if !sign 6 then 6
  else if 9 ≤ hash_entry.length ∧ sign 8 then 9
  else if 8 ≤ hash_entry.length ∧ sign 7 then 8
  else 7

/-- `fim_split_sum` -/
def fimSplitSum (max_fields : ℕ) (buf : Bytes) : List Bytes := splitMax (chr ':') max_fields buf

/-- The fields of a sum: `memcpy` of its data to a buffer, and `fim_split_sum`. -/
def fields (sum : Bytes) : List Bytes := fimSplitSum 10 (sum.take (fimSumDataLen sum))

/-- `fim_sum_get_field`; `none` is the result `-1`. -/
def fimSumGetField (sum : Bytes) (index buflen : ℕ) : Option Bytes :=
  if buflen = 0 ∨ fimSumDataLen sum = 0 ∨ 1024 ≤ fimSumDataLen sum then none
  else (fields sum)[index]?.filter fun f => f.length < buflen

/-- Both sums have a field, and not the same. -/
def fieldDiffers (old new : List Bytes) (i : ℕ) : Bool :=
  match old[i]?, new[i]? with
  | some o, some h => o != h
  | _, _ => false

/-- Both sums have a hash, and not the same. -/
def hashDiffers (old new : List Bytes) (i : ℕ) : Bool :=
  match old[i]?, new[i]? with
  | some o, some h => o != h && !fimHashIsPlaceholder o && !fimHashIsPlaceholder h
  | _, _ => false

/-- `fim_sum_has_real_change` -/
def fimSumHasRealChange (old_sum new_sum : Bytes) : Bool :=
  if old_sum = new_sum then false
  else if 1024 ≤ fimSumDataLen old_sum ∨ 1024 ≤ fimSumDataLen new_sum then true
  else if old_sum.take (fimSumDataLen old_sum) = new_sum.take (fimSumDataLen new_sum) then false
  else
    let old := fields old_sum
    let new := fields new_sum
    if old.length < 6 ∨ new.length < 6 then true
    else
      -- size, perm, uid, gid; then md5, sha1, sha256; then attrs and acl
      [0, 1, 2, 3].any (fieldDiffers old new) || [4, 5, 6].any (hashDiffers old new) ||
        [7, 8].any (fieldDiffers old new)

/-- What the loop of `fim_sum_keep_hashes` does with one of the hashes. -/
def keepHash (old : List Bytes) (state : List Bytes × Bool) (i : ℕ) : List Bytes × Bool :=
  match old[i]?, state.1[i]? with
  | some o, some h =>
    if fimHashIsPlaceholder h ∧ ¬ fimHashIsPlaceholder o then (state.1.set i o, true) else state
  | _, _ => state

/-- The fields after that loop, and whether one of them was kept. -/
def keptFields (old new : List Bytes) : List Bytes × Bool :=
  [4, 5, 6].foldl (keepHash old) (new, false)

/-- `snprintf(buf + used, buflen - used, "%s", s)`; there is no buffer after it was too short. -/
def snprintfAt (buflen : ℕ) (buf : Option Bytes) (s : Bytes) : Option Bytes :=
  buf.bind fun b => if buflen - b.length ≤ s.length then none else some (b ++ s)

/-- `fim_sum_keep_hashes` -/
def fimSumKeepHashes (buflen : ℕ) (old_sum new_sum : Bytes) : Bytes :=
  if 1024 ≤ fimSumDataLen old_sum ∨ 1024 ≤ fimSumDataLen new_sum then new_sum
  else
    let old := fields old_sum
    let new := fields new_sum
    if old.length < 6 ∨ new.length < 6 then new_sum
    else
      let (new, kept) := keptFields old new
      if !kept then new_sum
      else
        let pieces := new.mapIdx fun i h => if 0 < i then chr ':' :: h else h
        match (pieces ++ [new_sum.drop (fimSumDataLen new_sum)]).foldl (snprintfAt buflen)
            (some []) with
        | some buf => buf
        | none => new_sum

/-! ## The data of a sum -/

variable {s t b : Bytes} {f h : Bytes} {fs old new : List Bytes} {i j : ℕ}

theorem take_fimSumDataLen (s : Bytes) :
    s.take (fimSumDataLen s) = s.takeWhile (· != chr '\n') :=
  prefix_iff_eq_take.mp (List.takeWhile_prefix _) |>.symm

theorem drop_fimSumDataLen (s : Bytes) :
    s.drop (fimSumDataLen s) = s.dropWhile (· != chr '\n') := by
  have h := take_append_drop (fimSumDataLen s) s
  rw [take_fimSumDataLen] at h
  exact append_cancel_left (h.trans takeWhile_append_dropWhile.symm)

theorem takeWhile_dropWhile (p : UInt8 → Bool) (s : Bytes) :
    (s.dropWhile p).takeWhile p = [] := by
  induction s with
  | nil => rfl
  | cons b s ih =>
    rw [dropWhile_cons]
    split
    case isTrue => exact ih
    case isFalse hb => rw [takeWhile_cons_of_neg hb]

/-- Data without newlines is found again in front of what has followed a sum. -/
theorem takeWhile_append_drop (hf : chr '\n' ∉ f) (s : Bytes) :
    (f ++ s.drop (fimSumDataLen s)).takeWhile (· != chr '\n') = f := by
  have hpos : ∀ b ∈ f, (b != chr '\n') = true := fun b hb => by
    rw [bne_iff_ne]
    rintro rfl
    exact hf hb
  rw [drop_fimSumDataLen, takeWhile_append_of_pos hpos, takeWhile_dropWhile, append_nil]

theorem notMem_of_mem_fields (h : f ∈ fields s) : chr '\n' ∉ f := by
  intro hmem
  rw [fields, take_fimSumDataLen] at h
  exact absurd (mem_takeWhile_imp (subset_of_mem_splitMax h hmem)) (by decide)

theorem length_fields_le (s : Bytes) : (fields s).length ≤ 10 := length_splitMax_le _ _ _

/-- The sum that consists of some fields and what follows the data of another one. -/
def rebuild (fs : List Bytes) (s : Bytes) : Bytes :=
  [chr ':'].intercalate fs ++ s.drop (fimSumDataLen s)

theorem rebuild_fields (s : Bytes) : rebuild (fields s) s = s := by
  rw [rebuild, fields, fimSplitSum, intercalate_splitMax, take_append_drop]

/-- What can be the fields of a sum. -/
structure IsFields (fs : List Bytes) : Prop where
  ne_nil : fs ≠ []
  length_le : fs.length ≤ 10
  notMem_newline : ∀ f ∈ fs, chr '\n' ∉ f
  notMem_colon : ∀ i f, fs[i]? = some f → i < 9 → chr ':' ∉ f

theorem isFields_fields (s : Bytes) : IsFields (fields s) where
  ne_nil := splitMax_ne_nil _ _ _
  length_le := length_fields_le s
  notMem_newline _ := notMem_of_mem_fields
  notMem_colon _ _ h hi := notMem_of_getElem?_splitMax h hi

theorem IsFields.take_rebuild (hfs : IsFields fs) (s : Bytes) :
    (rebuild fs s).take (fimSumDataLen (rebuild fs s)) = [chr ':'].intercalate fs := by
  have hn : chr '\n' ∉ [chr ':'].intercalate fs :=
    notMem_intercalate (by decide) hfs.notMem_newline
  rw [take_fimSumDataLen, rebuild, takeWhile_append_drop hn]

theorem IsFields.fields_rebuild (hfs : IsFields fs) (s : Bytes) : fields (rebuild fs s) = fs := by
  rw [fields, hfs.take_rebuild, fimSplitSum,
    splitMax_intercalate hfs.ne_nil hfs.length_le hfs.notMem_colon]

/-! ## Keeping hashes -/

/-- The field that is stored for a hash: an old hash is kept for a placeholder. -/
def keptHash (o h : Option Bytes) : Option Bytes :=
  h.map fun h =>
    match o with
    | some o => if fimHashIsPlaceholder h ∧ ¬ fimHashIsPlaceholder o then o else h
    | none => h

theorem getElem?_keepHash (state : List Bytes × Bool) (i j : ℕ) :
    (keepHash old state i).1[j]? =
      if j = i then keptHash old[i]? state.1[i]? else state.1[j]? := by
  rw [keepHash]
  split
  case h_1 o h ho hh =>
    rw [ho, hh, keptHash, map_some]
    split
    case isTrue hkeep =>
      have hlt : i < state.1.length := (List.getElem?_eq_some_iff.mp hh).1
      by_cases hj : j = i
      · rw [if_pos hj, hj, getElem?_set_self hlt]
        exact congrArg some (if_pos hkeep).symm
      · rw [if_neg hj, getElem?_set_ne (Ne.symm hj)]
    case isFalse hkeep =>
      by_cases hj : j = i
      · rw [if_pos hj, hj, hh]
        exact congrArg some (if_neg hkeep).symm
      · rw [if_neg hj]
  case h_2 hnone =>
    by_cases hj : j = i
    · rw [if_pos hj, hj]
      cases hh : state.1[i]? with
      | none => rfl
      | some h =>
        cases ho : old[i]? with
        | none => rfl
        | some o => exact absurd hh (hnone o h ho)
    · rw [if_neg hj]

/-- The hashes are at three places, and each of them is looked at once. -/
theorem getElem?_keptFields (old new : List Bytes) (j : ℕ) :
    (keptFields old new).1[j]? =
      if 4 ≤ j ∧ j < 7 then keptHash old[j]? new[j]? else new[j]? := by
  rw [keptFields, foldl_cons, foldl_cons, foldl_cons, foldl_nil,
    getElem?_keepHash, getElem?_keepHash, getElem?_keepHash, getElem?_keepHash, getElem?_keepHash,
    getElem?_keepHash, getElem?_keepHash]
  by_cases h4 : j = 4
  · subst h4
    rfl
  · by_cases h5 : j = 5
    · subst h5
      rfl
    · by_cases h6 : j = 6
      · subst h6
        rfl
      · rw [if_neg h6, if_neg h5, if_neg h4, if_neg (by omega)]

theorem length_keptFields (old new : List Bytes) : (keptFields old new).1.length = new.length := by
  have hstep : ∀ state i, (keepHash old state i).1.length = state.1.length := fun state i => by
    rw [keepHash]
    split
    · split
      · exact length_set
      · rfl
    · rfl
  rw [keptFields, foldl_cons, foldl_cons, foldl_cons, foldl_nil, hstep, hstep, hstep]

/-- Nothing was kept if the flag is not set. -/
theorem keptFields_of_not_kept (h : (keptFields old new).2 = false) :
    (keptFields old new).1 = new := by
  have hstep : ∀ state i, (keepHash old state i).2 = false → keepHash old state i = state := by
    intro state i hfalse
    rw [keepHash] at hfalse ⊢
    split
    · split
      case isTrue hkeep => simp_all
      case isFalse => rfl
    · rfl
  rw [keptFields, foldl_cons, foldl_cons, foldl_cons, foldl_nil] at h ⊢
  have h6 := hstep _ 6 h
  rw [h6] at h ⊢
  have h5 := hstep _ 5 h
  rw [h5] at h ⊢
  rw [hstep _ 4 h]

theorem getElem?_keptFields_imp (hf : (keptFields old new).1[i]? = some f) :
    old[i]? = some f ∨ new[i]? = some f := by
  rw [getElem?_keptFields] at hf
  split at hf
  case isFalse => exact .inr hf
  case isTrue =>
    obtain ⟨h, hh, rfl⟩ := map_eq_some_iff.mp hf
    cases ho : old[i]? with
    | none => exact .inr hh
    | some o =>
      dsimp only
      split
      · exact .inl rfl
      · exact .inr hh

theorem isFields_keptFields (hold : IsFields old) (hnew : IsFields new) :
    IsFields (keptFields old new).1 := by
  refine ⟨?_, ?_, ?_, ?_⟩
  · rw [← length_pos_iff, length_keptFields, length_pos_iff]
    exact hnew.ne_nil
  · rw [length_keptFields]
    exact hnew.length_le
  · intro f hf
    obtain ⟨i, hi⟩ := mem_iff_getElem?.mp hf
    rcases getElem?_keptFields_imp hi with h | h
    · exact hold.notMem_newline f (mem_of_getElem? h)
    · exact hnew.notMem_newline f (mem_of_getElem? h)
  · intro i f hf hi
    rcases getElem?_keptFields_imp hf with h | h
    · exact hold.notMem_colon i f h hi
    · exact hnew.notMem_colon i f h hi

/-! ## The stored sum -/

theorem foldl_snprintfAt_none (buflen : ℕ) (pieces : List Bytes) :
    pieces.foldl (snprintfAt buflen) none = none := by
  induction pieces with
  | nil => rfl
  | cons _ _ ih => exact ih

/-- Printing piece by piece fails just if all of it does not fit. -/
theorem foldl_snprintfAt {buflen : ℕ} (pieces : List Bytes) (hb : b.length < buflen) :
    pieces.foldl (snprintfAt buflen) (some b) =
      if (b ++ pieces.flatten).length < buflen then some (b ++ pieces.flatten) else none := by
  induction pieces generalizing b with
  | nil => rw [foldl_nil, flatten_nil, append_nil, if_pos hb]
  | cons s pieces ih =>
    have hsnprintf : snprintfAt buflen (some b) s =
        if buflen - b.length ≤ s.length then none else some (b ++ s) := rfl
    rw [foldl_cons, flatten_cons, ← append_assoc, hsnprintf]
    split
    case isTrue hlong =>
      rw [foldl_snprintfAt_none, if_neg]
      rw [length_append, length_append]
      omega
    case isFalse hshort =>
      apply ih
      rw [length_append]
      omega

theorem flatten_pieces (c : UInt8) (fs : List Bytes) :
    (fs.mapIdx fun i h => if 0 < i then c :: h else h).flatten = [c].intercalate fs := by
  cases fs with
  | nil => rfl
  | cons f fs =>
    rw [mapIdx_cons, flatten_cons]
    have hrest : ∀ fs : List Bytes,
        f ++ (fs.mapIdx fun i h => if 0 < i + 1 then c :: h else h).flatten =
          [c].intercalate (f :: fs) := by
      intro fs
      induction fs generalizing f with
      | nil => simp
      | cons g fs ih =>
        rw [mapIdx_cons, flatten_cons, intercalate_cons_cons, ← ih g]
        simp
    exact hrest fs

/-- The sizes that a sum, the sum stored before it and the sum stored then may have. -/
structure Accepts (buflen : ℕ) (old_sum new_sum : Bytes) : Prop where
  old_len : fimSumDataLen old_sum < 1024
  new_len : fimSumDataLen new_sum < 1024
  old_fields : 6 ≤ (fields old_sum).length
  new_fields : 6 ≤ (fields new_sum).length
  kept_len : (rebuild (keptFields (fields old_sum) (fields new_sum)).1 new_sum).length < buflen

instance (buflen : ℕ) (b s : Bytes) : Decidable (Accepts buflen b s) :=
  decidable_of_iff
    ((fimSumDataLen b < 1024 ∧ fimSumDataLen s < 1024) ∧ 6 ≤ (fields b).length ∧
      6 ≤ (fields s).length ∧ (rebuild (keptFields (fields b) (fields s)).1 s).length < buflen)
    ⟨fun h => ⟨h.1.1, h.1.2, h.2.1, h.2.2.1, h.2.2.2⟩,
      fun h => ⟨⟨h.old_len, h.new_len⟩, h.old_fields, h.new_fields, h.kept_len⟩⟩

variable {buflen : ℕ}

/-- The new sum is stored with the hashes that are kept. -/
theorem fimSumKeepHashes_eq (h : Accepts buflen b s) :
    fimSumKeepHashes buflen b s = rebuild (keptFields (fields b) (fields s)).1 s := by
  have hpos : ([] : Bytes).length < buflen := (Nat.zero_le _).trans_lt h.kept_len
  rw [fimSumKeepHashes, if_neg (by have := h.old_len; have := h.new_len; omega)]
  dsimp only
  rw [if_neg (by have := h.old_fields; have := h.new_fields; omega)]
  split
  case isTrue hkept =>
    rw [keptFields_of_not_kept (by simpa using hkept), rebuild_fields]
  case isFalse =>
    have hprinted : (((keptFields (fields b) (fields s)).1.mapIdx fun i h =>
        if 0 < i then chr ':' :: h else h) ++ [s.drop (fimSumDataLen s)]).flatten =
          rebuild (keptFields (fields b) (fields s)).1 s := by
      rw [flatten_append, flatten_pieces, flatten_singleton, rebuild]
    rw [foldl_snprintfAt _ hpos, hprinted, nil_append, if_pos h.kept_len]

/-- Where a size is exceeded, or nothing is kept, the new sum is stored as it is. -/
theorem accepts_of_keepHashes_ne (h : fimSumKeepHashes buflen b s ≠ s) : Accepts buflen b s := by
  rw [fimSumKeepHashes] at h
  split at h
  · exact absurd rfl h
  case isFalse hlen =>
    dsimp only at h
    split at h
    · exact absurd rfl h
    case isFalse hfields =>
      split at h
      · exact absurd rfl h
      · refine ⟨by omega, by omega, by omega, by omega, ?_⟩
        by_contra hlong
        apply h
        have hnone : (((keptFields (fields b) (fields s)).1.mapIdx fun i h =>
            if 0 < i then chr ':' :: h else h) ++ [s.drop (fimSumDataLen s)]).foldl
              (snprintfAt buflen) (some []) = none := by
          rcases Nat.eq_zero_or_pos buflen with rfl | hpos
          · -- no byte can be printed
            have hfirst : ∀ piece : Bytes, snprintfAt 0 (some []) piece = none := fun piece => by
              rw [snprintfAt, bind_some]
              exact if_pos (Nat.zero_le _)
            cases (keptFields (fields b) (fields s)).1.mapIdx fun i h =>
                if 0 < i then chr ':' :: h else h with
            | nil => exact hfirst (s.drop (fimSumDataLen s))
            | cons piece pieces =>
              rw [cons_append, foldl_cons, hfirst, foldl_snprintfAt_none]
          · have hb : ([] : Bytes).length < buflen := hpos
            rw [foldl_snprintfAt _ hb, if_neg]
            rw [flatten_append, flatten_pieces, flatten_singleton]
            exact hlong
        rw [hnone]

theorem getElem?_fields_keepHashes (h : Accepts buflen b s) (j : ℕ) :
    (fields (fimSumKeepHashes buflen b s))[j]? =
      if 4 ≤ j ∧ j < 7 then keptHash (fields b)[j]? (fields s)[j]? else (fields s)[j]? := by
  rw [fimSumKeepHashes_eq h,
    (isFields_keptFields (isFields_fields b) (isFields_fields s)).fields_rebuild,
    getElem?_keptFields]

theorem length_fields_keepHashes (h : Accepts buflen b s) :
    (fields (fimSumKeepHashes buflen b s)).length = (fields s).length := by
  rw [fimSumKeepHashes_eq h,
    (isFields_keptFields (isFields_fields b) (isFields_fields s)).fields_rebuild, length_keptFields]

/-- No byte is made up for the stored sum but separators. -/
theorem mem_fimSumKeepHashes {x : UInt8} (hx : x ∈ fimSumKeepHashes buflen b s) :
    x ∈ b ∨ x ∈ s ∨ x = chr ':' := by
  by_cases hnew : fimSumKeepHashes buflen b s = s
  · rw [hnew] at hx
    exact .inr (.inl hx)
  · by_contra hno
    rw [not_or, not_or] at hno
    have hfield : ∀ (t f : Bytes), f ∈ fields t → x ∉ t → x ∉ f := fun t f hf ht hmem =>
      ht (mem_of_mem_take (subset_of_mem_splitMax hf hmem))
    rw [fimSumKeepHashes_eq (accepts_of_keepHashes_ne hnew), rebuild, mem_append] at hx
    rcases hx with hx | hx
    · refine notMem_intercalate hno.2.2 (fun f hf => ?_) hx
      obtain ⟨i, hi⟩ := mem_iff_getElem?.mp hf
      rcases getElem?_keptFields_imp hi with h | h
      · exact hfield b f (mem_of_getElem? h) hno.1
      · exact hfield s f (mem_of_getElem? h) hno.2.1
    · exact hno.2.1 (mem_of_mem_drop hx)

theorem fimSumKeepHashes_ne_nil (hs : s ≠ []) : fimSumKeepHashes buflen b s ≠ [] := by
  intro hnil
  have hne : fimSumKeepHashes buflen b s ≠ s := fun h => hs (h.symm.trans hnil)
  have hlen := length_fields_keepHashes (accepts_of_keepHashes_ne hne)
  rw [hnil] at hlen
  have hsix := (accepts_of_keepHashes_ne hne).new_fields
  have hone : (fields []).length = 1 := rfl
  omega

/-! ## The baseline -/

/-- A hash of a sum. -/
def hashAt (sum : Bytes) (i : ℕ) : Option Bytes :=
  if 4 ≤ i ∧ i < 7 then (fields sum)[i]? else none

theorem keptHash_of_real (hh : fimHashIsPlaceholder h = false) (o : Option Bytes) :
    keptHash o (some h) = some h := by
  cases o with
  | none => rfl
  | some o => exact congrArg some (if_neg (by simp [hh]))

theorem keptHash_of_placeholder {o : Bytes} (hh : fimHashIsPlaceholder h = true)
    (ho : fimHashIsPlaceholder o = false) : keptHash (some o) (some h) = some o :=
  congrArg some (if_pos (by simp [hh, ho]))

theorem keptHash_self (h : Option Bytes) : keptHash h h = h := by
  cases h with
  | none => rfl
  | some h => exact congrArg some (ite_self h)

theorem keptHash_idem (o h : Option Bytes) : keptHash (keptHash o h) h = keptHash o h := by
  cases h with
  | none => rfl
  | some h =>
    cases o with
    | none => exact keptHash_self (some h)
    | some o =>
      by_cases hkeep : fimHashIsPlaceholder h = true ∧ ¬ fimHashIsPlaceholder o = true
      · have hkept : keptHash (some o) (some h) = some o := congrArg some (if_pos hkeep)
        rw [hkept, hkept]
      · have hnew : keptHash (some o) (some h) = some h := congrArg some (if_neg hkeep)
        rw [hnew, keptHash_self]

/-- A new sum that was stored stays as it is when it is scanned again. -/
theorem fimSumKeepHashes_idem (hlen : fimSumDataLen (fimSumKeepHashes buflen b s) < 1024) :
    fimSumKeepHashes buflen (fimSumKeepHashes buflen b s) s = fimSumKeepHashes buflen b s := by
  by_cases hnew : fimSumKeepHashes buflen b s = s
  · rw [hnew]
    by_contra hne
    have hself : (keptFields (fields s) (fields s)).1 = fields s := by
      apply ext_getElem?
      intro j
      rw [getElem?_keptFields, keptHash_self, ite_self]
    apply hne
    rw [fimSumKeepHashes_eq (accepts_of_keepHashes_ne hne), hself, rebuild_fields]
  · have hacc := accepts_of_keepHashes_ne hnew
    have hget := getElem?_fields_keepHashes hacc
    have hkept : (keptFields (fields (fimSumKeepHashes buflen b s)) (fields s)).1 =
        (keptFields (fields b) (fields s)).1 := by
      apply ext_getElem?
      intro j
      rw [getElem?_keptFields, getElem?_keptFields, hget]
      split
      · exact keptHash_idem _ _
      · rfl
    have hacc' : Accepts buflen (fimSumKeepHashes buflen b s) s := {
      old_len := hlen
      new_len := hacc.new_len
      old_fields := by
        rw [length_fields_keepHashes hacc]
        exact hacc.new_fields
      new_fields := hacc.new_fields
      kept_len := by
        rw [hkept]
        exact hacc.kept_len }
    rw [fimSumKeepHashes_eq hacc', hkept, fimSumKeepHashes_eq hacc]

theorem hashDiffers_eq_true {o : Bytes} (ho : old[i]? = some o) (hh : new[i]? = some h)
    (ho_real : fimHashIsPlaceholder o = false) (hh_real : fimHashIsPlaceholder h = false)
    (hne : o ≠ h) : hashDiffers old new i = true := by
  rw [hashDiffers, ho, hh]
  simp [ho_real, hh_real, hne]

theorem exists_of_fieldDiffers (h : fieldDiffers old new i = true) :
    ∃ o ∈ old[i]?, ∃ g ∈ new[i]?, o ≠ g := by
  rw [fieldDiffers] at h
  split at h
  case h_1 o g ho hg => exact ⟨o, ho, g, hg, by simpa using h⟩
  case h_2 => cases h

theorem exists_of_hashDiffers (h : hashDiffers old new i = true) :
    ∃ o ∈ old[i]?, ∃ g ∈ new[i]?, o ≠ g ∧ fimHashIsPlaceholder o = false ∧
      fimHashIsPlaceholder g = false := by
  rw [hashDiffers] at h
  split at h
  case h_1 o g ho hg =>
    rw [Bool.and_eq_true, Bool.and_eq_true, bne_iff_ne, Bool.not_eq_true', Bool.not_eq_true'] at h
    exact ⟨o, ho, g, hg, h.1.1, h.1.2, h.2⟩
  case h_2 => cases h

/-- A real change is one of the metadata, or of a real hash. -/
theorem hasRealChange_iff (hs : fimSumDataLen s < 1024) (ht : fimSumDataLen t < 1024)
    (hs6 : 6 ≤ (fields s).length) (ht6 : 6 ≤ (fields t).length) :
    fimSumHasRealChange s t = true ↔
      (∃ i ∈ [0, 1, 2, 3, 7, 8], fieldDiffers (fields s) (fields t) i = true) ∨
        ∃ i ∈ [4, 5, 6], hashDiffers (fields s) (fields t) i = true := by
  -- sums with the same fields are no change
  have hsame : fields s = fields t → ¬ ((∃ i ∈ [0, 1, 2, 3, 7, 8],
      fieldDiffers (fields s) (fields t) i = true) ∨
        ∃ i ∈ [4, 5, 6], hashDiffers (fields s) (fields t) i = true) := by
    rintro heq (⟨i, -, hi⟩ | ⟨i, -, hi⟩)
    · obtain ⟨o, ho, g, hg, hne⟩ := exists_of_fieldDiffers hi
      rw [heq] at ho
      exact hne (some.inj (ho.symm.trans hg))
    · obtain ⟨o, ho, g, hg, hne, -⟩ := exists_of_hashDiffers hi
      rw [heq] at ho
      exact hne (some.inj (ho.symm.trans hg))
  rw [fimSumHasRealChange]
  split
  case isTrue heq => exact iff_of_false Bool.false_ne_true (hsame (congrArg fields heq))
  case isFalse =>
    rw [if_neg (by omega)]
    split
    case isTrue heq =>
      exact iff_of_false Bool.false_ne_true (hsame (congrArg (fimSplitSum 10) heq))
    case isFalse =>
      rw [if_neg (by omega), Bool.or_eq_true, Bool.or_eq_true, List.any_eq_true, List.any_eq_true,
        List.any_eq_true]
      constructor
      · rintro ((⟨i, hi, h⟩ | ⟨i, hi, h⟩) | ⟨i, hi, h⟩)
        · exact .inl ⟨i, by simp at hi ⊢; omega, h⟩
        · exact .inr ⟨i, hi, h⟩
        · exact .inl ⟨i, by simp at hi ⊢; omega, h⟩
      · rintro (⟨i, hi, h⟩ | ⟨i, hi, h⟩)
        · by_cases hi4 : i < 4
          · exact .inl (.inl ⟨i, by simp at hi ⊢; omega, h⟩)
          · exact .inr ⟨i, by simp at hi ⊢; omega, h⟩
        · exact .inl (.inr ⟨i, hi, h⟩)

/-- A real hash that is not the stored one is a change. -/
theorem hasRealChange_of_hashDiffers (hi : 4 ≤ i ∧ i < 7)
    (h : hashDiffers (fields s) (fields t) i = true) : fimSumHasRealChange s t = true := by
  have hmem : i ∈ [4, 5, 6] := by
    simp only [mem_cons, not_mem_nil, or_false]
    omega
  by_cases hlen : 1024 ≤ fimSumDataLen s ∨ 1024 ≤ fimSumDataLen t ∨ (fields s).length < 6 ∨
      (fields t).length < 6
  · -- sums like these are taken to differ, unless they are the same
    have hne : fields s ≠ fields t := fun heq => by
      obtain ⟨o, ho, g, hg, hne, -⟩ := exists_of_hashDiffers h
      rw [heq] at ho
      exact hne (some.inj (ho.symm.trans hg))
    rw [fimSumHasRealChange, if_neg fun heq => hne (congrArg fields heq)]
    split
    · rfl
    · rw [if_neg fun heq => hne (congrArg (fimSplitSum 10) heq)]
      exact if_pos (by omega)
  · exact (hasRealChange_iff (by omega) (by omega) (by omega) (by omega)).mpr (.inr ⟨i, hmem, h⟩)

theorem hasRealChange_eq_false (hs : fimSumDataLen s < 1024) (ht : fimSumDataLen t < 1024)
    (hs6 : 6 ≤ (fields s).length) (ht6 : 6 ≤ (fields t).length)
    (hfield : ∀ i ∈ [0, 1, 2, 3, 7, 8], fieldDiffers (fields s) (fields t) i = false)
    (hhash : ∀ i ∈ [4, 5, 6], hashDiffers (fields s) (fields t) i = false) :
    fimSumHasRealChange s t = false := by
  rw [Bool.eq_false_iff, Ne, hasRealChange_iff hs ht hs6 ht6]
  rintro (⟨i, hi, h⟩ | ⟨i, hi, h⟩)
  · rw [hfield i hi] at h
    exact Bool.false_ne_true h
  · rw [hhash i hi] at h
    exact Bool.false_ne_true h

/-! ## Sequences of scans -/

/-- The stored sum after some scans. -/
def baseline (buflen : ℕ) (b : Bytes) (scans : List Bytes) : Bytes :=
  scans.foldl (fimSumKeepHashes buflen) b

/-- All sums along the way have sizes that are accepted. -/
def AcceptsAll (buflen : ℕ) : Bytes → List Bytes → Prop
  | _, [] => True
  | b, s :: scans =>
    Accepts buflen b s ∧ fimSumDataLen (fimSumKeepHashes buflen b s) < 1024 ∧
      AcceptsAll buflen (fimSumKeepHashes buflen b s) scans

instance decidableAcceptsAll (buflen : ℕ) : ∀ b scans, Decidable (AcceptsAll buflen b scans)
  | _, [] => .isTrue trivial
  | b, s :: scans =>
    have := decidableAcceptsAll buflen (fimSumKeepHashes buflen b s) scans
    inferInstanceAs (Decidable (_ ∧ _ ∧ _))

/-- A scan that has a placeholder for the hash at a place. -/
def Lacks (i : ℕ) (s : Bytes) : Prop := ∃ h ∈ hashAt s i, fimHashIsPlaceholder h = true

instance (i : ℕ) (s : Bytes) : Decidable (Lacks i s) :=
  inferInstanceAs (Decidable (∃ h ∈ hashAt s i, _))

/-- A scan that differs from a baseline at most by placeholders for hashes. -/
def OnlyPlaceholders (b s : Bytes) : Prop :=
  (fields s).length = (fields b).length ∧ ∀ j < (fields b).length,
    (fields s)[j]? = (fields b)[j]? ∨ 4 ≤ j ∧ j < 7 ∧ Lacks j s

instance (b s : Bytes) : Decidable (OnlyPlaceholders b s) :=
  inferInstanceAs (Decidable (_ ∧ ∀ j < _, _))

variable {x y : Bytes} {scans : List Bytes}

theorem hashAt_eq_some (h : hashAt s i = some x) : (4 ≤ i ∧ i < 7) ∧ (fields s)[i]? = some x := by
  rw [hashAt] at h
  split at h
  · exact ⟨‹_›, h⟩
  · cases h

theorem onlyPlaceholders_iff : OnlyPlaceholders b s ↔
    (fields s).length = (fields b).length ∧
      ∀ (j : ℕ) (f g : Bytes), (fields b)[j]? = some f → (fields s)[j]? = some g →
        g = f ∨ (4 ≤ j ∧ j < 7 ∧ fimHashIsPlaceholder g = true) := by
  refine and_congr_right fun hlen => ⟨fun h j f g hf hg => ?_, fun h j hj => ?_⟩
  · rcases h j (List.getElem?_eq_some_iff.mp hf).1 with heq | ⟨h4, h7, g', hg', hplaceholder⟩
    · rw [hf, hg] at heq
      exact .inl (some.inj heq)
    · obtain rfl := some.inj (hg.symm.trans (hashAt_eq_some hg').2)
      exact .inr ⟨h4, h7, hplaceholder⟩
  · have hf := getElem?_eq_getElem hj
    have hg := getElem?_eq_getElem (hlen.symm ▸ hj)
    rcases h j _ _ hf hg with heq | ⟨h4, h7, hplaceholder⟩
    · left
      rw [hf, hg, heq]
    · refine .inr ⟨h4, h7, _, ?_, hplaceholder⟩
      rw [hashAt, if_pos ⟨h4, h7⟩]
      exact hg

theorem hashAt_keepHashes (hacc : Accepts buflen b s) (hx : hashAt b i = some x)
    (hx_real : fimHashIsPlaceholder x = false) (hs : Lacks i s) :
    hashAt (fimSumKeepHashes buflen b s) i = some x := by
  obtain ⟨h, hh, hh_placeholder⟩ := hs
  obtain ⟨hi, hx⟩ := hashAt_eq_some hx
  rw [hashAt, if_pos hi, getElem?_fields_keepHashes hacc, if_pos hi, hx, (hashAt_eq_some hh).2,
    keptHash_of_placeholder hh_placeholder hx_real]

theorem hashAt_baseline (hacc : AcceptsAll buflen b scans) (hx : hashAt b i = some x)
    (hx_real : fimHashIsPlaceholder x = false) (hscans : ∀ s ∈ scans, Lacks i s) :
    hashAt (baseline buflen b scans) i = some x := by
  induction scans generalizing b with
  | nil => exact hx
  | cons s scans ih =>
    rw [forall_mem_cons] at hscans
    exact ih hacc.2.2 (hashAt_keepHashes hacc.1 hx hx_real hscans.1) hscans.2

theorem hashAt_keepHashes_of_real (hy : hashAt s i = some y)
    (hy_real : fimHashIsPlaceholder y = false) :
    hashAt (fimSumKeepHashes buflen b s) i = some y := by
  by_cases hnew : fimSumKeepHashes buflen b s = s
  · rw [hnew, hy]
  · obtain ⟨hi, hy⟩ := hashAt_eq_some hy
    rw [hashAt, if_pos hi, getElem?_fields_keepHashes (accepts_of_keepHashes_ne hnew), if_pos hi,
      hy, keptHash_of_real hy_real]

/-- The change of a hash is seen in the scan and in the sum that is stored for it. -/
theorem hasRealChange_of_hashAt (hx : hashAt b i = some x) (hy : hashAt s i = some y)
    (hx_real : fimHashIsPlaceholder x = false) (hy_real : fimHashIsPlaceholder y = false)
    (hne : x ≠ y) : fimSumHasRealChange b s = true :=
  hasRealChange_of_hashDiffers (hashAt_eq_some hx).1
    (hashDiffers_eq_true (hashAt_eq_some hx).2 (hashAt_eq_some hy).2 hx_real hy_real hne)

/-- Only placeholders are no change. -/
theorem hasRealChange_of_onlyPlaceholders (hs : fimSumDataLen s < 1024)
    (ht : fimSumDataLen t < 1024) (hs6 : 6 ≤ (fields s).length) (h : OnlyPlaceholders s t) :
    fimSumHasRealChange s t = false := by
  obtain ⟨hlen, hfields⟩ := onlyPlaceholders_iff.mp h
  apply hasRealChange_eq_false hs ht hs6 (hlen ▸ hs6)
  · intro i hi
    rw [fieldDiffers]
    split
    case h_1 f g hf hg =>
      rcases hfields i f g hf hg with rfl | ⟨h4, h7, -⟩
      · exact bne_self_eq_false _
      · simp at hi
        omega
    case h_2 => rfl
  · intro i hi
    rw [hashDiffers]
    split
    case h_1 f g hf hg =>
      rcases hfields i f g hf hg with rfl | ⟨-, -, hg⟩
      · rw [bne_self_eq_false, Bool.false_and, Bool.false_and]
      · rw [hg, Bool.not_true, Bool.and_false]
    case h_2 => rfl

/-- What is stored for a scan with only placeholders differs from the baseline at most by
placeholders, and so does every other such scan from it. -/
theorem onlyPlaceholders_keepHashes (hacc : Accepts buflen b s) (hs : OnlyPlaceholders b s) :
    OnlyPlaceholders b (fimSumKeepHashes buflen b s) ∧
      ∀ t, OnlyPlaceholders b t → OnlyPlaceholders (fimSumKeepHashes buflen b s) t := by
  have hs' := onlyPlaceholders_iff.mp hs
  have hkept : ∀ (j : ℕ) (f g : Bytes), (fields b)[j]? = some f →
      (fields (fimSumKeepHashes buflen b s))[j]? = some g →
        g = f ∨ (4 ≤ j ∧ j < 7 ∧ fimHashIsPlaceholder g = true ∧ fimHashIsPlaceholder f = true) := by
    intro j f g hf hg
    rw [getElem?_fields_keepHashes hacc, hf] at hg
    split at hg
    case isTrue hj =>
      obtain ⟨h, hh, rfl⟩ := map_eq_some_iff.mp hg
      dsimp only
      split
      case isTrue => exact .inl rfl
      case isFalse hkeep =>
        rcases hs'.2 j f h hf hh with rfl | ⟨-, -, hplaceholder⟩
        · exact .inl rfl
        · refine .inr ⟨hj.1, hj.2, hplaceholder, ?_⟩
          by_contra hreal
          exact hkeep ⟨hplaceholder, hreal⟩
    case isFalse hj =>
      rcases hs'.2 j f g hf hg with rfl | ⟨h4, h7, -⟩
      · exact .inl rfl
      · exact absurd ⟨h4, h7⟩ hj
  have hlen := (length_fields_keepHashes hacc).trans hs.1
  rw [onlyPlaceholders_iff]
  refine ⟨⟨hlen, fun j f g hf hg => ?_⟩, fun t ht => ?_⟩
  · exact (hkept j f g hf hg).imp_right fun h => ⟨h.1, h.2.1, h.2.2.1⟩
  · rw [onlyPlaceholders_iff] at ht ⊢
    refine ⟨ht.1.trans hlen.symm, fun j f g hf hg => ?_⟩
    have hj : j < (fields b).length := hlen ▸ (List.getElem?_eq_some_iff.mp hf).1
    have hb := getElem?_eq_getElem hj
    rcases hkept j _ f hb hf with rfl | ⟨h4, h7, -, hplaceholder⟩
    · exact ht.2 j _ g hb hg
    · -- the baseline has a placeholder there, and so has the scan
      rcases ht.2 j _ g hb hg with rfl | hg
      · exact .inr ⟨h4, h7, hplaceholder⟩
      · exact .inr hg

/-- No scan with only placeholders is reported, whatever scans of this kind came before it. -/
theorem hasRealChange_baseline (hacc : AcceptsAll buflen b scans)
    (hscans : ∀ s ∈ scans, OnlyPlaceholders b s) {pre post : List Bytes}
    (hsplit : scans = pre ++ s :: post) :
    fimSumHasRealChange (baseline buflen b pre) s = false ∧
      fimSumHasRealChange (baseline buflen b pre)
        (fimSumKeepHashes buflen (baseline buflen b pre) s) = false := by
  induction pre generalizing b scans with
  | nil =>
    subst hsplit
    obtain ⟨hacc, hkept_len, -⟩ := hacc
    have hs := hscans s mem_cons_self
    have hkept := (onlyPlaceholders_keepHashes hacc hs).1
    exact ⟨hasRealChange_of_onlyPlaceholders hacc.old_len hacc.new_len hacc.old_fields hs,
      hasRealChange_of_onlyPlaceholders hacc.old_len hkept_len hacc.old_fields hkept⟩
  | cons r pre ih =>
    subst hsplit
    obtain ⟨hacc, -, hrest⟩ := hacc
    rw [cons_append, forall_mem_cons] at hscans
    have hnext := (onlyPlaceholders_keepHashes hacc hscans.1).2
    exact ih hrest (fun t ht => hnext t (hscans.2 t ht)) rfl

/-- While a hash cannot be computed, the last one is kept: a different one that comes later is a
change, its loss and its return are none, and storing a sum once more changes nothing. -/
theorem baseline_law (buflen : ℕ) :
    (∀ (b : Bytes) (scans : List Bytes) (s : Bytes) (i : ℕ) (x y : Bytes),
      AcceptsAll buflen b scans → hashAt b i = some x → fimHashIsPlaceholder x = false →
      (∀ s ∈ scans, Lacks i s) → hashAt s i = some y → fimHashIsPlaceholder y = false → x ≠ y →
        fimSumHasRealChange (baseline buflen b scans) s = true ∧
        fimSumHasRealChange (baseline buflen b scans)
          (fimSumKeepHashes buflen (baseline buflen b scans) s) = true) ∧
    (∀ (b : Bytes) (scans : List Bytes), AcceptsAll buflen b scans →
      (∀ s ∈ scans, OnlyPlaceholders b s) → ∀ pre s post, scans = pre ++ s :: post →
        fimSumHasRealChange (baseline buflen b pre) s = false ∧
        fimSumHasRealChange (baseline buflen b pre)
          (fimSumKeepHashes buflen (baseline buflen b pre) s) = false) ∧
    ∀ b s : Bytes, fimSumDataLen (fimSumKeepHashes buflen b s) < 1024 →
      fimSumKeepHashes buflen (fimSumKeepHashes buflen b s) s = fimSumKeepHashes buflen b s := by
  refine ⟨?_, ?_, ?_⟩
  · intro b scans s i x y hacc hx hx_real hscans hy hy_real hne
    have hbaseline := hashAt_baseline hacc hx hx_real hscans
    exact ⟨hasRealChange_of_hashAt hbaseline hy hx_real hy_real hne,
      hasRealChange_of_hashAt hbaseline (hashAt_keepHashes_of_real hy hy_real) hx_real hy_real hne⟩
  · intro b scans hacc hscans pre s post hsplit
    exact hasRealChange_baseline hacc hscans hsplit
  · intro b s hlen
    exact fimSumKeepHashes_idem hlen

/-- A hash that changes while another one is missing, and one that is missing twice. -/
theorem baseline_law_two :
    (fimSumHasRealChange (baseline 6145 (lit "1:2:3:4:ab:cd") [lit "1:2:3:4:xxx:ce"])
        (lit "1:2:3:4:ac:ce") = true) ∧
      fimSumHasRealChange (baseline 6145 (lit "1:2:3:4:ab:cd") [lit "1:2:3:4:xxx:cd"])
        (lit "1:2:3:4:xxx:cd") = false ∧
      fimSumKeepHashes 6145 (fimSumKeepHashes 6145 (lit "1:2:3:4:ab:cd") (lit "1:2:3:4:xxx:ce"))
        (lit "1:2:3:4:xxx:ce") = lit "1:2:3:4:ab:ce" := by
  obtain ⟨hchange, hquiet, hidem⟩ := baseline_law 6145
  refine ⟨(hchange _ _ _ 4 (lit "ab") (lit "ac") ?_ ?_ ?_ ?_ ?_ ?_ ?_).1,
    (hquiet _ [lit "1:2:3:4:xxx:cd", lit "1:2:3:4:xxx:cd"] ?_ ?_ [lit "1:2:3:4:xxx:cd"] _ [] rfl).1,
    (hidem _ _ ?_).trans ?_⟩
  · decide +kernel
  · decide +kernel
  · decide +kernel
  · decide +kernel
  · decide +kernel
  · decide +kernel
  · decide +kernel
  · decide +kernel
  · decide +kernel
  · decide +kernel
  · decide +kernel

/-- Nothing but `xxx` and the empty string is a placeholder, and a sum without the field of a hash
does not keep it. -/
theorem baseline_law_err :
    fimSumHasRealChange (lit "1:2:3:4:ab:cd") (lit "1:2:3:4:ERR:cd") = true ∧
      fimSumHasRealChange (baseline 6145 (lit "1:2:3:4:xxx:xxx:ef") [lit "1:2:3:4:xxx:xxx"])
        (lit "1:2:3:4:xxx:xxx:eg") = false := by
  decide +kernel

end FimSum
