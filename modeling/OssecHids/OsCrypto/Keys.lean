import OssecHids.OsCrypto.Replay

/-!
# The keys file

`OS_ReadKeys`: the lines of `client.keys` become the entries of the keystore, which are found
through a hash of their ids and one of their addresses. A process that does not accept the file
ends; that is `none` here.

- `osReadKeys_indexed`: the entry at an index has that index as its `keyid`, its id is an id that
  fits a path, and the hash of the ids finds the first entry with an id.
-/

open CString Rids List Option

/-! ## The lines of the file -/

/-- `OS_BUFFER_SIZE` -/
def OS_BUFFER_SIZE : ℕ := 2048

/-- `KEYSIZE` -/
def KEYSIZE : ℕ := 128

/-- What successive calls of `fgets(buffer, n + 1, fp)` read: the lines with their newlines, in
pieces of at most `n` bytes. -/
def fgetsAll (n : ℕ) : Bytes → Bytes → List Bytes
  | [], [] => []
  | line, [] => [line]
  | line, b :: s =>
    let line := line ++ [b]
    if b = chr '\n' ∨ line.length ≥ n then line :: fgetsAll n [] s else fgetsAll n line s

/-- Cut a string at its first `c`: what is before it and what is behind it. -/
def cutAt (c : UInt8) (s : Bytes) : Option (Bytes × Bytes) :=
  (strchr c s).map fun p => (s.take (ptrDiff p s), p.drop 1)

/-- The fields of a line of `client.keys`. -/
structure KeyLine where
  id : Bytes
  name : Bytes
  ip : Bytes
  key : Bytes
  deriving DecidableEq

/-- The body of the loop of `OS_ReadKeys`: the fields of an active line. -/
def keyLine (buffer : Bytes) : Option KeyLine :=
  if buffer.headD 0 = chr '#' ∨ buffer.headD 0 = chr ' ' then none
  else
    (cutAt (chr ' ') buffer).bind fun (id, tmp_str) =>
    -- a removed entry
    if tmp_str.headD 0 = chr '#' then none
    else
      (cutAt (chr ' ') tmp_str).bind fun (name, tmp_str) =>
      (cutAt (chr ' ') tmp_str).map fun (ip, tmp_str) =>
        let key := ((cutAt (chr '\n') tmp_str).map Prod.fst).getD tmp_str
        { id := strncpy (KEYSIZE - 1) id
          name := strncpy (KEYSIZE - 1) name
          ip := strncpy (KEYSIZE - 1) ip
          key := strncpy (KEYSIZE - 1) key }

/-! ## The entries -/

/-- What the build and the operating system fix for `OS_ReadKeys`. -/
structure KeysEnv where
  /-- `MAX_AGENTS` -/
  max_agents : ℕ
  pass_empty_keyfile : Bool
  /-- The address family `os_pton_sockaddr` finds for a numeric address: `false` is `AF_INET`. -/
  os_pton_sockaddr : Bytes → Option Bool

/-- `OS_IsValidIP`: 0 for an invalid address, 2 for one with a prefix length. -/
def osIsValidIP (env : KeysEnv) (in_address : Bytes) : ℕ :=
  let ip_address := if in_address.headD 0 = chr '!' then in_address.drop 1 else in_address
  let ip_address :=
    if str ip_address = ['a', 'n', 'y'].map chr then [':', ':', '/', '0'].map chr
    else str ip_address
  let (address, cidr) := match cutAt (chr '/') ip_address with
    | none => (ip_address, some (-1))
    | some (address, tmp_str) =>
      (address, if tmp_str.length ≤ 3 then some (atoi tmp_str) else none)
  match cidr, env.os_pton_sockaddr address with
  | some cidr, some inet6 =>
    if cidr > (if inet6 then 128 else 32) then 0 else if cidr ≥ 0 then 2 else 1
  | _, _ => 0

/-- `OSHash_Add`: a key that is there keeps its value. -/
def osHashAdd (hash : List (Bytes × ℕ)) (key : Bytes) (data : ℕ) : List (Bytes × ℕ) :=
  if (hash.lookup key).isSome then hash else (key, data) :: hash

/-- The part of the keystore that `OS_ReadKeys` builds. The hashes hold pointers to entries,
which are their indices here. -/
structure KeyTable where
  keyentries : List KeyEntry
  keyhash_id : List (Bytes × ℕ)
  keyhash_ip : List (Bytes × ℕ)

/-- The symmetric key of an entry: the digest of the key, and half of the digest of the name and
the id. -/
def finalKey (P : Crypto) (l : KeyLine) : Bytes :=
  P.osMD5Bytes l.key ++ (P.osMD5Bytes (P.osMD5Bytes l.name ++ P.osMD5Bytes l.id)).take 15

/-- `__chash`: add the entry of a line. -/
def chash (P : Crypto) (env : KeysEnv) (t : KeyTable) (l : KeyLine) : Option KeyTable :=
  if osIsValidIP env l.ip = 0 then none
  else
    let ip := ((cutAt (chr '/') l.ip).map Prod.fst).getD l.ip
    let e : KeyEntry := {
      rcvd := 0, counter := .zero, keyid := t.keyentries.length, id := l.id
      key := finalKey P l, name := l.name, ip := ip, peer_info := [], fp := none, inode := 0
      crypto_method := .aes }
    some {
      keyentries := t.keyentries ++ [e]
      keyhash_id := osHashAdd t.keyhash_id l.id t.keyentries.length
      keyhash_ip := osHashAdd t.keyhash_ip ip t.keyentries.length }

/-- The loop of `OS_ReadKeys`. -/
def readKeyLines (P : Crypto) (env : KeysEnv) : KeyTable → List Bytes → Option KeyTable
  | t, [] => some t
  | t, buffer :: rest =>
    match keyLine buffer with
    | none => readKeyLines P env t rest
    | some l =>
      (chash P env t l).bind fun t =>
        if t.keyentries.length ≥ env.max_agents - 2 then none else readKeyLines P env t rest

/-- `OS_ReadKeys` on the bytes of the keys file. -/
def osReadKeys (P : Crypto) (env : KeysEnv) (content : Bytes) : Option KeyTable :=
  (readKeyLines P env { keyentries := [], keyhash_id := [], keyhash_ip := [] }
    (fgetsAll (OS_BUFFER_SIZE - 1) [] content)).bind fun t =>
      if t.keyentries.length = 0 ∧ !env.pass_empty_keyfile then none else some t

/-! ## What `OS_ReadKeys` guarantees -/

/-- The indices of a keystore: `keyid` is the index of an entry, its id fits a path, and the hash
of the ids finds the first entry with an id. -/
structure Indexed (es : List KeyEntry) (keyhash_id : List (Bytes × ℕ)) : Prop where
  keyid : es.map KeyEntry.keyid = List.range es.length
  id_le : ∀ id ∈ es.map KeyEntry.id, id.length ≤ KEYSIZE - 1
  lookup : ∀ id, keyhash_id.lookup id = (es.map KeyEntry.id).idxOf? id

theorem Indexed.keyid_eq {es : List KeyEntry} {hash : List (Bytes × ℕ)} (h : Indexed es hash)
    {i : ℕ} {e : KeyEntry} (he : es[i]? = some e) : e.keyid = i := by
  have hget : (es.map KeyEntry.keyid)[i]? = some e.keyid := by
    rw [getElem?_map, he, map_some]
  rw [h.keyid] at hget
  obtain ⟨hlt, hi⟩ := List.getElem?_eq_some_iff.mp hget
  rw [← hi, getElem_range]

/-- An added key is found at the end only when it was not there before. -/
theorem lookup_osHashAdd {hash : List (Bytes × ℕ)} {ids : List Bytes}
    (h : ∀ id, hash.lookup id = ids.idxOf? id) (key id : Bytes) :
    (osHashAdd hash key ids.length).lookup id = (ids ++ [key]).idxOf? id := by
  have happend : (ids ++ [key]).idxOf? id =
      (ids.idxOf? id).or (if key = id then some ids.length else none) := by
    rw [List.idxOf?, findIdx?_append, findIdx?_singleton, ← List.idxOf?]
    split_ifs <;> simp_all
  rw [happend]
  unfold osHashAdd
  split_ifs with hkey hid hid
  · -- the key has a value, so the search stops before the end
    rw [h key] at hkey
    obtain ⟨i, hi⟩ := isSome_iff_exists.mp hkey
    rw [h id, ← hid, hi, some_or]
  · rw [h id, or_none]
  · rw [h key, not_isSome_iff_eq_none] at hkey
    rw [← hid, hkey, lookup_cons_self, none_or]
  · have hne : (id == key) = false := beq_false_of_ne (Ne.symm hid)
    rw [lookup_cons, hne, h id, or_none]

/-- `__chash` keeps the indices. -/
theorem indexed_chash {P : Crypto} {env : KeysEnv} {t t' : KeyTable} {l : KeyLine}
    (ht : Indexed t.keyentries t.keyhash_id) (hl : l.id.length ≤ KEYSIZE - 1)
    (h : chash P env t l = some t') : Indexed t'.keyentries t'.keyhash_id := by
  unfold chash at h
  split_ifs at h
  cases h
  refine ⟨?_, ?_, ?_⟩
  · simp [ht.keyid, range_succ]
  · intro id hid
    simp only [map_append, map_cons, map_nil, mem_append, mem_singleton] at hid
    rcases hid with hid | rfl
    · exact ht.id_le id hid
    · exact hl
  · intro id
    have hadd := lookup_osHashAdd ht.lookup l.id id
    rw [length_map] at hadd
    simpa using hadd

theorem length_id_keyLine {buffer : Bytes} {l : KeyLine} (h : keyLine buffer = some l) :
    l.id.length ≤ KEYSIZE - 1 := by
  have hstrncpy : ∀ n s, (strncpy n s).length ≤ n := fun n s =>
    ((List.takeWhile_prefix _).length_le).trans (List.length_take_le ..)
  unfold keyLine at h
  split_ifs at h
  obtain ⟨⟨id, tmp_str⟩, -, h⟩ := bind_eq_some_iff.mp h
  simp only at h
  split_ifs at h
  obtain ⟨⟨name, tmp_str⟩, -, h⟩ := bind_eq_some_iff.mp h
  obtain ⟨⟨ip, tmp_str⟩, -, rfl⟩ := map_eq_some_iff.mp h
  exact hstrncpy _ _

theorem indexed_readKeyLines {P : Crypto} {env : KeysEnv} {lines : List Bytes} {t t' : KeyTable}
    (ht : Indexed t.keyentries t.keyhash_id) (h : readKeyLines P env t lines = some t') :
    Indexed t'.keyentries t'.keyhash_id := by
  induction lines generalizing t with
  | nil => exact some.inj h ▸ ht
  | cons buffer rest ih =>
    unfold readKeyLines at h
    split at h
    · exact ih ht h
    · rename_i l hl
      obtain ⟨u, hu, h⟩ := bind_eq_some_iff.mp h
      split_ifs at h
      exact ih (indexed_chash ht (length_id_keyLine hl) hu) h

/-- The entries that `OS_ReadKeys` loads are indexed, whatever is in the file. -/
theorem osReadKeys_indexed {P : Crypto} {env : KeysEnv} {content : Bytes} {t : KeyTable}
    (h : osReadKeys P env content = some t) : Indexed t.keyentries t.keyhash_id := by
  obtain ⟨u, hu, h⟩ := bind_eq_some_iff.mp h
  split_ifs at h
  cases h
  exact indexed_readKeyLines ⟨rfl, fun _ hid => absurd hid not_mem_nil, fun _ => rfl⟩ hu
