import OssecHids.Lib.FileStore
import OssecHids.OsCrypto.Counter

/-!
# The keystore and its receive counters

The entries of the keystore and the files of `RIDS_DIR` that keep their receive counters.

A file is opened by name and stays open in the entry, so an entry can be on another inode than
its path. `Tracks` says that it is not: the entry's stream and the inode it remembers are the
file its path names. `OS_StartCounter` establishes this for every entry
(`tracks_startCounters`), and as long as no other process touches the files it makes
`ReloadCounter` do nothing (`reloadCounter_of_tracks`).

Opening a file fails only when it does not exist: permissions and the descriptor limit, on which
`OS_StartCounter` ends the daemon, are left out.
-/

open CString List

/-- `crypt_method`. -/
inductive CryptMethod
  | blowfish
  | aes
  deriving DecidableEq

/-- `keyentry`. The mutex is left out: every function of the model is one critical section. -/
structure KeyEntry where
  /-- The time of the last control message. -/
  rcvd : ℤ
  /-- `global` and `local`. -/
  counter : Counter
  keyid : ℕ
  id : Bytes
  key : Bytes
  name : Bytes
  /-- `ip->ip`, without the prefix length. -/
  ip : Bytes
  peer_info : Bytes
  /-- The inode the stream on the rids file is open on. -/
  fp : Option ℕ
  /-- The inode number `File_Inode` gave for the rids file. -/
  inode : ℕ
  crypto_method : CryptMethod
  deriving DecidableEq

namespace Rids

/-- The bytes of `RIDS_DIR "/"`. -/
def ridsDir : Bytes := ['/', 'q', 'u', 'e', 'u', 'e', '/', 'r', 'i', 'd', 's', '/'].map chr

/-- `SENDER_COUNTER`. -/
def senderCounter : Bytes :=
  ['s', 'e', 'n', 'd', 'e', 'r', '_', 'c', 'o', 'u', 'n', 't', 'e', 'r'].map chr

/-- `OS_FLSIZE` -/
def OS_FLSIZE : ℕ := 256

/-- `snprintf(rids_file, OS_FLSIZE, "%s/%s", RIDS_DIR, id)`. -/
def ridsFile (id : Bytes) : Bytes := (ridsDir ++ id).take (OS_FLSIZE - 1)

/-- The files of the rids directory. -/
abbrev Store := FileStore Bytes

/-- The pair `fscanf` reads from the start of a rids file, `0:0` when there is none. -/
def readCounter (rids : Store) (id : Bytes) : Counter :=
  (Counter.scanCounter (rids.read (ridsFile id))).getD Counter.zero

/-! ## Opening, storing and reloading the counter of one entry -/

/-- The body of the loop over the entries of `OS_StartCounter`: open the rids file, read the
pair, remember the inode. -/
def startEntry (rids : Store) (e : KeyEntry) : Store × KeyEntry :=
  let rids := rids.openUpdate (ridsFile e.id)
  let ino := rids.stat (ridsFile e.id)
  (rids, { e with fp := some ino, inode := ino, counter := readCounter rids e.id })

/-- The loop over the entries of `OS_StartCounter`. -/
def startCounters (rids : Store) : List KeyEntry → Store × List KeyEntry
  | [] => (rids, [])
  | e :: es =>
    let (rids, e) := startEntry rids e
    let (rids, es) := startCounters rids es
    (rids, e :: es)

/-- `StoreCounter`: write the pair to the start of the file the entry has open. -/
def storeCounter (rids : Store) (e : KeyEntry) (c : Counter) : Store :=
  match e.fp with
  | some h => rids.write (ridsFile e.id) h c.storeText
  | none => rids

/-- `OS_StoreAgentCounters`: store every receive counter, in the order of the entries. -/
def osStoreAgentCounters (rids : Store) (es : List KeyEntry) : Store :=
  es.foldl (fun rids e => storeCounter rids e e.counter) rids

/-- `ReloadCounter`: if the path names another inode than the entry remembers, open it again and
take the pair it holds. A file that is gone is created and the pair in memory is kept. -/
def reloadCounter (rids : Store) (e : KeyEntry) : Store × KeyEntry :=
  let new_inode := rids.stat (ridsFile e.id)
  if e.inode ≠ new_inode then
    if new_inode ≠ 0 then
      (rids, { e with
        fp := some new_inode, inode := new_inode, counter := readCounter rids e.id })
    else
      let rids := rids.create (ridsFile e.id)
      (rids, { e with fp := some (rids.stat (ridsFile e.id)), inode := new_inode })
  else (rids, e)

/-! ## Entries that are on the file their path names -/

/-- The entry's stream and the inode it remembers are the file its path names. -/
structure Tracks (rids : Store) (e : KeyEntry) : Prop where
  stat_ne_zero : rids.stat (ridsFile e.id) ≠ 0
  inode_eq : e.inode = rids.stat (ridsFile e.id)
  fp_eq : e.fp = some (rids.stat (ridsFile e.id))

/-- `Tracks` depends only on the id, the stream and the inode of the entry, and on which file
the path names. -/
theorem Tracks.congr {rids rids' : Store} {e e' : KeyEntry} (h : Tracks rids e)
    (hid : e'.id = e.id) (hfp : e'.fp = e.fp) (hino : e'.inode = e.inode)
    (hstat : rids'.stat (ridsFile e.id) = rids.stat (ridsFile e.id)) : Tracks rids' e' := by
  refine ⟨?_, ?_, ?_⟩
  · rw [hid, hstat]; exact h.stat_ne_zero
  · rw [hid, hstat, hino]; exact h.inode_eq
  · rw [hid, hstat, hfp]; exact h.fp_eq

@[simp]
theorem stat_storeCounter (rids : Store) (e : KeyEntry) (c : Counter) (p : Bytes) :
    (storeCounter rids e c).stat p = rids.stat p := by
  unfold storeCounter
  split
  · exact FileStore.stat_write ..
  · rfl

/-- While no other process touches the rids file, `ReloadCounter` does nothing. -/
theorem reloadCounter_of_tracks {rids : Store} {e : KeyEntry} (h : Tracks rids e) :
    reloadCounter rids e = (rids, e) := by
  simp [reloadCounter, h.inode_eq]

/-- A tracking entry that stores a pair makes its file read as that pair. -/
theorem readCounter_storeCounter {rids : Store} {e : KeyEntry} (h : Tracks rids e) (c : Counter)
    {id : Bytes} (hid : ridsFile id = ridsFile e.id) :
    readCounter (storeCounter rids e c) id = c := by
  rw [readCounter, storeCounter, h.fp_eq, hid]
  simp only
  rw [FileStore.read_write _ rfl h.stat_ne_zero, Counter.scanCounter_overwrite, Option.getD_some]

theorem readCounter_storeCounter_of_ne (rids : Store) (e : KeyEntry) (c : Counter) {id : Bytes}
    (hid : ridsFile id ≠ ridsFile e.id) :
    readCounter (storeCounter rids e c) id = readCounter rids id := by
  unfold storeCounter readCounter
  split
  · rw [FileStore.read_write_of_ne _ hid]
  · rfl

/-! ## `OS_StartCounter` -/

theorem readCounter_openUpdate (rids : Store) (p id : Bytes) :
    readCounter (rids.openUpdate p) id = readCounter rids id := by
  rw [readCounter, FileStore.read_openUpdate, readCounter]

/-- A file that is there keeps its inode when `OS_StartCounter` opens the rids files. -/
theorem stat_startCounters (es : List KeyEntry) {rids : Store} {p : Bytes}
    (hp : rids.stat p ≠ 0) : (startCounters rids es).1.stat p = rids.stat p := by
  induction es generalizing rids with
  | nil => rfl
  | cons e es ih =>
    have hopen : (rids.openUpdate (ridsFile e.id)).stat p = rids.stat p :=
      FileStore.stat_openUpdate_of_ne_zero rids hp
    change (startCounters (rids.openUpdate (ridsFile e.id)) es).1.stat p = _
    rw [ih (by rw [hopen]; exact hp), hopen]

theorem tracks_startCounters (es : List KeyEntry) (rids : Store) :
    ∀ e ∈ (startCounters rids es).2, Tracks (startCounters rids es).1 e := by
  induction es generalizing rids with
  | nil => intro e he; cases he
  | cons e es ih =>
    intro e' he'
    -- the file of the first entry is there, so opening the others leaves it where it is
    have hne := FileStore.stat_openUpdate_ne_zero rids (ridsFile e.id)
    have hstat := stat_startCounters es hne
    rcases mem_cons.mp he' with rfl | he'
    · exact ⟨hstat.symm ▸ hne, hstat.symm, congrArg some hstat.symm⟩
    · exact ih _ e' he'

/-- After `OS_StartCounter` every entry has the pair its rids file held. -/
theorem counter_startCounters (es : List KeyEntry) (rids : Store) :
    ∀ e ∈ (startCounters rids es).2, e.counter = readCounter rids e.id := by
  induction es generalizing rids with
  | nil => intro e he; cases he
  | cons e es ih =>
    intro e' he'
    rcases mem_cons.mp he' with rfl | he'
    · exact readCounter_openUpdate rids _ _
    · rw [ih _ e' he']
      exact readCounter_openUpdate rids _ _

/-- `OS_StartCounter` changes an entry only in its stream, inode and pair. -/
theorem map_startCounters {β : Type} (f : KeyEntry → β)
    (hf : ∀ e c fp inode, f { e with counter := c, fp := fp, inode := inode } = f e)
    (es : List KeyEntry) (rids : Store) : (startCounters rids es).2.map f = es.map f := by
  induction es generalizing rids with
  | nil => rfl
  | cons e es ih =>
    change f _ :: _ = f e :: es.map f
    rw [hf, ih]

/-! ## `OS_StoreAgentCounters` -/

theorem ridsFile_inj {id id' : Bytes} (h : id.length ≤ 127) (h' : id'.length ≤ 127) :
    ridsFile id = ridsFile id' ↔ id = id' := by
  have htake : ∀ id : Bytes, id.length ≤ 127 → ridsFile id = ridsDir ++ id := by
    intro id hid
    refine take_of_length_le ?_
    rw [length_append]
    have hdir : ridsDir.length = 12 := rfl
    have hsize : OS_FLSIZE = 256 := rfl
    omega
  rw [htake id h, htake id' h', append_cancel_left_eq]

/-- Of the entries that share a file, the last one is read back. -/
theorem readCounter_osStoreAgentCounters {es : List KeyEntry} {rids : Store}
    (htrack : ∀ e ∈ es, Tracks rids e) (hlen : ∀ e ∈ es, e.id.length ≤ 127) {id : Bytes}
    (hid : id.length ≤ 127) :
    readCounter (osStoreAgentCounters rids es) id =
      ((es.filter (·.id = id)).getLast?).elim (readCounter rids id) KeyEntry.counter := by
  induction es generalizing rids with
  | nil => rfl
  | cons e es ih =>
    have hstat := stat_storeCounter rids e e.counter
    have htrack' : ∀ e' ∈ es, Tracks (storeCounter rids e e.counter) e' := fun e' he' =>
      (htrack e' (mem_cons_of_mem _ he')).congr rfl rfl rfl (hstat _)
    change readCounter (osStoreAgentCounters (storeCounter rids e e.counter) es) id = _
    rw [ih htrack' fun e' he' => hlen e' (mem_cons_of_mem _ he')]
    have hfile := ridsFile_inj hid (hlen e mem_cons_self)
    by_cases he : e.id = id
    · rw [filter_cons_of_pos (by simpa using he), getLast?_cons,
        readCounter_storeCounter (htrack e mem_cons_self) _ (hfile.mpr he.symm)]
      cases (es.filter (·.id = id)).getLast? <;> rfl
    · rw [filter_cons_of_neg (by simpa using he),
        readCounter_storeCounter_of_ne rids e _ (fun h => he (hfile.mp h).symm)]

end Rids
