import OssecHids.OsCrypto.Keys

/-!
# Reloading the keys

`OS_UpdateKeys`: the receive counters are stored, the keys file is read again, and the new entries
take their counters from the rids files. Entries with one id share a file, and of those the last
one stores last, while `OS_IsAllowedID` returns the first one.

- `counter_osUpdateKeys`: after a reload every entry has the pair that the last of the old entries
  with its id had;
- `osUpdateKeys_keeps_counters`: so the pair of an id survives exactly when its first and its last
  entry agree.
-/

open CString Rids Transition Option

/-- A keystore with the hash of its ids, over the rids files. -/
structure Keystore extends RecvState where
  keyhash_id : List (Bytes × ℕ)
  keyhash_ip : List (Bytes × ℕ)
  /-- The modification time of the keys file that was read. -/
  file_change : ℤ

namespace Keystore

/-- `OS_IsAllowedID`, `none` for -1. -/
def osIsAllowedID (k : Keystore) (id : Bytes) : Option ℕ :=
  (k.keyhash_id.lookup id).bind fun i => (k.keyentries[i]?).map KeyEntry.keyid

/-- The entry that `OS_IsAllowedID` returns the index of. -/
def entryOf (k : Keystore) (id : Bytes) : Option KeyEntry :=
  (k.osIsAllowedID id).bind fun i => k.keyentries[i]?

/-- `OS_ReadKeys` and `OS_StartCounter`, for a keys file with a modification time. -/
def load (P : Crypto) (env : KeysEnv) (rids : Rids.Store) (rcv_count : UInt32) (date : ℤ)
    (content : Bytes) : Option Keystore :=
  if date < 0 then none
  else
    (osReadKeys P env content).map fun t => {
      startReceiver rids t.keyentries rcv_count with
      keyhash_id := t.keyhash_id, keyhash_ip := t.keyhash_ip, file_change := date }

/-- Give the entry of a saved id back what is not in the file, if it has the same address. -/
def restore (k : Keystore) (saved : KeyEntry) : Keystore :=
  match k.osIsAllowedID saved.id with
  | none => k
  | some i =>
    match k.keyentries[i]? with
    | none => k
    | some e =>
      if e.ip = saved.ip then
        { k with
          keyentries := k.keyentries.set i { e with
            rcvd := saved.rcvd, peer_info := saved.peer_info
            crypto_method := saved.crypto_method } }
      else k

/-- `OS_UpdateKeys`: `OS_FreeKeys` stores the receive counters, then the file is read. -/
def osUpdateKeys (P : Crypto) (env : KeysEnv) (k : Keystore) (date : ℤ) (content : Bytes) :
    Option Keystore :=
  if k.file_change = date then some k
  else
    (load P env (osStoreAgentCounters k.rids k.keyentries) k.rcv_count date content).map fun k' =>
      k.keyentries.foldl restore k'

/-- `ReadSecMSG` for an entry of the keystore. -/
def recvKeys (P : Crypto) (cfg : ReadConfig) (k : Keystore) (l : ℕ × Datagram) :
    Keystore × Option SecMsg :=
  let (s, msg) := recvSecMSG P cfg k.toRecvState l
  ({ k with toRecvState := s }, msg)

/-- The keystores of a process: read at the start, changed by messages and reloads. -/
inductive Reachable (P : Crypto) (cfg : ReadConfig) (env : KeysEnv) : Keystore → Prop
  | start {rids : Rids.Store} {rcv_count : UInt32} {date : ℤ} {content : Bytes} {k : Keystore} :
      load P env rids rcv_count date content = some k → Reachable P cfg env k
  | recv {k : Keystore} (l : ℕ × Datagram) :
      Reachable P cfg env k → Reachable P cfg env (recvKeys P cfg k l).1
  | reload {k k' : Keystore} {date : ℤ} {content : Bytes} :
      Reachable P cfg env k → osUpdateKeys P env k date content = some k' →
      Reachable P cfg env k'

/-! ## The invariant of a keystore -/

/-- The entries are indexed and on their rids files. -/
structure Inv (k : Keystore) : Prop where
  indexed : Indexed k.keyentries k.keyhash_id
  track : k.toRecvState.AllTrack

/-- What messages and `restore` leave alone. -/
def core (e : KeyEntry) : ℕ × Bytes × Option ℕ × ℕ := (e.keyid, e.id, e.fp, e.inode)

theorem indexed_of_map_core {es es' : List KeyEntry} {hash : List (Bytes × ℕ)}
    (h : es'.map core = es.map core) (hes : Indexed es hash) : Indexed es' hash := by
  have hkeyid : es'.map KeyEntry.keyid = es.map KeyEntry.keyid := by
    simpa [core, Function.comp_def] using congrArg (List.map Prod.fst) h
  have hid : es'.map KeyEntry.id = es.map KeyEntry.id := by
    simpa [core, Function.comp_def] using congrArg (List.map (Prod.fst ∘ Prod.snd)) h
  have hlen : es'.length = es.length := by simpa using congrArg List.length h
  refine ⟨?_, ?_, ?_⟩
  · rw [hkeyid, hes.keyid, hlen]
  · rw [hid]; exact hes.id_le
  · rw [hid]; exact hes.lookup

theorem map_set_of_eq {β : Type} (f : KeyEntry → β) {es : List KeyEntry} {i : ℕ} {e e' : KeyEntry}
    (he : es[i]? = some e) (hf : f e' = f e) : (es.set i e').map f = es.map f := by
  rw [List.map_set, hf]
  refine List.ext_getElem? fun j => ?_
  by_cases hj : i = j
  · subst hj
    simp [List.getElem?_set_self', he]
  · rw [List.getElem?_set_ne hj]

theorem inv_load {P : Crypto} {env : KeysEnv} {rids : Rids.Store} {n : UInt32} {date : ℤ}
    {content : Bytes} {k : Keystore} (h : load P env rids n date content = some k) : k.Inv := by
  unfold load at h
  split_ifs at h
  obtain ⟨t, ht, rfl⟩ := map_eq_some_iff.mp h
  have hindexed := osReadKeys_indexed ht
  refine ⟨?_, allTrack_startReceiver rids t.keyentries n⟩
  have hmap : ∀ {β : Type} (f : KeyEntry → β),
      (∀ e c fp inode, f { e with counter := c, fp := fp, inode := inode } = f e) →
      (startCounters rids t.keyentries).2.map f = t.keyentries.map f :=
    fun f hf => map_startCounters f hf t.keyentries rids
  have hlen : (startCounters rids t.keyentries).2.length = t.keyentries.length := by
    simpa using congrArg List.length (hmap KeyEntry.id fun _ _ _ _ => rfl)
  refine ⟨?_, ?_, ?_⟩
  · exact (hmap KeyEntry.keyid fun _ _ _ _ => rfl).trans (hlen ▸ hindexed.keyid)
  · exact (hmap KeyEntry.id fun _ _ _ _ => rfl) ▸ hindexed.id_le
  · exact (hmap KeyEntry.id fun _ _ _ _ => rfl) ▸ hindexed.lookup

theorem allTrack_of_map_core {es es' : List KeyEntry} {rids : Rids.Store}
    (h : es'.map core = es.map core) (hes : ∀ e ∈ es, Tracks rids e) :
    ∀ e ∈ es', Tracks rids e := by
  intro e' he'
  have hmem : core e' ∈ es.map core := h ▸ List.mem_map_of_mem he'
  obtain ⟨e, he, hcore⟩ := List.mem_map.mp hmem
  simp only [core, Prod.mk.injEq] at hcore
  obtain ⟨-, hid, hfp, hino⟩ := hcore
  exact (hes e he).congr hid.symm hfp.symm hino.symm rfl

/-- `restore` changes no counter, and nothing else that `Inv` speaks of. -/
theorem restore_spec (k : Keystore) (saved : KeyEntry) :
    (k.restore saved).rids = k.rids ∧ (k.restore saved).keyhash_id = k.keyhash_id ∧
    (k.restore saved).keyentries.map (fun e => (core e, e.counter)) =
      k.keyentries.map (fun e => (core e, e.counter)) := by
  unfold restore
  split
  · exact ⟨rfl, rfl, rfl⟩
  · split
    · exact ⟨rfl, rfl, rfl⟩
    · rename_i e he
      split_ifs
      · exact ⟨rfl, rfl, map_set_of_eq _ he rfl⟩
      · exact ⟨rfl, rfl, rfl⟩

theorem foldl_restore_spec (saved : List KeyEntry) (k : Keystore) :
    (saved.foldl restore k).rids = k.rids ∧ (saved.foldl restore k).keyhash_id = k.keyhash_id ∧
    (saved.foldl restore k).keyentries.map (fun e => (core e, e.counter)) =
      k.keyentries.map (fun e => (core e, e.counter)) := by
  induction saved generalizing k with
  | nil => exact ⟨rfl, rfl, rfl⟩
  | cons e saved ih =>
    obtain ⟨h₁, h₂, h₃⟩ := ih (k.restore e)
    obtain ⟨g₁, g₂, g₃⟩ := restore_spec k e
    exact ⟨h₁.trans g₁, h₂.trans g₂, h₃.trans g₃⟩

theorem map_core_of_map_pair {es es' : List KeyEntry}
    (h : es'.map (fun e => (core e, e.counter)) = es.map (fun e => (core e, e.counter))) :
    es'.map core = es.map core := by
  simpa [Function.comp_def] using congrArg (List.map Prod.fst) h

theorem inv_osUpdateKeys {P : Crypto} {env : KeysEnv} {k k' : Keystore} {date : ℤ}
    {content : Bytes} (hk : k.Inv) (h : osUpdateKeys P env k date content = some k') :
    k'.Inv := by
  unfold osUpdateKeys at h
  split_ifs at h
  · exact some.inj h ▸ hk
  · obtain ⟨u, hu, rfl⟩ := map_eq_some_iff.mp h
    obtain ⟨hrids, hhash, hmap⟩ := foldl_restore_spec k.keyentries u
    have hu := inv_load hu
    have hcore := map_core_of_map_pair hmap
    refine ⟨?_, ?_⟩
    · rw [hhash]; exact indexed_of_map_core hcore hu.indexed
    · intro e he
      rw [hrids]
      exact allTrack_of_map_core hcore hu.track e he

theorem inv_recvKeys {P : Crypto} {cfg : ReadConfig} {k : Keystore} (hk : k.Inv)
    (l : ℕ × Datagram) : (recvKeys P cfg k l).1.Inv := by
  have hgraph : StepOf (recvSecMSG P cfg) k.toRecvState (l, (recvSecMSG P cfg k.toRecvState l).2)
      (recvSecMSG P cfg k.toRecvState l).1 := rfl
  refine ⟨?_, allTrack_recvSecMSG hk.track hgraph⟩
  change Indexed (recvSecMSG P cfg k.toRecvState l).1.keyentries k.keyhash_id
  rcases recvSecMSG_cases hgraph with ⟨hsame, -⟩ | ⟨e, he, hput, -⟩
  · rw [hsame]; exact hk.indexed
  · have htrack := hk.track e (List.mem_of_getElem? he)
    have hentry := (readSecMSG_sameEntry P cfg (s := k.focus e) l.2 htrack).entry
    rw [hput]
    refine indexed_of_map_core (map_set_of_eq core he ?_) hk.indexed
    rw [hentry]
    rfl

theorem Reachable.inv {P : Crypto} {cfg : ReadConfig} {env : KeysEnv} {k : Keystore}
    (h : Reachable P cfg env k) : k.Inv := by
  induction h with
  | start h => exact inv_load h
  | recv l _ ih => exact inv_recvKeys ih l
  | reload _ h ih => exact inv_osUpdateKeys ih h

/-! ## What survives a reload -/

/-- The entries with an id, in the order of the file. -/
def entriesOf (k : Keystore) (id : Bytes) : List KeyEntry := k.keyentries.filter (·.id = id)

theorem entryOf_eq {k : Keystore} (hk : k.Inv) (id : Bytes) :
    k.entryOf id = (k.entriesOf id).head? := by
  have hlookup : k.keyhash_id.lookup id = k.keyentries.findIdx? (·.id = id) := by
    rw [hk.indexed.lookup, List.idxOf?, List.findIdx?_map]
    congr 1
    funext e
    simp [Function.comp, beq_eq_decide]
  rw [entriesOf, List.head?_filter, List.find?_eq_bind_findIdx?_getElem?, entryOf, osIsAllowedID,
    hlookup, bind_assoc]
  congr 1
  funext i
  rcases he : k.keyentries[i]? with _ | e
  · rfl
  · rw [map_some, bind_some, hk.indexed.keyid_eq he, he]

theorem entryOf_eq_some {k : Keystore} (hk : k.Inv) {id : Bytes} {i : ℕ}
    (h : k.osIsAllowedID id = some i) :
    ∃ e, k.keyentries[i]? = some e ∧ k.entryOf id = some e := by
  obtain ⟨j, -, hj⟩ := bind_eq_some_iff.mp h
  obtain ⟨e, he, hi⟩ := map_eq_some_iff.mp hj
  rw [hk.indexed.keyid_eq he] at hi
  subst hi
  exact ⟨e, he, by rw [entryOf, h, bind_some, he]⟩

/-- After a reload every entry has the pair of the last old entry with its id. -/
theorem counter_osUpdateKeys {P : Crypto} {env : KeysEnv} {k k' : Keystore} {date : ℤ}
    {content : Bytes} (hk : k.Inv) (hdate : k.file_change ≠ date)
    (h : osUpdateKeys P env k date content = some k') :
    ∀ e ∈ k'.keyentries, e.counter =
      ((k.entriesOf e.id).getLast?).elim (readCounter k.rids e.id) KeyEntry.counter := by
  unfold osUpdateKeys at h
  rw [if_neg hdate] at h
  obtain ⟨u, hu, rfl⟩ := map_eq_some_iff.mp h
  obtain ⟨-, -, hmap⟩ := foldl_restore_spec k.keyentries u
  intro e' he'
  -- `restore` leaves the pair that `OS_StartCounter` has read
  have hmem : (core e', e'.counter) ∈ u.keyentries.map fun e => (core e, e.counter) :=
    hmap ▸ List.mem_map_of_mem (f := fun e => (core e, e.counter)) he'
  obtain ⟨e, he, hpair⟩ := List.mem_map.mp hmem
  simp only [core, Prod.mk.injEq] at hpair
  obtain ⟨⟨-, hid, -, -⟩, hcounter⟩ := hpair
  have hle := (inv_load hu).indexed.id_le e.id (List.mem_map_of_mem he)
  unfold load at hu
  split_ifs at hu
  obtain ⟨t, ht, rfl⟩ := map_eq_some_iff.mp hu
  have hread : e.counter = readCounter (osStoreAgentCounters k.rids k.keyentries) e.id :=
    counter_startCounters t.keyentries _ e he
  rw [← hcounter, hread, ← hid]
  exact readCounter_osStoreAgentCounters hk.track
    (fun e he => hk.indexed.id_le e.id (List.mem_map_of_mem he)) hle

/-- The entries of an id agree on the pair at both ends. -/
def EndsAgree (k : Keystore) (id : Bytes) : Prop :=
  ((k.entriesOf id).getLast?).map KeyEntry.counter = ((k.entriesOf id).head?).map KeyEntry.counter

/-- After a reload that keeps an id, its pair is the one of the last old entry. -/
theorem counter_entryOf_osUpdateKeys {P : Crypto} {env : KeysEnv} {k k' : Keystore} {date : ℤ}
    {content : Bytes} (hk : k.Inv) (hdate : k.file_change ≠ date)
    (h : osUpdateKeys P env k date content = some k') {id : Bytes}
    (hid : id ∈ k.keyentries.map KeyEntry.id) (hid' : id ∈ k'.keyentries.map KeyEntry.id) :
    (k'.entryOf id).map KeyEntry.counter = ((k.entriesOf id).getLast?).map KeyEntry.counter := by
  have hne : ∀ {k : Keystore}, id ∈ k.keyentries.map KeyEntry.id → k.entriesOf id ≠ [] := by
    intro k hid
    obtain ⟨e, he, rfl⟩ := List.mem_map.mp hid
    exact List.ne_nil_of_mem (List.mem_filter.mpr ⟨he, by simp⟩)
  obtain ⟨e', he'⟩ := ne_none_iff_exists'.mp (mt List.head?_eq_none_iff.mp (hne hid'))
  have hmem := List.mem_filter.mp (List.mem_of_mem_head? he')
  have hcounter := counter_osUpdateKeys hk hdate h e' hmem.1
  obtain ⟨e, he⟩ := ne_none_iff_exists'.mp (mt List.getLast?_eq_none_iff.mp (hne hid))
  rw [of_decide_eq_true hmem.2, he] at hcounter
  rw [entryOf_eq (inv_osUpdateKeys hk h), he', he, map_some, map_some, hcounter]
  rfl

theorem readSecMSG_refuses {P : Crypto} {cfg : ReadConfig} (hv : cfg.verify_counter = true)
    {s : EntryState} {d : Datagram} (h : Tracks s.rids s.entry) {m : ParsedMsg}
    (hm : parseMsg P cfg s.entry d = .ok m) (hle : m.counter ≤ s.entry.counter) :
    ∃ err, (readSecMSG P cfg s d).2 = .error err := by
  rcases hr : (readSecMSG P cfg s d).2 with err | msg
  · exact ⟨err, rfl⟩
  · have hacc := readSecMSG_accepts hv h hr
    obtain ⟨m', hm', hcounter, -⟩ := hacc.parsed
    obtain rfl := Except.ok.inj (hm.symm.trans hm')
    exact absurd hacc.newer (not_lt.mpr (hcounter ▸ hle))

/-- The pairs accepted for an entry are not above the one it has. -/
theorem accepted_le_counter {P : Crypto} {cfg : ReadConfig} (hv : cfg.verify_counter = true)
    {k₁ k : Keystore} {ls : List ((ℕ × Datagram) × Option SecMsg)} (hk₁ : k₁.Inv)
    (h : Run (StepOf (recvKeys P cfg)) k₁ ls k) {i : ℕ} {e : KeyEntry}
    (he : k.keyentries[i]? = some e) :
    ∀ msg ∈ ls.filterMap (acceptedAt i), msg.counter ≤ e.counter := by
  have hrun : Run (StepOf (recvSecMSG P cfg)) k₁.toRecvState ls k.toRecvState := by
    refine h.map Keystore.toRecvState ?_
    intro k l k' hstep
    obtain ⟨hk', hout⟩ := Prod.mk.inj hstep
    exact Prod.ext (congrArg Keystore.toRecvState hk') hout
  have hbounds := hrun.outputs_bounds (fun _ _ _ hs hl => allTrack_recvSecMSG hs hl)
    (fun _ _ _ hs hl => forward_recvSecMSG hv i hs hl) hk₁.track
  intro msg hmsg
  obtain ⟨l, hl, hmsg⟩ := List.mem_filterMap.mp hmsg
  have hle := (hbounds.2 msg.counter (List.mem_filterMap.mpr ⟨l, hl, by rw [hmsg]; rfl⟩)).2
  simpa [RecvState.counterAt, he] using hle


/-- What a reload keeps. For every keystore that messages and reloads can lead to, and every keys
file that still has its ids, each id keeps its pair exactly when the first and the last entry with
that id have the same pair. Then a message accepted before the reload for the entry of an id is
refused for the entry the id has after it. -/
theorem osUpdateKeys_keeps_counters {P : Crypto} {cfg : ReadConfig} {env : KeysEnv}
    {k₁ k k' : Keystore} {ls : List ((ℕ × Datagram) × Option SecMsg)} {date : ℤ} {content : Bytes}
    (hk₁ : Reachable P cfg env k₁) (hrun : Run (StepOf (recvKeys P cfg)) k₁ ls k)
    (hdate : k.file_change ≠ date) (h : osUpdateKeys P env k date content = some k')
    (hids : ∀ id ∈ k.keyentries.map KeyEntry.id, id ∈ k'.keyentries.map KeyEntry.id) :
    ((∀ id ∈ k.keyentries.map KeyEntry.id,
        (k'.entryOf id).map KeyEntry.counter = (k.entryOf id).map KeyEntry.counter) ↔
      ∀ id, k.EndsAgree id) ∧
    (cfg.verify_counter = true → (∀ id, k.EndsAgree id) →
      ∀ id i, k.osIsAllowedID id = some i → ∀ msg ∈ ls.filterMap (acceptedAt i),
      ∀ e', k'.entryOf id = some e' → ∀ d m, parseMsg P cfg e' d = .ok m →
        m.counter = msg.counter → ∃ err, (readSecMSG P cfg (k'.focus e') d).2 = .error err) := by
  have hstep : ∀ k l k', Inv k → StepOf (recvKeys P cfg) k l k' → Inv k' := by
    rintro k l k' hk hstep
    rw [← (Prod.mk.inj hstep).1]
    exact inv_recvKeys hk l.1
  have hinv : k.Inv := hrun.invariant hstep hk₁.inv
  have hkeep : ∀ id ∈ k.keyentries.map KeyEntry.id,
      ((k'.entryOf id).map KeyEntry.counter = (k.entryOf id).map KeyEntry.counter ↔
        k.EndsAgree id) := by
    intro id hid
    rw [counter_entryOf_osUpdateKeys hinv hdate h hid (hids id hid), entryOf_eq hinv, EndsAgree]
  refine ⟨⟨?_, ?_⟩, ?_⟩
  · intro hall id
    by_cases hid : id ∈ k.keyentries.map KeyEntry.id
    · exact (hkeep id hid).mp (hall id hid)
    · -- an id without entries has no ends
      have hnil : k.entriesOf id = [] := by
        rw [entriesOf, List.filter_eq_nil_iff]
        intro e he heq
        exact hid (of_decide_eq_true heq ▸ List.mem_map_of_mem he)
      rw [EndsAgree, hnil]
      rfl
  · intro hends id hid
    exact (hkeep id hid).mpr (hends id)
  · intro hv hends id i hi msg hmsg e' he' d m hm hcounter
    obtain ⟨e, he, hentry⟩ := entryOf_eq_some hinv hi
    have hhead := entryOf_eq hinv id ▸ hentry
    obtain ⟨hmem, hid⟩ := List.mem_filter.mp (List.mem_of_mem_head? hhead)
    have hpair := (hkeep id (List.mem_map.mpr ⟨e, hmem, of_decide_eq_true hid⟩)).mpr (hends id)
    rw [he', hentry, map_some, map_some, some.injEq] at hpair
    have hle := accepted_le_counter hv hk₁.inv hrun he msg hmsg
    obtain ⟨j, -, hj⟩ := bind_eq_some_iff.mp he'
    have htrack := (inv_osUpdateKeys hinv h).track e' (List.mem_of_getElem? hj)
    refine readSecMSG_refuses hv (s := k'.focus e') htrack hm ?_
    rw [hcounter]
    exact hle.trans hpair.ge

/-! ## Two keys files -/

/-- The text `"001 a any k\n"`. -/
def sampleLine : Bytes :=
  ['0', '0', '1', ' ', 'a', ' ', 'a', 'n', 'y', ' ', 'k', '\n'].map chr

/-- The id of the line. -/
def sampleId : Bytes := ['0', '0', '1'].map chr

def sampleEnv : KeysEnv where
  max_agents := 256
  pass_empty_keyfile := false
  os_pton_sockaddr := fun _ => some false

def sampleConfig : ReadConfig where
  client := false
  verify_counter := true
  recv_flush := 100

/-- A message of the old format with the pair (7, 1). -/
def sampleDatagram : Datagram where
  buffer := chr ':' :: chr ':' :: (List.replicate 32 48 ++
    (fmtU0 10 7 ++ chr ':' :: (fmtU0 4 1 ++ [chr '?', chr ':', chr 'x'])))
  buffer_max := 100
  cleartext := List.replicate 100 0
  buffer_size := 51
  srcip := []

/-- A server that has read `content` and accepted the message, and that server after it has read
the same file again. -/
def sampleStart (content : Bytes) : Option Keystore :=
  load .plain sampleEnv .empty 0 1 content

def sampleRecv (k : Keystore) : Keystore × Option SecMsg :=
  recvKeys .plain sampleConfig k (0, sampleDatagram)

def sampleReload (content : Bytes) : Option Keystore :=
  (sampleStart content).bind fun k₁ => osUpdateKeys .plain sampleEnv (sampleRecv k₁).1 2 content

/-- A keys file with one line keeps the pair of its agent. -/
theorem osUpdateKeys_keeps_single_line :
    ∃ k₁ k', sampleStart sampleLine = some k₁ ∧ sampleReload sampleLine = some k' ∧
      (k'.entryOf sampleId).map KeyEntry.counter =
        ((sampleRecv k₁).1.entryOf sampleId).map KeyEntry.counter := by
  obtain ⟨k', hk'⟩ : ∃ k', sampleReload sampleLine = some k' :=
    isSome_iff_exists.mp (by decide +kernel)
  obtain ⟨k₁, hk₁, hupdate⟩ := bind_eq_some_iff.mp hk'
  have hstart : (sampleStart sampleLine).all fun k => (sampleRecv k).1.file_change ≠ 2 ∧
      (sampleRecv k).1.keyentries.map KeyEntry.id = [sampleId] := by decide +kernel
  have hreload : (sampleReload sampleLine).all fun k =>
      k.keyentries.map KeyEntry.id = [sampleId] := by decide +kernel
  rw [hk₁, all_some, decide_eq_true_eq] at hstart
  rw [hk', all_some, decide_eq_true_eq] at hreload
  have hids : ∀ id ∈ (sampleRecv k₁).1.keyentries.map KeyEntry.id,
      id ∈ k'.keyentries.map KeyEntry.id := by
    rw [hstart.2, hreload]
    exact fun _ => id
  -- with one entry the first one is the last one
  have hends : ∀ id, (sampleRecv k₁).1.EndsAgree id := by
    obtain ⟨e, he⟩ := List.length_eq_one_iff.mp
      (by simpa using congrArg List.length hstart.2 : (sampleRecv k₁).1.keyentries.length = 1)
    intro id
    unfold EndsAgree entriesOf
    rw [he, List.filter_singleton]
    cases decide (e.id = id) <;> rfl
  have hrun : Run (StepOf (recvKeys .plain sampleConfig)) k₁
      [((0, sampleDatagram), (sampleRecv k₁).2)] (sampleRecv k₁).1 := .cons rfl (.nil _)
  have hkeep := osUpdateKeys_keeps_counters (.start hk₁) hrun hstart.1 hupdate hids
  refine ⟨k₁, k', hk₁, hk', hkeep.1.mpr hends sampleId ?_⟩
  rw [hstart.2]
  exact List.mem_singleton_self _

/-- A keys file that repeats the line of an agent forgets its pair: the message is accepted again
after the reload. -/
theorem osUpdateKeys_forgets_repeated_line :
    ∃ k₁ k', sampleStart (sampleLine ++ sampleLine) = some k₁ ∧
      sampleReload (sampleLine ++ sampleLine) = some k' ∧
      k₁.osIsAllowedID sampleId = some 0 ∧ (sampleRecv k₁).2.isSome ∧
      ((sampleRecv k₁).1.entryOf sampleId).map KeyEntry.counter = some ⟨7, 1⟩ ∧
      (k'.entryOf sampleId).map KeyEntry.counter = some ⟨0, 0⟩ ∧ (sampleRecv k').2.isSome := by
  refine ⟨(sampleStart (sampleLine ++ sampleLine)).get (by decide +kernel),
    (sampleReload (sampleLine ++ sampleLine)).get (by decide +kernel),
    (some_get _).symm, (some_get _).symm, ?_⟩
  decide +kernel

end Keystore
