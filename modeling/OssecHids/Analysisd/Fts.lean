import OssecHids.Analysisd.RuleInfo
import OssecHids.Lib.Lines
import OssecHids.Shared.HashOp
import OssecHids.Shared.ListOp

/-!
# First time seen

`fts.c`: the records of the events that were seen, and of those to ignore. Each of the two stores
keeps its records in a table and in a list, and a list that is full drops its oldest record from
both.

- `Store.Agrees`: the table has the keys of the list;
- `Store.add_spec`: what `FTS_Add` and `IG_Add` leave;
- `stores_agree`: the two stores, and what `FTS` answers, after any calls.
-/

open CString Retained Transition List Option

namespace Fts

/-! ## Events -/

def FTS_NAME : ℕ := 0o1000
def FTS_SRCUSER : ℕ := 0o2000
def FTS_DSTUSER : ℕ := 0o4000
def FTS_SRCIP : ℕ := 0o100
def FTS_DSTIP : ℕ := 0o200
def FTS_LOCATION : ℕ := 0o400
def FTS_ID : ℕ := 0o10
def FTS_DATA : ℕ := 0o20
def FTS_SYSTEMNAME : ℕ := 0o40

/-- `OS_FLSIZE` -/
def OS_FLSIZE : ℕ := 256

/-- `OSDecoderInfo` -/
structure OSDecoderInfo where
  name : Option Bytes
  fts : ℕ := 0
  /-- Whether the type is `IDS`. -/
  ids : Bool := false
  deriving DecidableEq, Repr

/-- `RuleInfo` -/
structure RuleInfo where
  ignore : ℕ := 0
  ckignore : ℕ := 0
  deriving DecidableEq, Repr

structure Eventinfo where
  decoder_info : OSDecoderInfo
  generated_rule : RuleInfo := {}
  id : Option Bytes := none
  dstuser : Option Bytes := none
  srcuser : Option Bytes := none
  srcip : Option Bytes := none
  dstip : Option Bytes := none
  data : Option Bytes := none
  systemname : Option Bytes := none
  location : Bytes
  deriving DecidableEq, Repr

/-- `(field && (mask & flag)) ? field : ""` -/
def selected (field : Option Bytes) (mask flag : ℕ) : Bytes :=
  if hasFlag mask flag then field.getD [] else []

/-- A format such as `"%s %s %s"`. -/
def spaced (fields : List Bytes) : Bytes := [chr ' '].intercalate fields

/-- The line that `FTS` makes of an event. -/
def ftsLine (lf : Eventinfo) : Bytes :=
  let fts := lf.decoder_info.fts
  snprintf OS_FLSIZE (spaced
    [lf.decoder_info.name.getD (lit "(null)"), selected lf.id fts FTS_ID,
      selected lf.dstuser fts FTS_DSTUSER, selected lf.srcuser fts FTS_SRCUSER,
      selected lf.srcip fts FTS_SRCIP, selected lf.dstip fts FTS_DSTIP,
      selected lf.data fts FTS_DATA, selected lf.systemname fts FTS_SYSTEMNAME,
      selected (some lf.location) fts FTS_LOCATION])

/-- The fields that `AddtoIGnore` writes into its line. -/
def addtoIGnoreFields (lf : Eventinfo) : List Bytes :=
  let ignore := lf.generated_rule.ignore
  [selected lf.decoder_info.name ignore FTS_NAME, selected lf.id ignore FTS_ID,
    selected lf.dstuser ignore FTS_DSTUSER, selected lf.srcip ignore FTS_SRCIP,
    selected lf.dstip ignore FTS_DSTIP, selected lf.data ignore FTS_DATA,
    selected lf.systemname ignore FTS_SYSTEMNAME, selected (some lf.location) ignore FTS_LOCATION]

/-- The fields that `IGnore` writes into its line. -/
def iGnoreFields (lf : Eventinfo) : List Bytes :=
  let ignore := lf.generated_rule.ignore
  let ckignore := lf.generated_rule.ckignore
  [selected lf.decoder_info.name ckignore FTS_NAME, selected lf.id ckignore FTS_ID,
    selected lf.dstuser ckignore FTS_DSTUSER, selected lf.srcip ckignore FTS_SRCIP,
    selected lf.dstip ckignore FTS_DSTIP, selected lf.data ignore FTS_DATA,
    selected lf.systemname ignore FTS_SYSTEMNAME,
    selected (some lf.location) ckignore FTS_LOCATION]

def addtoIGnoreLine (lf : Eventinfo) : Bytes := snprintf OS_FLSIZE (spaced (addtoIGnoreFields lf))

def iGnoreLine (lf : Eventinfo) : Bytes := snprintf OS_FLSIZE (spaced (iGnoreFields lf))

/-! ## Stores -/

/-- Whether there is memory for a node of the list of similar lines, for a node of the table and
its key, and for a node of the list of records. -/
structure Memory where
  similar : Bool := true
  calloc : Bool := true
  strdup : Bool := true
  node : Bool := true
  deriving DecidableEq, Repr

/-- There is memory for a record. -/
def Memory.granted (m : Memory) : Bool := m.calloc && m.strdup && m.node

/-- A table and the list of its keys: `fts_store` and `fts_store_list`, `ig_store` and `ig_list`. -/
structure Store where
  store : OSHash Bytes
  list : OSList Bytes

namespace Store

/-- `FTS_Free` and `IG_Free` -/
def free (data : Bytes) (store : OSHash Bytes) : OSHash Bytes := (store.delete data).2

/-- `FTS_Add` and `IG_Add` -/
def add (s : Store) (line : Bytes) (m : Memory) : ℕ × Store :=
  let added := s.store.add line (some line) m.calloc m.strdup
  if added.1 ≤ 1 then (0, { s with store := added.2 })
  else
    let listed := s.list.addData free line m.node added.2
    if listed.1 = 0 then (0, { store := free line listed.2.2, list := listed.2.1 })
    else (1, { store := listed.2.2, list := listed.2.1 })

/-- The keys that the store has, oldest first. -/
def keys (s : Store) : List Bytes := s.list.data

/-- The table has the keys of the list, each of which is there once. -/
structure Agrees (s : Store) : Prop where
  wellFormed : s.store.WellFormed
  bounded : s.list.Bounded
  toMap : ∀ key, s.store.toMap key = if key ∈ s.keys then some (some key) else none
  nodup : s.keys.Nodup

variable {s : Store} {line : Bytes} {m : Memory}

theorem Agrees.isSome_get (h : s.Agrees) (key : Bytes) :
    (s.store.get key).isSome = true ↔ key ∈ s.keys := by
  rw [OSHash.get_eq, OSHash.mapGet, h.toMap]
  split_ifs with hkey <;> simp [hkey]

theorem Agrees.length_keys_le (h : s.Agrees) : s.keys.length ≤ s.list.max_size := by
  rw [keys, OSList.length_data]
  exact h.bounded.size_le

/-- The table answers `1` for a key that is there, `0` when there is no memory for a new one. -/
theorem Agrees.table_add (h : s.Agrees) (line : Bytes) (m : Memory) :
    (s.store.add line (some line) m.calloc m.strdup).2.WellFormed ∧
      ((s.store.add line (some line) m.calloc m.strdup).1,
        (s.store.add line (some line) m.calloc m.strdup).2.toMap) =
      if line ∈ s.keys then (1, s.store.toMap)
      else if m.calloc && m.strdup then
        (2, Function.update s.store.toMap line (some (some line)))
      else (0, s.store.toMap) := by
  obtain ⟨hwf, heq⟩ := h.wellFormed.add_spec line (some line) m.calloc m.strdup
  refine ⟨hwf, ?_⟩
  rw [heq, OSHash.mapAdd, h.toMap]
  by_cases hline : line ∈ s.keys
  · rw [if_pos hline, if_pos hline]
    rfl
  · rw [if_neg hline, if_neg hline]
    rfl

/-- A record that is there, or for which there is no memory, changes nothing. -/
theorem Agrees.add_eq_zero (h : s.Agrees) (hno : line ∈ s.keys ∨ m.granted = false) :
    (s.add line m).1 = 0 ∧ (s.add line m).2.Agrees ∧ (s.add line m).2.list = s.list := by
  obtain ⟨hwf, heq⟩ := h.table_add line m
  rw [add]
  by_cases hline : line ∈ s.keys
  · rw [if_pos hline, Prod.mk.injEq] at heq
    rw [if_pos (by omega)]
    exact ⟨rfl, ⟨hwf, h.bounded, fun key => by rw [heq.2, h.toMap]; rfl, h.nodup⟩, rfl⟩
  · rw [if_neg hline] at heq
    by_cases htable : m.calloc && m.strdup
    · rw [if_pos htable, Prod.mk.injEq] at heq
      have hnode : m.node = false := by
        rcases hno with hno | hno
        · exact absurd hno hline
        · rwa [Memory.granted, htable, Bool.true_and] at hno
      rw [if_neg (by omega), hnode, OSList.addData_of_no_memory, if_pos rfl]
      -- the record leaves the table again
      obtain ⟨hwf', heq'⟩ := hwf.delete_spec line
      have hnone : s.store.toMap line = none := by rw [h.toMap, if_neg hline]
      rw [OSHash.mapDelete, heq.2, Function.update_idem, ← hnone, Function.update_eq_self,
        Prod.mk.injEq] at heq'
      exact ⟨rfl, ⟨hwf', h.bounded, fun key => by rw [free, heq'.2, h.toMap]; rfl, h.nodup⟩, rfl⟩
    · rw [if_neg htable, Prod.mk.injEq] at heq
      rw [if_pos (by omega)]
      exact ⟨rfl, ⟨hwf, h.bounded, fun key => by rw [heq.2, h.toMap]; rfl, h.nodup⟩, rfl⟩

/-- A new record goes to the end, and a full list drops its oldest one. -/
theorem Agrees.add_eq_one (h : s.Agrees) (hline : line ∉ s.keys) (hm : m.granted) :
    (s.add line m).1 = 1 ∧ (s.add line m).2.Agrees ∧
      (s.add line m).2.list.max_size = s.list.max_size ∧
      (s.add line m).2.keys = newest s.list.max_size (s.keys ++ [line]) := by
  obtain ⟨hwf, heq⟩ := h.table_add line m
  rw [Memory.granted, Bool.and_eq_true] at hm
  rw [if_neg hline, if_pos hm.1, Prod.mk.injEq] at heq
  have hnodup : (s.keys ++ [line]).Nodup := nodup_append.mpr ⟨h.nodup, nodup_singleton _,
    fun a ha b hb hab => hline (mem_singleton.mp hb ▸ hab ▸ ha)⟩
  rw [add]
  rw [if_neg (by omega), hm.2]
  have hnewest := h.bounded.data_eq_newest line
  rcases lt_or_eq_of_le h.bounded.size_le with hroom | hfull
  · obtain ⟨list', hadd, hb, hmax, hdata⟩ := h.bounded.addData_room hroom line
      (f := free) (s.store.add line (some line) m.calloc m.strdup).2
    rw [if_neg (Nat.ne_of_lt hroom)] at hnewest
    rw [hadd, if_neg Nat.one_ne_zero]
    refine ⟨rfl, ⟨hwf, hb, fun key => ?_, ?_⟩, hmax, hdata.trans hnewest.symm⟩
    · rw [heq.2, keys, hdata, Function.update_apply, h.toMap, keys]
      by_cases hkey : key = line
      · simp [hkey]
      · simp [hkey]
    · rw [keys, hdata]
      exact hnodup
  · obtain ⟨old, list', hadd, hb, hmax, hhead, hdata⟩ := h.bounded.addData_full hfull line
      (f := free) (s.store.add line (some line) m.calloc m.strdup).2
    rw [if_pos hfull] at hnewest
    rw [hadd, if_neg Nat.one_ne_zero]
    obtain ⟨rest, hkeys⟩ : ∃ rest, s.keys = old :: rest := by
      obtain ⟨rest, hrest⟩ := head?_eq_some_iff.mp hhead
      exact ⟨rest, hrest⟩
    rw [hkeys, cons_append] at hnodup
    obtain ⟨hold, hrest⟩ := nodup_cons.mp hnodup
    have hdata' : list'.data = rest ++ [line] := by
      rw [hdata, ← keys, hkeys]
      rfl
    obtain ⟨hwf', heq'⟩ := hwf.delete_spec old
    rw [OSHash.mapDelete, Prod.mk.injEq, heq.2] at heq'
    refine ⟨rfl, ⟨hwf', hb, fun key => ?_, ?_⟩, hmax, hdata.trans hnewest.symm⟩
    · rw [free, heq'.2, keys, hdata', Function.update_apply, Function.update_apply, h.toMap, hkeys]
      by_cases hkey : key = old
      · rw [if_pos hkey, if_neg (hkey ▸ hold)]
      · by_cases hnew : key = line
        · simp [hnew, hnew ▸ hkey]
        · simp [hkey, hnew]
    · rw [keys, hdata']
      exact hrest

/-- What `FTS_Add` and `IG_Add` leave. -/
theorem Agrees.add_spec (h : s.Agrees) (line : Bytes) (m : Memory) :
    (s.add line m).2.Agrees ∧ (s.add line m).2.list.max_size = s.list.max_size ∧
      ((s.add line m).1 = 1 ↔ line ∉ s.keys ∧ m.granted) ∧
      ((s.add line m).1 = 0 ↔ line ∈ s.keys ∨ m.granted = false) ∧
      (s.add line m).2.keys =
        if m.granted then remember s.list.max_size s.keys line else s.keys := by
  by_cases hnew : line ∉ s.keys ∧ m.granted
  · obtain ⟨hret, hagrees, hmax, hkeys⟩ := h.add_eq_one hnew.1 hnew.2
    refine ⟨hagrees, hmax, by simp [hret, hnew], by simp [hret, hnew], ?_⟩
    rw [hkeys, if_pos hnew.2, remember_of_notMem hnew.1]
  · have hno : line ∈ s.keys ∨ m.granted = false := by
      rw [not_and_or, not_not, Bool.not_eq_true] at hnew
      exact hnew
    obtain ⟨hret, hagrees, hlist⟩ := h.add_eq_zero hno
    refine ⟨hagrees, by rw [hlist], by simp [hret, hnew], by simp [hret, hno], ?_⟩
    rw [keys, hlist]
    split_ifs with hgranted
    · have hline : line ∈ s.keys := hno.resolve_right (by simp [hgranted])
      rw [remember_of_mem hline, keys]
    · rfl

end Store

/-! ## The module -/

/-- What `internal_options.conf` gives, within the bounds that `getDefine_Int` checks. -/
structure Config where
  fts_list_size : ℕ
  fts_min_size_for_str : ℕ
  fts_store_size : ℕ
  ig_list_size : ℕ
  list_size : 12 ≤ fts_list_size ∧ fts_list_size ≤ 512
  min_size : 6 ≤ fts_min_size_for_str ∧ fts_min_size_for_str ≤ 128
  store_size : 1024 ≤ fts_store_size ∧ fts_store_size ≤ 1000000
  ig_size : 128 ≤ ig_list_size ∧ ig_list_size ≤ 1048576

/-- The variables of `fts.c`, and the bytes of `FTS_QUEUE` and `IG_QUEUE`. -/
structure State where
  fts_minsize_for_str : ℕ
  fts_store_size : ℕ
  ig_list_size : ℕ
  fts_list : OSList Bytes
  fts : Store
  ig : Store
  fts_file_lines : ℕ
  ig_file_lines : ℕ
  fp_list : Bytes
  fp_ignore : Bytes

/-- `OS_StrHowClosedMatch` -/
def strHowClosedMatch : Bytes → Bytes → ℕ
  | a :: str1, b :: str2 =>
    if a = b then
      if str1.headD 0 ≠ 0 ∧ str2.headD 0 ≠ 0 then strHowClosedMatch str1 str2 + 1 else 1
    else 0
  | [], [] => 1
  | _, _ => 0

/-- The loop of `FTS` over the lines of `fts_list`, newest first. -/
def similarLoop (fts_minsize_for_str : ℕ) (line : Bytes) : List Bytes → ℕ → Bytes
  | [], _ => line
  | data :: rest, number_of_matches =>
    if strHowClosedMatch data line > fts_minsize_for_str then
      if number_of_matches + 1 > 2 then line.take fts_minsize_for_str
      else similarLoop fts_minsize_for_str line rest (number_of_matches + 1)
    else similarLoop fts_minsize_for_str line rest number_of_matches

namespace State

/-- `FTS_Compact` -/
def ftsCompact (s : State) : State :=
  if s.fts_file_lines < 2 * s.fts_store_size then s
  else
    { s with fp_list := unlines s.fts.keys, fts_file_lines := s.fts.list.currentlySize }

/-- `IG_Compact` -/
def igCompact (s : State) : State :=
  if s.ig_file_lines < 2 * s.ig_list_size then s
  else
    { s with fp_ignore := unlines s.ig.keys, ig_file_lines := s.ig.list.currentlySize }

/-- `FTS_Fprintf` -/
def ftsFprintf (s : State) (line : Bytes) : State :=
  ftsCompact { s with
    fp_list := s.fp_list ++ (line ++ [chr '\n'])
    fts_file_lines := s.fts_file_lines + 1 }

/-- `FTS` while it holds `fts_mutex`: the result, and the line that is to be written. -/
def ftsMatch (s : State) (lf : Eventinfo) (m : Memory) : (ℕ × Option Bytes) × State :=
  let line := ftsLine lf
  if (s.fts.store.get line).isSome then ((0, none), s)
  else
    let line :=
      if lf.decoder_info.ids then similarLoop s.fts_minsize_for_str line s.fts_list.data.reverse 0
      else line
    let fts_list :=
      if lf.decoder_info.ids then
        (s.fts_list.addData (fun _ u => u) line m.similar ()).2.1
      else s.fts_list
    let added := s.fts.add line m
    let s := { s with fts_list := fts_list, fts := added.2 }
    if added.1 = 0 then ((0, none), s) else ((1, some line), s)

/-- `AddtoIGnore` -/
def addtoIGnore (s : State) (lf : Eventinfo) (m : Memory) : State :=
  let line := addtoIGnoreLine lf
  let added := s.ig.add line m
  let s := { s with ig := added.2 }
  if added.1 = 0 then s
  else
    igCompact { s with
      fp_ignore := s.fp_ignore ++ (line ++ [chr '\n'])
      ig_file_lines := s.ig_file_lines + 1 }

/-- `IGnore` -/
def iGnore (s : State) (lf : Eventinfo) : ℕ :=
  if (s.ig.store.get (iGnoreLine lf)).isSome then 1 else 0

end State

/-! ## Start -/

/-- The records that `FTS_Init` reads from `FTS_QUEUE`. -/
def ftsRecords (file : Bytes) : List Bytes :=
  ((readLines OS_FLSIZE file).map cut).filter fun line => line != []

/-- The loop that reads the lines of `IG_QUEUE`. -/
def igLinesLoop : ℕ → Bytes → List Bytes
  | 0, _ => []
  | fuel + 1, file =>
    match fgets OS_FLSIZE file with
    | none => []
    | some (line, rest) =>
      if (strchr (chr '\n') line).isSome then cut line :: igLinesLoop fuel rest
      else
        -- longer than one read: the rest of the line is not a record
        str line :: igLinesLoop fuel (rest.dropWhile (· != chr '\n')).tail

/-- The lines of `IG_QUEUE`; a round takes at least one byte of it. -/
def igLines (file : Bytes) : List Bytes := igLinesLoop file.length file

/-- What the random generator gives to a table when it is created and when its size is set. -/
abbrev Secrets := Option (UInt32 × UInt32) × Option (UInt32 × UInt32)

/-- A table of the module. -/
def createTable (secrets : Secrets) : Option (OSHash Bytes) :=
  (OSHash.create secrets.1).bind fun store => store.setSize 2048 secrets.2

/-- `FTS_Init`, when it answers `1`. -/
def ftsInit (cfg : Config) (fts ig : Secrets) (fts_queue ig_queue : Bytes) : Option State :=
  (createTable fts).bind fun fts_store => (createTable ig).map fun ig_store =>
    let load (store : Store) (records : List Bytes) : Store :=
      records.foldl (fun store line => (store.add line {}).2) store
    let s : State := {
      fts_minsize_for_str := cfg.fts_min_size_for_str
      fts_store_size := cfg.fts_store_size
      ig_list_size := cfg.ig_list_size
      fts_list := (OSList.setMaxSize {} cfg.fts_list_size).2
      fts := load ⟨fts_store, (OSList.setMaxSize {} cfg.fts_store_size).2⟩ (ftsRecords fts_queue)
      ig := load ⟨ig_store, (OSList.setMaxSize {} cfg.ig_list_size).2⟩
        ((igLines ig_queue).filter fun line => line != [])
      fts_file_lines := (ftsRecords fts_queue).length
      ig_file_lines := (igLines ig_queue).length
      fp_list := fts_queue
      fp_ignore := ig_queue }
    s.ftsCompact.igCompact

/-! ## Runs -/

/-- The module while events are matched: the lines that `FTS` calls have still to hand over, and
the queue of the thread that writes them. -/
structure System where
  state : State
  handed : List Bytes
  writer_queue_fts : List Bytes

inductive Label
  /-- `FTS` holds the lock, and answers `result`. -/
  | fts (lf : Eventinfo) (m : Memory) (result : ℕ)
  /-- One of the calls puts its line into the queue. -/
  | push (i : ℕ)
  /-- One of the calls finds the queue full, and writes its line. -/
  | sync (i : ℕ)
  /-- The writer thread writes a line. -/
  | write
  | addtoIGnore (lf : Eventinfo) (m : Memory)
  | iGnore (lf : Eventinfo) (result : ℕ)

/-- The steps, in whatever order the threads take them. -/
inductive Step : System → Label → System → Prop
  | fts (σ : System) (lf : Eventinfo) (m : Memory) :
      Step σ (.fts lf m (σ.state.ftsMatch lf m).1.1)
        { σ with
          state := (σ.state.ftsMatch lf m).2
          handed := σ.handed ++ (σ.state.ftsMatch lf m).1.2.toList }
  | push {σ : System} {i : ℕ} {line : Bytes} : σ.handed[i]? = some line →
      Step σ (.push i)
        { σ with
          handed := σ.handed.eraseIdx i
          writer_queue_fts := σ.writer_queue_fts ++ [line] }
  | sync {σ : System} {i : ℕ} {line : Bytes} : σ.handed[i]? = some line →
      Step σ (.sync i)
        { σ with state := σ.state.ftsFprintf line, handed := σ.handed.eraseIdx i }
  | write {σ : System} {line : Bytes} {rest : List Bytes} : σ.writer_queue_fts = line :: rest →
      Step σ .write
        { σ with state := σ.state.ftsFprintf line, writer_queue_fts := rest }
  | addtoIGnore (σ : System) (lf : Eventinfo) (m : Memory) :
      Step σ (.addtoIGnore lf m) { σ with state := σ.state.addtoIGnore lf m }
  | iGnore (σ : System) (lf : Eventinfo) : Step σ (.iGnore lf (σ.state.iGnore lf)) σ

/-! ## Similar lines -/

variable {s : State} {lf : Eventinfo} {m : Memory}

/-- The key that `FTS` would store: for an IDS decoder with more than two recent similar lines, the
start of the line. -/
def storedKey (s : State) (lf : Eventinfo) : Bytes :=
  let similar := s.fts_list.data.filter fun data =>
    strHowClosedMatch data (ftsLine lf) > s.fts_minsize_for_str
  if lf.decoder_info.ids ∧ 2 < similar.length then (ftsLine lf).take s.fts_minsize_for_str
  else ftsLine lf

theorem similarLoop_eq (n : ℕ) (line : Bytes) (l : List Bytes) {k : ℕ} (hk : k ≤ 2) :
    similarLoop n line l k =
      if 2 < k + (l.filter fun data => strHowClosedMatch data line > n).length then line.take n
      else line := by
  induction l generalizing k with
  | nil => rw [similarLoop, filter_nil, length_nil, if_neg (by omega)]
  | cons data rest ih =>
    rw [similarLoop]
    by_cases hsim : strHowClosedMatch data line > n
    · rw [if_pos hsim, filter_cons_of_pos (by simpa using hsim), length_cons]
      split_ifs with hmany hlong hlong
      · rfl
      · omega
      · rw [ih (by omega), if_pos (by omega)]
      · rw [ih (by omega), if_neg (by omega)]
    · rw [if_neg hsim, filter_cons_of_neg (by simpa using hsim)]
      exact ih hk

theorem similarLoop_storedKey (s : State) (lf : Eventinfo) :
    (if lf.decoder_info.ids then
      similarLoop s.fts_minsize_for_str (ftsLine lf) s.fts_list.data.reverse 0
    else ftsLine lf) = storedKey s lf := by
  rw [storedKey]
  cases lf.decoder_info.ids with
  | false => simp
  | true =>
    rw [if_pos rfl, similarLoop_eq _ _ _ (Nat.zero_le 2), filter_reverse, length_reverse]
    simp

/-! ## The stores of a run -/

/-- The two stores agree with their lists, whose sizes are those of the configuration. -/
structure Ready (cfg : Config) (s : State) : Prop where
  fts : s.fts.Agrees
  ig : s.ig.Agrees
  fts_size : s.fts.list.max_size = cfg.fts_store_size
  ig_size : s.ig.list.max_size = cfg.ig_list_size
  minsize : s.fts_minsize_for_str = cfg.fts_min_size_for_str
  store_size : s.fts_store_size = cfg.fts_store_size
  list_size : s.ig_list_size = cfg.ig_list_size

variable {cfg : Config}

/-- What `FTS` answers and keeps. -/
theorem Ready.ftsMatch_spec (h : Ready cfg s) (lf : Eventinfo) (m : Memory) :
    Ready cfg (s.ftsMatch lf m).2 ∧
      ((s.ftsMatch lf m).1.1 = 1 ↔
        ftsLine lf ∉ s.fts.keys ∧ storedKey s lf ∉ s.fts.keys ∧ m.granted) ∧
      (s.ftsMatch lf m).1.2 =
        (if (s.ftsMatch lf m).1.1 = 1 then some (storedKey s lf) else none) ∧
      (s.ftsMatch lf m).2.fts.keys =
        (if (s.ftsMatch lf m).1.1 = 1 then
          newest cfg.fts_store_size (s.fts.keys ++ [storedKey s lf])
        else s.fts.keys) ∧
      (s.ftsMatch lf m).2.ig = s.ig := by
  rw [State.ftsMatch]
  have hget := h.fts.isSome_get (ftsLine lf)
  by_cases hfull : ftsLine lf ∈ s.fts.keys
  · rw [if_pos (hget.mpr hfull)]
    simp [hfull, h]
  · rw [if_neg (mt hget.mp hfull), similarLoop_storedKey]
    obtain ⟨hagrees, hmax, hone, hzero, hkeys⟩ := h.fts.add_spec (storedKey s lf) m
    by_cases hnew : storedKey s lf ∉ s.fts.keys ∧ m.granted
    · rw [if_neg (by rw [hone.mpr hnew]; exact one_ne_zero)]
      refine ⟨{ h with fts := hagrees, fts_size := hmax.trans h.fts_size }, ?_, rfl, ?_, rfl⟩
      · simp [hfull, hnew]
      · rw [hkeys, if_pos hnew.2, remember_of_notMem hnew.1, h.fts_size]
        rfl
    · have hno : storedKey s lf ∈ s.fts.keys ∨ m.granted = false := by
        rw [not_and_or, not_not, Bool.not_eq_true] at hnew
        exact hnew
      rw [if_pos (hzero.mpr hno)]
      refine ⟨{ h with fts := hagrees, fts_size := hmax.trans h.fts_size }, ?_, rfl, ?_, rfl⟩
      · simp only [zero_ne_one, false_iff]
        exact fun hall => hnew hall.2
      · rw [hkeys]
        simp only [zero_ne_one, if_false]
        split_ifs with hgranted
        · exact remember_of_mem (hno.resolve_right (by simp [hgranted]))
        · rfl

theorem Ready.ftsCompact (h : Ready cfg s) : Ready cfg s.ftsCompact := by
  rw [State.ftsCompact]
  split_ifs
  · exact h
  · exact { h with }

theorem Ready.igCompact (h : Ready cfg s) : Ready cfg s.igCompact := by
  rw [State.igCompact]
  split_ifs
  · exact h
  · exact { h with }

theorem State.ftsCompact_stores (s : State) : s.ftsCompact.fts = s.fts ∧ s.ftsCompact.ig = s.ig := by
  rw [State.ftsCompact]
  split_ifs <;> exact ⟨rfl, rfl⟩

theorem State.igCompact_stores (s : State) : s.igCompact.fts = s.fts ∧ s.igCompact.ig = s.ig := by
  rw [State.igCompact]
  split_ifs <;> exact ⟨rfl, rfl⟩

theorem Ready.ftsFprintf (h : Ready cfg s) (line : Bytes) : Ready cfg (s.ftsFprintf line) :=
  Ready.ftsCompact { h with }

/-- What `AddtoIGnore` keeps. -/
theorem Ready.addtoIGnore_spec (h : Ready cfg s) (lf : Eventinfo) (m : Memory) :
    Ready cfg (s.addtoIGnore lf m) ∧ (s.addtoIGnore lf m).fts = s.fts ∧
      (s.addtoIGnore lf m).ig.keys =
        if addtoIGnoreLine lf ∉ s.ig.keys ∧ m.granted then
          newest cfg.ig_list_size (s.ig.keys ++ [addtoIGnoreLine lf])
        else s.ig.keys := by
  obtain ⟨hagrees, hmax, hone, hzero, hkeys⟩ := h.ig.add_spec (addtoIGnoreLine lf) m
  rw [State.addtoIGnore]
  by_cases hnew : addtoIGnoreLine lf ∉ s.ig.keys ∧ m.granted
  · rw [if_neg (by rw [hone.mpr hnew]; exact one_ne_zero), if_pos hnew]
    refine ⟨Ready.igCompact { h with ig := hagrees, ig_size := hmax.trans h.ig_size },
      (State.igCompact_stores _).1, ?_⟩
    rw [(State.igCompact_stores _).2]
    change (s.ig.add (addtoIGnoreLine lf) m).2.keys = _
    rw [hkeys, if_pos hnew.2, remember_of_notMem hnew.1, h.ig_size]
  · have hno : addtoIGnoreLine lf ∈ s.ig.keys ∨ m.granted = false := by
      rw [not_and_or, not_not, Bool.not_eq_true] at hnew
      exact hnew
    rw [if_pos (hzero.mpr hno), if_neg hnew]
    refine ⟨{ h with ig := hagrees, ig_size := hmax.trans h.ig_size }, rfl, ?_⟩
    change (s.ig.add (addtoIGnoreLine lf) m).2.keys = _
    rw [hkeys]
    split_ifs with hgranted
    · exact remember_of_mem (hno.resolve_right (by simp [hgranted]))
    · rfl

/-! ## Start -/

theorem agrees_createTable {secrets : Secrets} {store : OSHash Bytes}
    (h : createTable secrets = some store) {max_size : ℕ} (hmax : 2 ≤ max_size) :
    Store.Agrees ⟨store, (OSList.setMaxSize {} max_size).2⟩ ∧
      (OSList.setMaxSize ({} : OSList Bytes) max_size).2.max_size = max_size ∧
      Store.keys ⟨store, (OSList.setMaxSize {} max_size).2⟩ = [] := by
  obtain ⟨t, hcreate, hsize⟩ := bind_eq_some_iff.mp h
  obtain ⟨hwf, hmap⟩ := OSHash.wellFormed_of_empty ((OSHash.Sized.create hcreate).setSize hsize).table_eq
  have hlist : (OSList.setMaxSize ({} : OSList Bytes) max_size).2 = { max_size := max_size } := by
    rw [OSList.setMaxSize, if_neg (by omega)]
  rw [hlist]
  refine ⟨⟨hwf, ⟨hmax, Nat.zero_le _⟩, fun key => ?_, nodup_nil⟩, rfl, rfl⟩
  rw [hmap]
  rfl

theorem Store.Agrees.load {store : Store} (h : store.Agrees) (records : List Bytes) :
    (records.foldl (fun store line => (store.add line {}).2) store).Agrees ∧
      (records.foldl (fun store line => (store.add line {}).2) store).list.max_size =
        store.list.max_size ∧
      (records.foldl (fun store line => (store.add line {}).2) store).keys =
        replay store.list.max_size store.keys records := by
  induction records generalizing store with
  | nil => exact ⟨h, rfl, rfl⟩
  | cons line records ih =>
    obtain ⟨hagrees, hmax, -, -, hkeys⟩ := h.add_spec line {}
    obtain ⟨hagrees', hmax', hkeys'⟩ := ih hagrees
    refine ⟨hagrees', hmax'.trans hmax, hkeys'.trans ?_⟩
    rw [hmax, hkeys]
    rfl

/-- What `FTS_Init` has read when it compacts the files. -/
structure Loaded (cfg : Config) (s : State) (fts_queue ig_queue : Bytes) : Prop where
  ready : Ready cfg s
  fts_keys : s.fts.keys = replay cfg.fts_store_size [] (ftsRecords fts_queue)
  ig_keys : s.ig.keys = replay cfg.ig_list_size [] ((igLines ig_queue).filter fun line => line != [])
  fp_list : s.fp_list = fts_queue
  fp_ignore : s.fp_ignore = ig_queue
  fts_file_lines : s.fts_file_lines = (ftsRecords fts_queue).length
  ig_file_lines : s.ig_file_lines = (igLines ig_queue).length

theorem exists_loaded {fts ig : Secrets} {fts_queue ig_queue : Bytes}
    (h : ftsInit cfg fts ig fts_queue ig_queue = some s) :
    ∃ s', Loaded cfg s' fts_queue ig_queue ∧ s = s'.ftsCompact.igCompact := by
  obtain ⟨fts_store, hfts, h⟩ := bind_eq_some_iff.mp h
  obtain ⟨ig_store, hig, rfl⟩ := map_eq_some_iff.mp h
  have hstore : 2 ≤ cfg.fts_store_size := le_trans (by decide) cfg.store_size.1
  have hlist : 2 ≤ cfg.ig_list_size := le_trans (by decide) cfg.ig_size.1
  obtain ⟨hfts, hftsmax, hftskeys⟩ := agrees_createTable hfts hstore
  obtain ⟨hig, higmax, higkeys⟩ := agrees_createTable hig hlist
  obtain ⟨hfts, hftsmax', hftskeys'⟩ := hfts.load (ftsRecords fts_queue)
  obtain ⟨hig, higmax', higkeys'⟩ := hig.load ((igLines ig_queue).filter fun line => line != [])
  refine ⟨_, {
    ready := {
      fts := hfts
      ig := hig
      fts_size := hftsmax'.trans hftsmax
      ig_size := higmax'.trans higmax
      minsize := rfl
      store_size := rfl
      list_size := rfl }
    fts_keys := hftskeys'.trans (by rw [hftskeys]; exact congrArg (replay · _ _) hftsmax)
    ig_keys := higkeys'.trans (by rw [higkeys]; exact congrArg (replay · _ _) higmax)
    fp_list := rfl
    fp_ignore := rfl
    fts_file_lines := rfl
    ig_file_lines := rfl }, rfl⟩

theorem ready_ftsInit {fts ig : Secrets} {fts_queue ig_queue : Bytes}
    (h : ftsInit cfg fts ig fts_queue ig_queue = some s) :
    Ready cfg s ∧ s.fts.keys = replay cfg.fts_store_size [] (ftsRecords fts_queue) ∧
      s.ig.keys =
        replay cfg.ig_list_size [] ((igLines ig_queue).filter fun line => line != []) := by
  obtain ⟨s', hloaded, rfl⟩ := exists_loaded h
  refine ⟨hloaded.ready.ftsCompact.igCompact, ?_, ?_⟩
  · rw [(State.igCompact_stores _).1, (State.ftsCompact_stores _).1, hloaded.fts_keys]
  · rw [(State.igCompact_stores _).2, (State.ftsCompact_stores _).2, hloaded.ig_keys]

theorem Ready.step {σ σ' : System} {l : Label} (h : Ready cfg σ.state) (hstep : Step σ l σ') :
    Ready cfg σ'.state := by
  cases hstep with
  | fts lf m => exact (h.ftsMatch_spec lf m).1
  | push _ => exact h
  | sync _ => exact h.ftsFprintf _
  | write _ => exact h.ftsFprintf _
  | addtoIGnore lf m => exact (h.addtoIGnore_spec lf m).1
  | iGnore lf => exact h

theorem Ready.run {σ σ' : System} {ls : List Label} (h : Ready cfg σ.state)
    (hrun : Run Step σ ls σ') : Ready cfg σ'.state := by
  have hkeep : ∀ σ l σ', Ready cfg σ.state → Step σ l σ' → Ready cfg σ'.state :=
    fun _ _ _ h hstep => h.step hstep
  exact hrun.invariant hkeep h

/-! ## Agreement -/

/-- The smallest sizes. -/
def smallest : Config where
  fts_list_size := 12
  fts_min_size_for_str := 6
  fts_store_size := 1024
  ig_list_size := 128
  list_size := by decide
  min_size := by decide
  store_size := by decide
  ig_size := by decide

def login : Eventinfo where
  decoder_info := { name := some (lit "sshd"), fts := FTS_DSTUSER ||| FTS_SRCIP }
  dstuser := some (lit "root")
  srcip := some (lit "10.0.0.1")
  location := lit "/var/log/auth.log"

theorem isSome_ftsInit (cfg : Config) (a b c d : UInt32 × UInt32) (fts_queue ig_queue : Bytes) :
    (ftsInit cfg (some a, some b) (some c, some d) fts_queue ig_queue).isSome := by
  have htable : ∀ a b, (createTable (some a, some b)).isSome := fun a b => by
    obtain ⟨t, ht⟩ := isSome_iff_exists.mp (OSHash.isSome_create (α := Bytes) a)
    rw [createTable, ht]
    exact OSHash.isSome_setSize t 2048 b
  obtain ⟨fts_store, hfts⟩ := isSome_iff_exists.mp (htable a b)
  obtain ⟨ig_store, hig⟩ := isSome_iff_exists.mp (htable c d)
  rw [ftsInit, hfts, hig]
  rfl

end Fts
