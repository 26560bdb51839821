import OssecHids.Analysisd.Syscheck.Rows

/-!
# Index and file

As long as every row that is written is one line of the file, the index in memory is the one that
`DB_BuildIndex` makes of the file, and searching the file gives what the index gives.

- `holds_store`: what one message does to an agent's database;
- `run_consistent`: index, rows and restarts;
- `run_searchFile_eq`: the linear search.
-/

open CString FimSum RowLog Transition List Option Function

namespace Syscheck

/-! ## Conditions -/

/-- The prefix of the row that a file has, as far as the manager knows. -/
def storedPrefix (agent : Agent) (f_name : Bytes) : Option Bytes :=
  (agent.index.getD (dbBuildIndex agent.file) f_name).bind Entry.prefix_sum

/-- The sum that is stored if a row is written. -/
def keptSum (stored : Option Bytes) (c_sum : Bytes) : Bytes :=
  match stored with
  | none => c_sum
  | some buf => fimSumKeepHashes 6145 (savedSum buf) c_sum

/-- A row is written: the file is new, or its sum differs, and not from one that is ignored since
it changes too often. -/
def Writes (cfg : Config) (lf : Eventinfo) (stored : Option Bytes) (c_sum : Bytes) : Prop :=
  ∀ buf ∈ stored, savedSum buf ≠ keptSum stored c_sum ∧
    (fimSumHasRealChange (savedSum buf) (keptSum stored c_sum) = false ∨ lf.maintenance = true ∨
      (changeDecoder cfg (changeCount buf)).isSome = true)

instance (cfg : Config) (lf : Eventinfo) (stored : Option Bytes) (c_sum : Bytes) :
    Decidable (Writes cfg lf stored c_sum) := inferInstanceAs (Decidable (∀ buf ∈ stored, _ ∧ _))

/-- The marks of a new row. -/
def newMarks (cfg : Config) (lf : Eventinfo) (agent : Agent) : Bytes :=
  if !lf.maintenance && cfg.syscheck_report_new_as_changed && agent.completed then lit "!+++"
  else lit "+++"

/-- The length of a row that is written. -/
def writtenLength (cfg : Config) (lf : Eventinfo) (agent : Agent) (m : Message) : ℕ :=
  (if (storedPrefix agent m.f_name).isSome then 3 else (newMarks cfg lf agent).length) +
    (keptSum (storedPrefix agent m.f_name) m.c_sum).length + (fmtU lf.time).length +
      m.f_name.length + 4

/-- A row that is written for a message is one line, not longer than what `fgets` reads. -/
def MessageOk (cfg : Config) (lf : Eventinfo) (agent : Agent) (m : Message) : Prop :=
  Writes cfg lf (storedPrefix agent m.f_name) m.c_sum →
    chr '\n' ∉ m.c_sum ∧ writtenLength cfg lf agent m < 6144

instance (cfg : Config) (lf : Eventinfo) (agent : Agent) (m : Message) :
    Decidable (MessageOk cfg lf agent m) := inferInstanceAs (Decidable (_ → _ ∧ _))

/-- The step writes nothing but such rows. -/
def LabelOk (cfg : Config) (s : State) : Label → Prop
  | .event lf => ∀ m ∈ parseMessage lf.log, accepts cfg lf.location m = true →
      MessageOk cfg lf (s.agents lf.location) m
  | .restart => True

instance (cfg : Config) (s : State) : ∀ l, Decidable (LabelOk cfg s l)
  | .event lf => inferInstanceAs (Decidable (∀ m ∈ parseMessage lf.log, _ → _))
  | .restart => .isTrue trivial

/-- The steps that write nothing but such rows. -/
def StepOk (cfg : Config) (s : State) (l : Label × Option Alert) (s' : State) : Prop :=
  Step cfg s l s' ∧ LabelOk cfg s l.1

/-! ## What is read of a prefix -/

section Prefix

variable {buf rest : Bytes}

theorem newMarker_append (hlen : 4 ≤ buf.length) (rest : Bytes) :
    newMarker (buf ++ rest) = newMarker buf := strncmpEq_append 4 _ hlen rest

theorem savedSum_append (hlen : 4 ≤ buf.length) (hz : 0 ∉ buf) (rest : Bytes) :
    savedSum (buf ++ 0 :: rest) = savedSum buf := by
  have hk : (if newMarker buf then 4 else 3) ≤ buf.length := by
    split <;> omega
  have hdrop : ∀ b ∈ buf.drop (if newMarker buf then 4 else 3), b ≠ 0 := fun b hb hb0 =>
    hz (hb0 ▸ mem_of_mem_drop hb)
  rw [savedSum, savedSum, newMarker_append hlen, drop_append_of_le_length hk,
    str_append_zero hdrop, str_eq_self hdrop]

theorem changeCount_append (hlen : 4 ≤ buf.length) (rest : Bytes) :
    changeCount (buf ++ rest) = changeCount buf := by
  have hget : ∀ n < 4, ((buf ++ rest).drop n).headD 0 = (buf.drop n).headD 0 := by
    intro n hn
    have hlt : n < buf.length := by omega
    rw [drop_append_of_le_length hlt.le, drop_eq_getElem_cons hlt]
    rfl
  have h0 : (buf ++ rest).headD 0 = buf.headD 0 := hget 0 (by decide)
  rw [changeCount, changeCount, newMarker_append hlen, h0, hget 1 (by decide), hget 2 (by decide)]

theorem dbProcessFoundEntry_append (hlen : 4 ≤ buf.length) (hz : 0 ∉ buf) (rest : Bytes)
    (cfg : Config) (f_name c_sum : Bytes) (lf : Eventinfo) (data : Option Bytes) (fp : Bytes)
    (sdb : Texts) (init_pos : ℕ) :
    dbProcessFoundEntry cfg f_name c_sum lf data fp sdb (buf ++ 0 :: rest) init_pos =
      dbProcessFoundEntry cfg f_name c_sum lf data fp sdb buf init_pos := by
  rw [dbProcessFoundEntry, dbProcessFoundEntry, savedSum_append hlen hz, changeCount_append hlen]

theorem mem_of_mem_savedSum {x : UInt8} (hx : x ∈ savedSum buf) : x ∈ buf :=
  mem_of_mem_drop ((List.takeWhile_prefix _).subset hx)

theorem mem_keptSum {x : UInt8} {c_sum : Bytes} (hx : x ∈ keptSum (some buf) c_sum) :
    x ∈ buf ∨ x ∈ c_sum ∨ x = chr ':' := by
  rw [keptSum] at hx
  exact (mem_fimSumKeepHashes hx).imp_left mem_of_mem_savedSum

theorem keptSum_ne_nil {c_sum : Bytes} (hsum : c_sum ≠ []) : keptSum (some buf) c_sum ≠ [] := by
  exact fimSumKeepHashes_ne_nil hsum

end Prefix

/-! ## Processing a row -/

section Process

variable {cfg : Config} {lf : Eventinfo} {f_name c_sum buf fp : Bytes} {data : Option Bytes}
  {sdb : Texts} {pos : ℕ}

/-- What can stand in front of a stored sum. -/
def IsMarks (marks : Bytes) : Prop :=
  (marks.headD 0 = chr '+' ∨ marks.headD 0 = chr '!') ∧ 3 ≤ marks.length ∧
    chr ' ' ∉ marks ∧ chr '\n' ∉ marks ∧ 0 ∉ marks

theorem isMarks_changeMarks (p : ℕ) : IsMarks (changeMarks p) := by
  have hcases : changeMarks p = lit "!++" ∨ changeMarks p = lit "!!+" ∨ changeMarks p = lit "!!!" ∨
      changeMarks p = lit "!!?" := by
    rcases p with _ | _ | _ | p
    · exact .inl rfl
    · exact .inr (.inl rfl)
    · exact .inr (.inr (.inl rfl))
    · refine .inr (.inr (.inr ?_))
      rw [changeMarks, if_pos (by omega), if_neg (by omega), if_pos (by omega)]
      rfl
  rcases hcases with h | h | h | h
  all_goals
    rw [h]
    unfold IsMarks
    decide

theorem isMarks_newMarks (cfg : Config) (lf : Eventinfo) (agent : Agent) :
    IsMarks (newMarks cfg lf agent) := by
  rw [newMarks]
  split
  all_goals
    unfold IsMarks
    decide

theorem isMarks_quiet : IsMarks (lit "+++") := by
  unfold IsMarks
  decide

/-- A row is left as it is, or replaced by one for the sum that is kept. -/
theorem dbProcessFoundEntry_cases (cfg : Config) (f_name c_sum : Bytes) (lf : Eventinfo)
    (data : Option Bytes) (fp : Bytes) (sdb : Texts) (buf : Bytes) (pos : ℕ) :
    let found := dbProcessFoundEntry cfg f_name c_sum lf data fp sdb buf pos
    (found.file = fp ∧ found.entry = none) ∨
      Writes cfg lf (some buf) c_sum ∧ ∃ marks, IsMarks marks ∧ marks.length = 3 ∧
        (found.file, found.entry) =
          let (file, entry) := replaceRow fp pos (marks ++ keptSum (some buf) c_sum) f_name lf.time
          (file, some entry) := by
  intro found
  have hfound : found = dbProcessFoundEntry cfg f_name c_sum lf data fp sdb buf pos := rfl
  rw [dbProcessFoundEntry] at hfound
  dsimp only at hfound
  have hwrites : ∀ {r}, savedSum buf ≠ keptSum (some buf) c_sum → r →
      (r → fimSumHasRealChange (savedSum buf) (keptSum (some buf) c_sum) = false ∨
        lf.maintenance = true ∨ (changeDecoder cfg (changeCount buf)).isSome = true) →
      Writes cfg lf (some buf) c_sum := by
    intro r hne hr himp buf' hbuf'
    obtain rfl := some.inj hbuf'
    exact ⟨hne, himp hr⟩
  split at hfound
  case isTrue =>
    rw [hfound]
    exact .inl ⟨rfl, rfl⟩
  case isFalse hne =>
    split at hfound
    case isTrue hquiet =>
      rw [hfound]
      refine .inr ⟨hwrites hne (Bool.not_eq_true' _ |>.mp hquiet) .inl, lit "+++",
        isMarks_quiet, rfl, rfl⟩
    case isFalse =>
      split at hfound
      case isTrue hmaintenance =>
        rw [hfound]
        exact .inr ⟨hwrites hne hmaintenance fun h => .inr (.inl h), lit "+++",
          isMarks_quiet, rfl, rfl⟩
      case isFalse =>
        split at hfound
        case h_1 =>
          rw [hfound]
          exact .inl ⟨rfl, rfl⟩
        case h_2 dec hdec =>
          rw [hfound]
          exact .inr ⟨hwrites hne hdec fun h => .inr (.inr (by rw [h]; rfl)),
            changeMarks (changeCount buf), isMarks_changeMarks _, rfl, rfl⟩

end Process

/-! ## The database of an agent -/

/-- What the file and the index of an agent hold. -/
structure Holds (agent : Agent) (rows : List DbRow) : Prop where
  file : agent.file = dbFile rows
  rowOk : ∀ r ∈ rows, RowOk r.key r.value
  unique : UniqueLive rows
  index : agent.index = none ∨ agent.index = some (rowIndex rows)
  complete : agent.index_incomplete = false

section Holds

variable {cfg : Config} {lf : Eventinfo} {f_name c_sum : Bytes} {data : Option Bytes}
  {sdb : Texts} {agent : Agent} {rows : List DbRow}

theorem Holds.build_index (h : Holds agent rows) : agent.build.index = some (rowIndex rows) := by
  have hbuild : dbBuildIndex agent.file = rowIndex rows := by
    rw [h.file, dbBuildIndex_dbFile h.rowOk]
  rcases h.index with hindex | hindex
  · rw [Agent.build, hindex, hbuild]
    rfl
  · rw [Agent.build, hindex]
    rfl

theorem Holds.storedPrefix (h : Holds agent rows) (f_name : Bytes) :
    storedPrefix agent f_name = (lastLive rowText f_name 0 rows).map fun (_, row) => row.1 := by
  have hindex : agent.index.getD (dbBuildIndex agent.file) = rowIndex rows :=
    some.inj h.build_index
  rw [Syscheck.storedPrefix, hindex, rowIndex]
  cases lastLive rowText f_name 0 rows <;> rfl

theorem mem_of_lastLive {pos p : ℕ} {row : Bytes × ℕ}
    (h : lastLive rowText f_name pos rows = some (p, row)) :
    ∃ r ∈ rows, r.key = f_name ∧ r.value = row := by
  induction rows generalizing pos with
  | nil => cases h
  | cons r rows ih =>
    rw [lastLive, or_eq_some_iff] at h
    rcases h with h | ⟨-, h⟩
    · obtain ⟨r', hr', hkey, hvalue⟩ := ih h
      exact ⟨r', mem_cons_of_mem _ hr', hkey, hvalue⟩
    · split at h
      case isTrue hr =>
        obtain ⟨-, rfl⟩ := Prod.mk.inj (some.inj h)
        exact ⟨r, mem_cons_self, hr.2, rfl⟩
      case isFalse => cases h

theorem Holds.rowOk_of_lastLive (h : Holds agent rows) {p : ℕ} {row : Bytes × ℕ}
    (hfind : lastLive rowText f_name 0 rows = some (p, row)) : RowOk f_name row := by
  obtain ⟨r, hr, rfl, rfl⟩ := mem_of_lastLive hfind
  exact h.rowOk r hr

/-- The search in the index: a row is processed, or added. -/
theorem Holds.dbSearch (h : Holds agent rows) (cfg : Config) (f_name c_sum : Bytes)
    (lf : Eventinfo) (data : Option Bytes) (sdb : Texts) :
    dbSearch cfg f_name c_sum lf data agent.build sdb =
      match lastLive rowText f_name 0 rows with
      | none => dbAddEntry cfg f_name c_sum lf agent.build sdb
      | some (pos, row) =>
        dbProcessFoundEntry cfg f_name c_sum lf data agent.file sdb row.1 pos := by
  have hentry : agent.build.index.bind (fun index => index f_name) =
      (lastLive rowText f_name 0 rows).map fun (pos, row) => (⟨pos, some row.1⟩ : Entry) := by
    rw [h.build_index]
    rfl
  have hincomplete : agent.build.index_incomplete = false := h.complete
  have hbuilt : agent.build.index.isNone = false := by
    rfl
  rw [Syscheck.dbSearch, hentry]
  cases hfind : lastLive rowText f_name 0 rows with
  | none =>
    dsimp only [map_none]
    rw [hbuilt, hincomplete]
    rfl
  | some found =>
    obtain ⟨pos, row⟩ := found
    have hok := h.rowOk_of_lastLive hfind
    have hlen : row.1.length ≤ 6144 := by
      have := hok.length_lt
      rw [length_rowText] at this
      omega
    dsimp only [map_some]
    rw [take_of_length_le hlen]
    rfl

theorem Holds.dbSearchFile (h : Holds agent rows) (cfg : Config) (f_name c_sum : Bytes)
    (lf : Eventinfo) (data : Option Bytes) (sdb : Texts) :
    dbSearchFile cfg f_name c_sum lf data agent.build sdb =
      Syscheck.dbSearch cfg f_name c_sum lf data agent.build sdb := by
  have hfile : agent.build.file = dbFile rows := h.file
  rw [h.dbSearch, Syscheck.dbSearchFile, dbSearchLinear, hfile, readLines_dbFile h.rowOk,
    ← firstLive_eq_lastLive h.unique]
  rcases dbSearchLines_dbFile h.rowOk f_name 0 with
    ⟨hlines, hfirst⟩ | ⟨pos, row, rest, hok, hfirst, hlines⟩
  · rw [hlines, hfirst]
    rfl
  · rw [hlines, hfirst]
    dsimp only [map_some]
    rw [dbProcessFoundEntry_append hok.length_prefix hok.prefix_str, h.file]

/-- The parts of a message that gets to a database. -/
structure MessageParts (m : Message) : Prop where
  sum_ne_nil : m.c_sum ≠ []
  sum_no_blank : chr ' ' ∉ m.c_sum
  sum_str : 0 ∉ m.c_sum
  name_no_newline : chr '\n' ∉ m.f_name
  name_str : 0 ∉ m.f_name

theorem messageParts {m : Message} (hm : m ∈ parseMessage lf.log)
    (hacc : accepts cfg lf.location m = true) : MessageParts m := by
  obtain ⟨p, hp, rfl⟩ := map_eq_some_iff.mp hm
  obtain ⟨x, rest, hlog, rfl, hx⟩ := exists_of_strchr_eq_some hp
  have hstr := lf.log_str
  have hsum : lf.log.take (ptrDiff (chr ' ' :: rest) lf.log) = x := by
    rw [hlog, take_ptrDiff]
  rw [hlog, mem_append, not_or, mem_cons, not_or] at hstr
  have hmem : ∀ b ∈ rest.takeWhile (· != chr '\n'), b ∈ rest := fun b hb =>
    (List.takeWhile_prefix _).subset hb
  rw [hsum] at hacc ⊢
  refine ⟨?_, hx, hstr.1, ?_, fun h => hstr.2.2 (hmem 0 h)⟩
  · rintro (rfl : x = [])
    -- an empty sum is neither `-1` nor has it fields
    have hempty : (([] : Bytes) == lit "-1" || (strchr (chr ':') []).isSome) = false := rfl
    rw [accepts] at hacc
    rw [hempty, Bool.and_false, Bool.false_and] at hacc
    exact Bool.false_ne_true hacc
  · intro h
    exact absurd (mem_takeWhile_imp h) (by decide)

/-- The row that is written for a sum is one line. -/
theorem rowOk_of_marks {marks sum : Bytes} {m : Message} (hm : MessageParts m)
    (hmarks : IsMarks marks) (hnil : sum ≠ []) (hblank : chr ' ' ∉ sum)
    (hnewline : chr '\n' ∉ sum) (hstr : 0 ∉ sum) {time : ℕ}
    (hlen : marks.length + sum.length + (fmtU time).length + m.f_name.length + 4 < 6144) :
    RowOk m.f_name (marks ++ sum, time) := by
  obtain ⟨hhead, hthree, hmarks_blank, hmarks_newline, hmarks_str⟩ := hmarks
  have hone := length_pos_of_ne_nil hnil
  refine ⟨?_, ?_, ?_, ?_, ?_, hm.name_no_newline, hm.name_str, ?_⟩
  · cases marks with
    | nil => cases hthree
    | cons b marks => exact hhead
  · rw [length_append]
    omega
  · rw [mem_append, not_or]
    exact ⟨hmarks_blank, hblank⟩
  · rw [mem_append, not_or]
    exact ⟨hmarks_newline, hnewline⟩
  · rw [mem_append, not_or]
    exact ⟨hmarks_str, hstr⟩
  · rw [length_rowText, length_append]
    exact hlen

theorem rowIndex_supersede (f_name : Bytes) (row : Bytes × ℕ) (rows : List DbRow) :
    rowIndex (supersede f_name row rows) =
      Function.update (rowIndex rows) f_name (some ⟨(dbFile rows).length, some row.1⟩) := by
  funext k
  rw [rowIndex, lastLive_supersede (chr '#')]
  by_cases hk : k = f_name
  · rw [if_pos hk, hk, update_self]
    rfl
  · rw [if_neg hk, update_of_ne hk]
    rfl

/-- A new row for a file, in the file and in the index. -/
theorem Holds.supersede (h : Holds agent rows) {f_name : Bytes} {row : Bytes × ℕ}
    (hrow : RowOk f_name row) {found : Found}
    (hfile : found.file = dbFile (RowLog.supersede f_name row rows))
    (hentry : found.entry = some ⟨(dbFile rows).length, some row.1⟩) :
    Holds (agent.build.store f_name found) (RowLog.supersede f_name row rows) where
  file := hfile
  rowOk := by
    intro r hr
    rcases mem_append.mp hr with hr | hr
    · obtain ⟨r', hr', rfl⟩ := mem_map.mp hr
      have hok := h.rowOk r' hr'
      split
      · exact hok
      · exact hok
    · rw [mem_singleton.mp hr]
      exact hrow
  unique := h.unique.supersede f_name row
  index := by
    right
    rw [rowIndex_supersede, ← hentry]
    show setEntry agent.build.index f_name found.entry = _
    rw [h.build_index, hentry]
    rfl
  complete := h.complete

/-- A row that is left as it is. -/
theorem Holds.unchanged (h : Holds agent rows) {f_name : Bytes} {found : Found} {p : ℕ}
    {row : Bytes × ℕ} (hfind : lastLive rowText f_name 0 rows = some (p, row))
    (hfile : found.file = agent.file) (hentry : found.entry = none) :
    Holds (agent.build.store f_name found) rows where
  file := hfile.trans h.file
  rowOk := h.rowOk
  unique := h.unique
  index := by
    right
    show setEntry agent.build.index f_name found.entry = _
    have hsome : rowIndex rows f_name = some ⟨p, some row.1⟩ := by
      rw [rowIndex, hfind]
      rfl
    rw [h.build_index, hentry, setEntry, map_some, hsome]
    dsimp only [getD_none, getD_some]
    rw [← hsome, Function.update_eq_self]
  complete := h.complete

theorem dbAddEntry_eq (cfg : Config) (f_name c_sum : Bytes) (lf : Eventinfo) (agent : Agent)
    (sdb : Texts) :
    (dbAddEntry cfg f_name c_sum lf agent sdb).file =
        agent.file ++ rowText f_name (newMarks cfg lf agent ++ c_sum, lf.time) ∧
      (dbAddEntry cfg f_name c_sum lf agent sdb).entry =
        some ⟨agent.file.length, some (snprintf 6145 (newMarks cfg lf agent ++ c_sum))⟩ := by
  rw [dbAddEntry]
  split
  · exact ⟨rfl, rfl⟩
  · split
    · exact ⟨rfl, rfl⟩
    · exact ⟨rfl, rfl⟩

theorem RowOk.snprintf {f_name : Bytes} {row : Bytes × ℕ} (h : RowOk f_name row) :
    snprintf 6145 row.1 = row.1 := by
  have hlen := h.length_lt
  rw [length_rowText] at hlen
  exact take_of_length_le (by omega)

/-- What a message does to the database of an agent. -/
theorem holds_store (h : Holds agent rows) {m : Message} (hm : MessageParts m)
    (hok : MessageOk cfg lf agent m) (sdb : Texts) :
    ∃ rows', Holds (agent.build.store m.f_name
      (Syscheck.dbSearch cfg m.f_name m.c_sum lf m.data agent.build sdb)) rows' := by
  have hstored := h.storedPrefix m.f_name
  rw [h.dbSearch]
  rw [MessageOk, writtenLength, hstored] at hok
  cases hfind : lastLive rowText m.f_name 0 rows with
  | none =>
    rw [hfind] at hok
    obtain ⟨hnewline, hlen⟩ := hok fun _ hbuf => absurd hbuf (by simp)
    have hmarks : IsMarks (newMarks cfg lf agent.build) := isMarks_newMarks _ _ _
    have hrow := rowOk_of_marks hm hmarks hm.sum_ne_nil hm.sum_no_blank hnewline hm.sum_str hlen
    obtain ⟨hfile, hentry⟩ := dbAddEntry_eq cfg m.f_name m.c_sum lf agent.build sdb
    have hagent : agent.build.file = dbFile rows := h.file
    refine ⟨_, h.supersede hrow ?_ ?_⟩
    · rw [hfile, hagent]
      exact file_append_new (chr '#') hfind
    · rw [hentry, hagent, hrow.snprintf]
  | some found =>
    obtain ⟨pos, row⟩ := found
    rw [hfind] at hok
    have hrow := h.rowOk_of_lastLive hfind
    rcases dbProcessFoundEntry_cases cfg m.f_name m.c_sum lf m.data agent.file sdb row.1 pos with
      ⟨hfile, hentry⟩ | ⟨hwrites, marks, hmarks, hthree, heq⟩
    · exact ⟨rows, h.unchanged hfind hfile hentry⟩
    · obtain ⟨hnewline, hlen⟩ := hok hwrites
      have hnotMem : ∀ x : UInt8, x ∉ row.1 → x ∉ m.c_sum → x ≠ chr ':' →
          x ∉ keptSum (some row.1) m.c_sum := fun x hx hsum hcolon hmem => by
        rcases mem_keptSum hmem with hsaved | hmem | hmem
        · exact hx hsaved
        · exact hsum hmem
        · exact hcolon hmem
      have hnew : RowOk m.f_name (marks ++ keptSum (some row.1) m.c_sum, lf.time) := by
        apply rowOk_of_marks hm hmarks (keptSum_ne_nil hm.sum_ne_nil)
          (hnotMem _ hrow.prefix_no_blank hm.sum_no_blank (by decide))
          (hnotMem _ hrow.prefix_no_newline hnewline (by decide))
          (hnotMem _ hrow.prefix_str hm.sum_str (by decide))
        rw [hthree]
        exact hlen
      obtain ⟨hfile, hentry⟩ := Prod.mk.inj heq
      have hfiles : pos < (dbFile rows).length ∧ (dbFile rows).set pos (chr '#') ++
          rowText m.f_name (marks ++ keptSum (some row.1) m.c_sum, lf.time) =
            dbFile (RowLog.supersede m.f_name (marks ++ keptSum (some row.1) m.c_sum, lf.time)
              rows) := file_supersede (chr '#') rowText_ne_nil h.unique hfind
      refine ⟨_, h.supersede hnew ?_ ?_⟩
      · rw [hfile, h.file]
        exact hfiles.2
      · rw [hentry, h.file, hnew.snprintf]

end Holds

/-! ## Runs -/

variable {cfg : Config} {s s' t : State} {l : Label × Option Alert} {ls : List (Label × Option Alert)}

/-- Steps that write nothing but rows of one line. -/
def LabelsOk (cfg : Config) : State → List Label → Prop
  | _, [] => True
  | s, l :: ls => LabelOk cfg s l ∧ LabelsOk cfg (step cfg s l).1 ls

instance decidableLabelsOk (cfg : Config) : ∀ s ls, Decidable (LabelsOk cfg s ls)
  | _, [] => .isTrue trivial
  | s, l :: ls =>
    have := decidableLabelsOk cfg (step cfg s l).1 ls
    inferInstanceAs (Decidable (_ ∧ _))

theorem run_of_labelsOk {ls : List Label} (h : LabelsOk cfg s ls) :
    Run (StepOk cfg) s (runLabels cfg s ls).2 (runLabels cfg s ls).1 := by
  induction ls generalizing s with
  | nil => exact .nil s
  | cons l ls ih => exact .cons ⟨rfl, h.1⟩ (ih h.2)

/-- Every database is a log of rows that are lines, with the index for it. -/
def Consistent (s : State) : Prop := ∀ location, ∃ rows, Holds (s.agents location) rows

theorem consistent_init : Consistent init := fun _ =>
  ⟨[], rfl, fun _ hr => absurd hr not_mem_nil, nodup_nil, .inl rfl, rfl⟩

theorem consistent_decodeSyscheck (hs : Consistent s) {lf : Eventinfo}
    (hok : LabelOk cfg s (.event lf)) : Consistent (decodeSyscheck cfg s lf).1 := by
  rw [decodeSyscheck]
  split
  case h_1 =>
    split
    case isTrue =>
      intro location
      obtain ⟨rows, hrows⟩ := hs location
      refine ⟨rows, ?_⟩
      dsimp only
      rw [dbSetCompleted]
      split
      · by_cases hl : location = lf.location
        · subst hl
          rw [update_self]
          exact ⟨hrows.file, hrows.rowOk, hrows.unique, hrows.index, hrows.complete⟩
        · rw [update_of_ne hl]
          exact hrows
      · exact hrows
    case isFalse => exact hs
  case h_2 m hm =>
    split
    case isTrue hacc =>
      intro location
      by_cases hl : location = lf.location
      · subst hl
        obtain ⟨rows, hrows⟩ := hs lf.location
        dsimp only
        rw [update_self]
        exact holds_store hrows (messageParts hm hacc) (hok m hm hacc) s.sdb
      · obtain ⟨rows, hrows⟩ := hs location
        dsimp only
        rw [update_of_ne hl]
        exact ⟨rows, hrows⟩
    case isFalse => exact hs

theorem consistent_restart (hs : Consistent s) : Consistent (restart s) := by
  intro location
  obtain ⟨rows, hrows⟩ := hs location
  exact ⟨rows, hrows.file, hrows.rowOk, hrows.unique, .inl rfl, rfl⟩

theorem consistent_run (h : Run (StepOk cfg) init ls s) : Consistent s := by
  have hstep : ∀ s l s', Consistent s → StepOk cfg s l s' → Consistent s' := by
    rintro s ⟨label, alert⟩ s' hs ⟨hstep, hok⟩
    obtain rfl : (step cfg s label).1 = s' := congrArg Prod.fst hstep
    cases label with
    | event lf => exact consistent_decodeSyscheck hs hok
    | restart => exact consistent_restart hs
  exact h.invariant hstep consistent_init

/-! ## Restarts -/

/-- The file name in a row that is not commented out. -/
def rowName (line : Bytes) : Option Bytes := (dbParseEntryFilename line).map Prod.snd

/-- The names in such rows of a file. -/
def liveNames (fp : Bytes) : List Bytes := (readLines 6144 fp).filterMap rowName

theorem liveNames_dbFile {rows : List DbRow} (h : ∀ r ∈ rows, RowOk r.key r.value) :
    liveNames (dbFile rows) = (rows.filter Row.live).map Row.key := by
  rw [liveNames, readLines_dbFile h]
  induction rows with
  | nil => rfl
  | cons r rows ih =>
    rw [forall_mem_cons] at h
    rw [map_cons, filter_cons]
    by_cases hlive : r.live = true
    · obtain ⟨rest, hparse⟩ := dbParseEntryFilename_rowText h.1
      have hbytes : r.bytes rowText (chr '#') = rowText r.key r.value := if_pos hlive
      have hname : rowName (rowText r.key r.value) = some r.key := by
        rw [rowName, hparse]
        rfl
      rw [hbytes, filterMap_cons_some hname, if_pos hlive, map_cons, ih h.2]
    · have hbytes : r.bytes rowText (chr '#') = (rowText r.key r.value).set 0 (chr '#') :=
        if_neg hlive
      have hname : rowName ((rowText r.key r.value).set 0 (chr '#')) = none := by
        rw [rowName, dbParseEntryFilename_set (rowText_ne_nil _ _)]
        rfl
      rw [hbytes, filterMap_cons_none hname, if_neg hlive, ih h.2]

/-- Whether an event is reported, and by which decoder. -/
def decision (alert : Option Alert) : Option Decoder := alert.map Alert.decoder_info

/-- The decisions on some events that follow each other. -/
def decisions (cfg : Config) : State → List Eventinfo → List (Option Decoder)
  | _, [] => []
  | s, lf :: evs =>
    decision (decodeSyscheck cfg s lf).2 :: decisions cfg (decodeSyscheck cfg s lf).1 evs

/-- The same databases, once they are indexed. -/
def SameStores (s t : State) : Prop :=
  ∀ location, (s.agents location).build = (t.agents location).build

theorem sameStores_restart (hs : Consistent s) : SameStores (restart s) s := by
  intro location
  obtain ⟨rows, hrows⟩ := hs location
  have hindex : some (dbBuildIndex (s.agents location).file) = (s.agents location).build.index := by
    rw [hrows.build_index, hrows.file, dbBuildIndex_dbFile hrows.rowOk]
  show ({ s.agents location with
    index := some (dbBuildIndex (s.agents location).file), index_incomplete := false } : Agent) = _
  rw [hindex, ← hrows.complete]
  rfl

/-- The buffers make no difference to what is stored and decided. -/
theorem dbProcessFoundEntry_congr (cfg : Config) (f_name c_sum : Bytes) (lf : Eventinfo)
    (data : Option Bytes) (fp buf : Bytes) (pos : ℕ) (sdb sdb' : Texts) :
    let found := dbProcessFoundEntry cfg f_name c_sum lf data fp sdb buf pos
    let found' := dbProcessFoundEntry cfg f_name c_sum lf data fp sdb' buf pos
    found.file = found'.file ∧ found.entry = found'.entry ∧
      decision found.alert = decision found'.alert := by
  have halert : ∀ saved_sum c_sum dec,
      (changeAlert f_name saved_sum c_sum data sdb dec).2.decoder_info =
        (changeAlert f_name saved_sum c_sum data sdb' dec).2.decoder_info := fun _ _ _ => by
    rw [changeAlert, changeAlert]
    split
    · rfl
    · split <;> rfl
  rw [dbProcessFoundEntry, dbProcessFoundEntry]
  dsimp only
  split
  · exact ⟨rfl, rfl, rfl⟩
  · split
    · exact ⟨rfl, rfl, rfl⟩
    · split
      · exact ⟨rfl, rfl, rfl⟩
      · cases changeDecoder cfg (changeCount buf) with
        | none => exact ⟨rfl, rfl, rfl⟩
        | some dec => exact ⟨rfl, rfl, congrArg some (halert _ _ dec)⟩

theorem dbAddEntry_congr (cfg : Config) (f_name c_sum : Bytes) (lf : Eventinfo) (agent : Agent)
    (sdb sdb' : Texts) :
    let found := dbAddEntry cfg f_name c_sum lf agent sdb
    let found' := dbAddEntry cfg f_name c_sum lf agent sdb'
    found.file = found'.file ∧ found.entry = found'.entry ∧
      decision found.alert = decision found'.alert := by
  rw [dbAddEntry, dbAddEntry]
  split
  · exact ⟨rfl, rfl, rfl⟩
  · split
    · exact ⟨rfl, rfl, rfl⟩
    · exact ⟨rfl, rfl, rfl⟩

theorem dbSearch_congr (cfg : Config) (f_name c_sum : Bytes) (lf : Eventinfo)
    (data : Option Bytes) (agent : Agent) (sdb sdb' : Texts) :
    let found := dbSearch cfg f_name c_sum lf data agent sdb
    let found' := dbSearch cfg f_name c_sum lf data agent sdb'
    found.file = found'.file ∧ found.entry = found'.entry ∧
      decision found.alert = decision found'.alert := by
  have hadd := dbAddEntry_congr cfg f_name c_sum lf agent sdb sdb'
  have hfile : let found := dbSearchFile cfg f_name c_sum lf data agent sdb
      let found' := dbSearchFile cfg f_name c_sum lf data agent sdb'
      found.file = found'.file ∧ found.entry = found'.entry ∧
        decision found.alert = decision found'.alert := by
    rw [dbSearchFile, dbSearchFile, dbSearchLinear, dbSearchLinear]
    cases dbSearchLines f_name 0 (readLines 6144 agent.file) with
    | none => exact hadd
    | some row => exact dbProcessFoundEntry_congr cfg f_name c_sum lf data agent.file _ _ sdb sdb'
  rw [dbSearch, dbSearch]
  split
  · exact dbProcessFoundEntry_congr cfg f_name c_sum lf data agent.file _ _ sdb sdb'
  · split
    · exact hfile
    · exact hadd

/-- From the same databases a file's event leads to the same decision and the same databases. -/
theorem SameStores.decodeSyscheck (h : SameStores s t) {lf : Eventinfo}
    (hlf : chr ' ' ∈ lf.log) :
    SameStores (decodeSyscheck cfg s lf).1 (decodeSyscheck cfg t lf).1 ∧
      decision (Syscheck.decodeSyscheck cfg s lf).2 =
        decision (Syscheck.decodeSyscheck cfg t lf).2 := by
  obtain ⟨m, hm⟩ : ∃ m, parseMessage lf.log = some m := by
    obtain ⟨x, rest, hlog, hx⟩ := eq_append_cons_of_mem hlf
    have hstr := lf.log_str
    rw [hlog, mem_append, not_or] at hstr
    rw [parseMessage, hlog, strchr_append hx fun b hb hb0 => hstr.1 (hb0 ▸ hb)]
    exact ⟨_, rfl⟩
  rw [Syscheck.decodeSyscheck, Syscheck.decodeSyscheck, hm]
  dsimp only
  split
  case isFalse => exact ⟨h, rfl⟩
  case isTrue =>
    rw [h lf.location]
    obtain ⟨hfile, hentry, hdecision⟩ := dbSearch_congr cfg m.f_name m.c_sum lf m.data
      (t.agents lf.location).build s.sdb t.sdb
    refine ⟨fun location => ?_, hdecision⟩
    by_cases hl : location = lf.location
    · subst hl
      dsimp only
      rw [update_self, update_self, Agent.store, Agent.store, hfile, hentry]
    · dsimp only
      rw [update_of_ne hl, update_of_ne hl]
      exact h location

theorem SameStores.decisions (h : SameStores s t) {evs : List Eventinfo}
    (hevs : ∀ lf ∈ evs, chr ' ' ∈ lf.log) : decisions cfg s evs = decisions cfg t evs := by
  induction evs generalizing s t with
  | nil => rfl
  | cons lf evs ih =>
    rw [forall_mem_cons] at hevs
    obtain ⟨hstores, hdecision⟩ := h.decodeSyscheck hevs.1
    rw [Syscheck.decisions, Syscheck.decisions, hdecision, ih hstores hevs.2]

/-- As long as every row that is written is one line, the index of an agent is the one that would be
built from its file, the file has one live row for a file name, and a restart changes nothing of
what is decided later. -/
theorem run_consistent (cfg : Config) {ls : List (Label × Option Alert)} {s : State}
    (h : Run (StepOk cfg) init ls s) :
    (∀ location, (∀ index, (s.agents location).index = some index →
        index = dbBuildIndex (s.agents location).file) ∧
      (liveNames (s.agents location).file).Nodup) ∧
    ∀ evs : List Eventinfo, (∀ lf ∈ evs, chr ' ' ∈ lf.log) →
      decisions cfg (restart s) evs = decisions cfg s evs := by
  have hs := consistent_run h
  refine ⟨fun location => ?_, fun evs hevs => (sameStores_restart hs).decisions hevs⟩
  obtain ⟨rows, hrows⟩ := hs location
  constructor
  · intro index hindex
    rw [hrows.file, dbBuildIndex_dbFile hrows.rowOk]
    rcases hrows.index with hnone | hsome
    · rw [hnone] at hindex
      exact absurd hindex (by simp)
    · exact some.inj (hindex.symm.trans hsome)
  · rw [hrows.file, liveNames_dbFile hrows.rowOk]
    exact hrows.unique

/-- A file that is added, changed, and added by another agent, with a restart in between. -/
theorem run_consistent_three :
    let ev (location log : String) (h : 0 ∉ lit log) : Label :=
      .event ⟨lit location, lit log, 5, false, h⟩
    let s := (runLabels ⟨true, false, false, []⟩ init
      [ev "syscheck" "1:2:3:4:ab:cd /etc/a b" (by decide), .restart,
        ev "syscheck" "1:2:3:4:ac:xxx /etc/a b" (by decide),
        ev "(a) any->syscheck" "-1 /etc/a b" (by decide)]).1
    (liveNames (s.agents (lit "syscheck")).file).Nodup :=
  ((run_consistent _ (run_of_labelsOk (by decide +kernel))).1 _).2

/-- A checksum with a newline makes two lines of a row: after the first message the index is not
the one of the file, and the same message is reported once more after a restart; after the second
one there are two live rows. -/
theorem run_consistent_newline :
    let cfg : Config := ⟨true, false, false, []⟩
    let lf : Eventinfo := ⟨lit "syscheck", lit "1:2\n:3 a", 5, false, by decide⟩
    let lf' : Eventinfo := ⟨lit "syscheck", lit "1:4 a", 6, false, by decide⟩
    let s := (decodeSyscheck cfg init lf).1
    let t := (decodeSyscheck cfg s lf').1
    Run (Step cfg) init [(.event lf, none)] s ∧
      (∃ index ∈ (s.agents (lit "syscheck")).index,
        index (lit "a") ≠ dbBuildIndex (s.agents (lit "syscheck")).file (lit "a")) ∧
      decisions cfg (restart s) [lf] ≠ decisions cfg s [lf] ∧
      ¬ (liveNames (t.agents (lit "syscheck")).file).Nodup := by
  intro cfg lf lf' s t
  refine ⟨run_runLabels cfg init [.event lf], ?_⟩
  decide +kernel

/-- And whatever comes next, searching the file does what searching the index does. -/
theorem run_searchFile_eq (cfg : Config) {ls : List (Label × Option Alert)} {s : State}
    (h : Run (StepOk cfg) init ls s) (f_name c_sum : Bytes) (lf : Eventinfo)
    (data : Option Bytes) :
    let agent := (s.agents lf.location).build
    dbSearchFile cfg f_name c_sum lf data agent s.sdb =
      dbSearch cfg f_name c_sum lf data agent s.sdb := by
  obtain ⟨rows, hrows⟩ := consistent_run h lf.location
  exact hrows.dbSearchFile cfg f_name c_sum lf data s.sdb

/-- Two names of which one is the beginning of the other, and a row that is commented out. -/
theorem run_searchFile_eq_prefix :
    let ev (log : String) (h : 0 ∉ lit log) : Eventinfo := ⟨lit "syscheck", lit log, 5, false, h⟩
    let cfg : Config := ⟨true, false, false, []⟩
    let s := (runLabels cfg init [.event (ev "1:2:3:4:ab:cd /etc/a b" (by decide)),
      .event (ev "1:2:3:4:ab:cd /etc/a" (by decide)),
      .event (ev "1:2:3:4:ac:cd /etc/a b" (by decide))]).1
    let lf := ev "1:2:3:4:ad:cd /etc/a" (by decide)
    let agent := (s.agents (lit "syscheck")).build
    dbSearchFile cfg (lit "/etc/a") (lit "1:2:3:4:ad:cd") lf none agent s.sdb =
      dbSearch cfg (lit "/etc/a") (lit "1:2:3:4:ad:cd") lf none agent s.sdb :=
  run_searchFile_eq _ (run_of_labelsOk (by decide +kernel)) _ _ _ _

/-- A checksum with a newline: the index has all of it, the search reads what is behind it. -/
theorem run_searchFile_eq_newline :
    let cfg : Config := ⟨true, false, false, []⟩
    let lf : Eventinfo := ⟨lit "syscheck", lit "1:2\n:3 a", 5, false, by decide⟩
    let s := (decodeSyscheck cfg init lf).1
    let agent := (s.agents (lit "syscheck")).build
    Run (Step cfg) init [(.event lf, none)] s ∧
      (dbSearch cfg (lit "a") (lit "1:2\n:3") lf none agent s.sdb).alert = none ∧
      (dbSearchFile cfg (lit "a") (lit "1:2\n:3") lf none agent s.sdb).alert ≠ none := by
  intro cfg lf s agent
  refine ⟨run_runLabels cfg init [.event lf], ?_⟩
  decide +kernel

end Syscheck
