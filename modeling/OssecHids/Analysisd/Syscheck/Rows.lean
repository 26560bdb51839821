import OssecHids.Analysisd.Syscheck.Database
import OssecHids.Lib.RowLog

/-!
# Databases as lists of rows

A database file as a log of rows, each of which is a line of the file. What `DB_BuildIndex` and
`DB_SearchLinear` read from the file is what the log has.

- `dbBuildIndex_dbFile`: the index has the last live row of every file;
- `dbSearchLines_dbFile`: the search finds the first one.
-/

open CString FimSum RowLog List

namespace Syscheck

/-- A row of a database, for a file name: its prefix with the sum, and a time. -/
abbrev DbRow := Row Bytes (Bytes × ℕ)

/-- The file for some rows. -/
def dbFile (rows : List DbRow) : Bytes := RowLog.file rowText (chr '#') rows

/-- A row that is one line of the file, and is read back as it was printed. -/
structure RowOk (f_name : Bytes) (row : Bytes × ℕ) : Prop where
  marked : row.1.headD 0 = chr '+' ∨ row.1.headD 0 = chr '!'
  length_prefix : 4 ≤ row.1.length
  prefix_no_blank : chr ' ' ∉ row.1
  prefix_no_newline : chr '\n' ∉ row.1
  prefix_str : 0 ∉ row.1
  name_no_newline : chr '\n' ∉ f_name
  name_str : 0 ∉ f_name
  length_lt : (rowText f_name row).length < 6144

/-- The index that a list of rows stands for. -/
def rowIndex (rows : List DbRow) : Index := fun f_name =>
  (lastLive rowText f_name 0 rows).map fun (pos, row) => ⟨pos, some row.1⟩

variable {f_name line buf : Bytes} {row : Bytes × ℕ} {rows : List DbRow} {pos : ℕ}

theorem rowText_ne_nil (f_name : Bytes) (row : Bytes × ℕ) : rowText f_name row ≠ [] :=
  append_ne_nil_of_right_ne_nil _ (cons_ne_nil _ _)

theorem length_rowText (f_name : Bytes) (row : Bytes × ℕ) :
    (rowText f_name row).length = row.1.length + (fmtU row.2).length + f_name.length + 4 := by
  simp [rowText]
  omega

/-! ## Lines -/

theorem RowOk.isLine (h : RowOk f_name row) : IsLine 6144 (rowText f_name row) := by
  refine ⟨row.1 ++ (chr ' ' :: chr '!' :: (fmtU row.2 ++ chr ' ' :: f_name)), ?_, ?_, h.length_lt⟩
  · simp [rowText]
  · simp only [mem_append, mem_cons, not_or]
    exact ⟨h.prefix_no_newline, by decide, by decide, notMem_fmtU (by decide), by decide,
      h.name_no_newline⟩

theorem isLine_set (h : IsLine 6144 line) (hlen : 1 < line.length) :
    IsLine 6144 (line.set 0 (chr '#')) := by
  obtain ⟨text, rfl, htext, hlt⟩ := h
  cases text with
  | nil => exact absurd hlen (by simp)
  | cons b text =>
    rw [mem_cons, not_or] at htext
    refine ⟨chr '#' :: text, rfl, ?_, by simpa using hlt⟩
    rw [mem_cons, not_or]
    exact ⟨by decide, htext.2⟩

theorem dbFile_eq_flatten (rows : List DbRow) :
    dbFile rows = (rows.map (Row.bytes rowText (chr '#'))).flatten :=
  flatMap_def

theorem readLines_dbFile (h : ∀ r ∈ rows, RowOk r.key r.value) :
    readLines 6144 (dbFile rows) = rows.map (Row.bytes rowText (chr '#')) := by
  rw [dbFile_eq_flatten]
  apply readLines_flatten
  intro line hline
  obtain ⟨r, hr, rfl⟩ := mem_map.mp hline
  rw [Row.bytes]
  split
  · exact (h r hr).isLine
  · apply isLine_set (h r hr).isLine
    rw [length_rowText]
    omega

/-! ## Parsing -/

theorem take_ptrDiff (x y : Bytes) : (x ++ y).take (ptrDiff y (x ++ y)) = x := by
  have hlen : ptrDiff y (x ++ y) = x.length := by
    rw [ptrDiff, length_append, Nat.add_sub_cancel]
  rw [hlen, take_left]

theorem stripNewline_append (s : Bytes) : stripNewline (s ++ [chr '\n']) = s := by
  rw [stripNewline, getLast?_append_cons]
  simp

/-- What is read from a live row. -/
theorem dbParseEntryFilename_rowText (h : RowOk f_name row) :
    ∃ rest, dbParseEntryFilename (rowText f_name row) = some (row.1 ++ 0 :: rest, f_name) := by
  obtain ⟨prefix_sum, time⟩ := row
  have hz : ∀ {s : Bytes}, 0 ∉ s → ∀ b ∈ s, b ≠ 0 := fun hs b hb hb0 => hs (hb0 ▸ hb)
  have hdigit : ∀ b ∈ fmtU time, b ≠ 0 := hz (notMem_fmtU (by decide))
  have hname : ∀ b ∈ f_name ++ [chr '\n'], b ≠ 0 := by
    intro b hb
    rcases mem_append.mp hb with hb | hb
    · exact hz h.name_str b hb
    · rw [mem_singleton.mp hb]
      decide
  have hhead : ¬ ((rowText f_name (prefix_sum, time)).headD 0 = chr '\n' ∨
      (rowText f_name (prefix_sum, time)).headD 0 = chr '#') := by
    have hmarked := h.marked
    cases prefix_sum with
    | nil => exact absurd h.length_prefix (by simp)
    | cons b prefix_sum =>
      rcases hmarked with hb | hb
      · intro hor
        rw [rowText, cons_append, headD_cons, show b = chr '+' from hb] at hor
        exact absurd hor (by decide)
      · intro hor
        rw [rowText, cons_append, headD_cons, show b = chr '!' from hb] at hor
        exact absurd hor (by decide)
  have hfirst : strchr (chr ' ') (rowText f_name (prefix_sum, time)) =
      some (chr ' ' :: chr '!' :: (fmtU time ++ chr ' ' :: (f_name ++ [chr '\n']))) :=
    strchr_append h.prefix_no_blank (hz h.prefix_str)
  -- behind the blank there is the mark of the time, and behind the next blank the name
  have hsecond : strchr (chr ' ') (chr '!' :: (fmtU time ++ chr ' ' :: (f_name ++ [chr '\n']))) =
      some (chr ' ' :: (f_name ++ [chr '\n'])) := by
    rw [← cons_append]
    apply strchr_append
    · rw [mem_cons, not_or]
      exact ⟨by decide, notMem_fmtU (by decide)⟩
    · rw [forall_mem_cons]
      exact ⟨by decide, hdigit⟩
  refine ⟨stripNewline (str (chr '!' :: (fmtU time ++ chr ' ' :: (f_name ++ [chr '\n'])))), ?_⟩
  rw [dbParseEntryFilename, if_neg hhead, hfirst]
  simp only [tail_cons, headD_cons, if_true, hsecond, Option.map_some]
  rw [str_eq_self hname, stripNewline_append, rowText, take_ptrDiff]

theorem dbParseEntryFilename_set (h : line ≠ []) :
    dbParseEntryFilename (line.set 0 (chr '#')) = none := by
  cases line with
  | nil => exact absurd rfl h
  | cons b line => exact if_pos (.inr rfl)

theorem str_rowPrefix (h : RowOk f_name row) (rest : Bytes) : str (row.1 ++ 0 :: rest) = row.1 :=
  str_append_zero (fun _ hb hb0 => h.prefix_str (hb0 ▸ hb)) rest

/-! ## The index -/

/-- One row more, live or not. -/
theorem dbBuildStep_bytes {r : DbRow} (h : RowOk r.key r.value) (state : ℕ × Index) :
    dbBuildStep state (r.bytes rowText (chr '#')) =
      (state.1 + (rowText r.key r.value).length,
        if r.live then Function.update state.2 r.key (some ⟨state.1, some r.value.1⟩)
        else state.2) := by
  rw [dbBuildStep, length_bytes]
  by_cases hlive : r.live = true
  · obtain ⟨rest, hparse⟩ := dbParseEntryFilename_rowText h
    have hbytes : r.bytes rowText (chr '#') = rowText r.key r.value := if_pos hlive
    rw [hbytes, hparse, if_pos hlive]
    dsimp only
    rw [str_rowPrefix h]
  · have hbytes : r.bytes rowText (chr '#') = (rowText r.key r.value).set 0 (chr '#') :=
      if_neg hlive
    rw [hbytes, dbParseEntryFilename_set (rowText_ne_nil _ _), if_neg hlive]

theorem foldl_dbBuildStep (h : ∀ r ∈ rows, RowOk r.key r.value) (pos : ℕ) (index : Index) :
    ((rows.map (Row.bytes rowText (chr '#'))).foldl dbBuildStep (pos, index)).2 = fun f_name =>
      ((lastLive rowText f_name pos rows).map fun (pos, row) =>
        (⟨pos, some row.1⟩ : Entry)).or (index f_name) := by
  induction rows generalizing pos index with
  | nil => rfl
  | cons r rows ih =>
    rw [forall_mem_cons] at h
    rw [map_cons, foldl_cons, dbBuildStep_bytes h.1, ih h.2]
    funext f_name
    rw [lastLive]
    cases lastLive rowText f_name (pos + (rowText r.key r.value).length) rows with
    | some found => rfl
    | none =>
      dsimp only [Option.map_none, Option.none_or]
      by_cases hr : r.live = true ∧ r.key = f_name
      · obtain ⟨hlive, rfl⟩ := hr
        rw [if_pos hlive, Function.update_self, if_pos ⟨hlive, rfl⟩]
        rfl
      · rw [if_neg hr]
        split
        case isTrue hlive =>
          rw [Function.update_of_ne fun hkey => hr ⟨hlive, hkey.symm⟩]
          rfl
        case isFalse => rfl

theorem dbBuildIndex_dbFile (h : ∀ r ∈ rows, RowOk r.key r.value) :
    dbBuildIndex (dbFile rows) = rowIndex rows := by
  rw [dbBuildIndex, readLines_dbFile h, foldl_dbBuildStep h]
  funext f_name
  exact Option.or_none

/-- `DB_SearchLinear` finds the first live row of a file. -/
theorem dbSearchLines_dbFile (h : ∀ r ∈ rows, RowOk r.key r.value) (f_name : Bytes) (pos : ℕ) :
    (dbSearchLines f_name pos (rows.map (Row.bytes rowText (chr '#'))) = none ∧
        firstLive rowText f_name pos rows = none) ∨
      ∃ n row rest, RowOk f_name row ∧ firstLive rowText f_name pos rows = some (n, row) ∧
        dbSearchLines f_name pos (rows.map (Row.bytes rowText (chr '#'))) =
          some (n, row.1 ++ 0 :: rest) := by
  induction rows generalizing pos with
  | nil => exact .inl ⟨rfl, rfl⟩
  | cons r rows ih =>
    rw [forall_mem_cons] at h
    rw [map_cons, dbSearchLines, length_bytes, firstLive]
    by_cases hlive : r.live = true
    · obtain ⟨rest, hparse⟩ := dbParseEntryFilename_rowText h.1
      have hbytes : r.bytes rowText (chr '#') = rowText r.key r.value := if_pos hlive
      rw [hbytes, hparse]
      dsimp only
      by_cases hkey : f_name = r.key
      · rw [if_pos hkey, if_pos ⟨hlive, hkey.symm⟩]
        exact .inr ⟨pos, r.value, rest, hkey ▸ h.1, rfl, rfl⟩
      · rw [if_neg hkey, if_neg fun hr => hkey hr.2.symm]
        exact ih h.2 _
    · have hbytes : r.bytes rowText (chr '#') = (rowText r.key r.value).set 0 (chr '#') :=
        if_neg hlive
      rw [hbytes, dbParseEntryFilename_set (rowText_ne_nil _ _), if_neg fun hr => hlive hr.1]
      exact ih h.2 _

end Syscheck
