import OssecHids.Analysisd.Fts

/-!
# The records after a restart

`FTS_Init` reads the files that the module has left. As long as every record is one line, and the
lines are written in the order in which the records were stored, it finds the same records in the
same order.

- `ftsRecords_unlines`, `igLines_unlines`: reading a file of records;
- `Filed.step`: the records of the file and those still to be written give the ones in memory;
- `restart_eq`: the same answers with a restart and without.
-/

open CString Retained Transition List Option

namespace Fts

/-! ## Files -/

/-- A text that is one line. -/
def OneLine (line : Bytes) : Prop := ∀ b ∈ line, b ≠ 0 ∧ b ≠ chr '\n'

instance (line : Bytes) : Decidable (OneLine line) := List.decidableBAll _ _

/-- A record that is written as one line, and read as one. -/
structure IsRecord (line : Bytes) : Prop where
  ne_nil : line ≠ []
  length_lt : line.length < OS_FLSIZE
  oneLine : OneLine line

variable {line : Bytes} {records : List Bytes}

theorem OneLine.notMem (h : OneLine line) : chr '\n' ∉ line := fun hmem => (h _ hmem).2 rfl

theorem cut_line (h : OneLine line) : cut line = line := by
  rw [cut, str_eq_self fun b hb => (h b hb).1, takeWhile_eq_self_iff]
  intro b hb
  exact bne_iff_ne.mpr (h b hb).2

theorem cut_line_newline (h : OneLine line) : cut (line ++ [chr '\n']) = line := by
  have hstr : str (line ++ [chr '\n']) = line ++ [chr '\n'] := by
    apply str_eq_self
    intro b hb
    rcases mem_append.mp hb with hb | hb
    · exact (h b hb).1
    · rw [mem_singleton.mp hb]
      decide
  rw [cut, hstr, takeWhile_append_of_pos]
  · simp
  · intro b hb
    exact bne_iff_ne.mpr (h b hb).2

/-- `FTS_Init` reads the records that are in `FTS_QUEUE`. -/
theorem ftsRecords_unlines (h : ∀ line ∈ records, IsRecord line) :
    ftsRecords (unlines records) = records := by
  induction records with
  | nil => rfl
  | cons line records ih =>
    obtain ⟨hline, hrecords⟩ := forall_mem_cons.mp h
    have hcut := cut_line hline.oneLine
    have hne : (line != []) = true := bne_iff_ne.mpr hline.ne_nil
    rw [unlines_cons, ftsRecords]
    by_cases hshort : line.length < OS_FLSIZE - 1
    · rw [readLines_short (by decide) hline.oneLine.notMem hshort, map_cons,
        cut_line_newline hline.oneLine, filter_cons_of_pos (p := fun line => line != []) hne]
      exact congrArg (line :: ·) (ih hrecords)
    · -- the newline of a record of the maximum size is read on its own
      have hlen : line.length = OS_FLSIZE - 1 := by
        have := hline.length_lt
        omega
      rw [readLines_long (by decide) hline.oneLine.notMem (by omega),
        take_of_length_le (by omega), drop_of_length_le (by omega), map_cons, hcut,
        filter_cons_of_pos (p := fun line => line != []) hne,
        readLines_short (l := []) (by decide) not_mem_nil (by decide), map_cons,
        filter_cons_of_neg (p := fun line => line != []) (by decide)]
      exact congrArg (line :: ·) (ih hrecords)

theorem igLinesLoop_unlines {fuel : ℕ} (hfuel : records.length ≤ fuel)
    (h : ∀ line ∈ records, IsRecord line) : igLinesLoop fuel (unlines records) = records := by
  induction records generalizing fuel with
  | nil => cases fuel <;> rfl
  | cons line records ih =>
    obtain ⟨fuel, rfl⟩ := Nat.exists_eq_add_one.mpr (lt_of_lt_of_le (Nat.succ_pos _) hfuel)
    obtain ⟨hline, hrecords⟩ := forall_mem_cons.mp h
    have hrest := ih (Nat.le_of_succ_le_succ hfuel) hrecords
    have hnz : ∀ b ∈ line, b ≠ 0 := fun b hb => (hline.oneLine b hb).1
    rw [unlines_cons, igLinesLoop, fgets, if_neg (by simp)]
    by_cases hshort : line.length < OS_FLSIZE - 1
    · rw [takeLine_append hline.oneLine.notMem hshort]
      dsimp only
      rw [strchr_append hline.oneLine.notMem hnz, isSome_some, if_pos rfl,
        cut_line_newline hline.oneLine, hrest]
    · -- the newline of a record of the maximum size is skipped
      have hlen : line.length = OS_FLSIZE - 1 := by
        have := hline.length_lt
        omega
      rw [takeLine_of_length hline.oneLine.notMem hlen]
      dsimp only
      have hno : strchr (chr '\n') line = none := by
        cases hstrchr : strchr (chr '\n') line with
        | none => rfl
        | some p =>
          obtain ⟨l, r, rfl, -⟩ := exists_of_strchr_eq_some hstrchr
          exact absurd (mem_append_right _ mem_cons_self) hline.oneLine.notMem
      rw [hno, if_neg (by simp), str_eq_self hnz]
      simpa using hrest

theorem igLines_unlines (h : ∀ line ∈ records, IsRecord line) :
    igLines (unlines records) = records := by
  apply igLinesLoop_unlines _ h
  clear h
  induction records with
  | nil => exact Nat.zero_le _
  | cons line records ih =>
    rw [unlines_cons, length_append, length_cons, length_cons]
    omega

/-! ## Records -/

variable {cfg : Config} {s : State} {lf : Eventinfo} {m : Memory}

theorem spaced_ne_nil (a b : Bytes) (rest : List Bytes) : spaced (a :: b :: rest) ≠ [] := by
  simp [spaced, List.intercalate, List.intersperse]

theorem isRecord_take {n : ℕ} (hn : 0 < n) (hne : line ≠ []) (hone : OneLine (line.take n))
    (hlen : line.length < OS_FLSIZE) : IsRecord (line.take n) where
  ne_nil := by
    rw [Ne, take_eq_nil_iff, not_or]
    exact ⟨hn.ne', hne⟩
  length_lt := lt_of_le_of_lt (length_take_le' ..) hlen
  oneLine := hone

theorem length_snprintf_lt {n : ℕ} (hn : 0 < n) (line : Bytes) : (snprintf n line).length < n := by
  rw [snprintf, length_take]
  omega

theorem snprintf_spaced_ne_nil (a b : Bytes) (rest : List Bytes) :
    snprintf OS_FLSIZE (spaced (a :: b :: rest)) ≠ [] := by
  rw [snprintf, Ne, take_eq_nil_iff, not_or]
  exact ⟨by decide, spaced_ne_nil a b rest⟩

theorem isRecord_addtoIGnoreLine (h : OneLine (addtoIGnoreLine lf)) :
    IsRecord (addtoIGnoreLine lf) where
  ne_nil := snprintf_spaced_ne_nil _ _ _
  length_lt := length_snprintf_lt (by decide) _
  oneLine := h

theorem isRecord_storedKey (h : Ready cfg s) (hone : OneLine (storedKey s lf)) :
    IsRecord (storedKey s lf) := by
  have hlen : (ftsLine lf).length < OS_FLSIZE := length_snprintf_lt (by decide) _
  have hne : ftsLine lf ≠ [] := snprintf_spaced_ne_nil _ _ _
  rw [storedKey] at hone ⊢
  split_ifs at hone ⊢
  · have hmin := cfg.min_size.1
    rw [← h.minsize] at hmin
    exact isRecord_take (by omega) hne hone hlen
  · exact ⟨hne, hlen, hone⟩

/-! ## Files and memory -/

/-- The files are made of records, and the records of the first together with those still to be
written, `pending`, give those in memory; so do the records of the second. -/
structure Filed (cfg : Config) (s : State) (pending fts ig : List Bytes) : Prop where
  ready : Ready cfg s
  fp_list : s.fp_list = unlines fts
  fp_ignore : s.fp_ignore = unlines ig
  fts_records : ∀ line ∈ fts ++ pending, IsRecord line
  ig_records : ∀ line ∈ ig, IsRecord line
  fts_keys : replay cfg.fts_store_size [] (fts ++ pending) = s.fts.keys
  ig_keys : replay cfg.ig_list_size [] ig = s.ig.keys

/-- The keys of a store, as they are written when the file is compacted, give the store. -/
theorem Store.Agrees.replay_keys {store : Store} (h : store.Agrees) :
    replay store.list.max_size [] store.keys = store.keys :=
  replay_eq_append h.nodup h.length_keys_le

theorem mem_of_mem_replay {n : ℕ} {l keys : List Bytes} {key : Bytes} (h : key ∈ replay n l keys) :
    key ∈ l ∨ key ∈ keys := by
  induction keys generalizing l with
  | nil => exact .inl h
  | cons a keys ih =>
    rcases ih (l := remember n l a) h with hmem | hmem
    · rw [remember] at hmem
      split_ifs at hmem
      · exact .inl hmem
      · have hmem := (newest_isSuffix n (l ++ [a])).subset hmem
        rcases mem_append.mp hmem with hmem | hmem
        · exact .inl hmem
        · exact .inr (mem_cons.mpr (.inl (mem_singleton.mp hmem)))
    · exact .inr (mem_cons_of_mem _ hmem)

variable {waiting fts ig : List Bytes}

/-- A line is written, and the file compacted when it is time; then what is still to be written has
to be in memory. -/
theorem Filed.ftsFprintf (h : Filed cfg s (line :: waiting) fts ig)
    (hsafe : 2 * s.fts_store_size ≤ s.fts_file_lines + 1 → ∀ key ∈ waiting, key ∈ s.fts.keys) :
    ∃ fts', Filed cfg (s.ftsFprintf line) waiting fts' ig := by
  have hsplit : fts ++ line :: waiting = fts ++ [line] ++ waiting := append_cons ..
  have hrecords := h.fts_records
  have hkeys := h.fts_keys
  rw [State.ftsFprintf, State.ftsCompact]
  split_ifs with hfew
  · rw [hsplit] at hrecords hkeys
    exact ⟨fts ++ [line], {
      ready := { h.ready with }
      fp_list := by
        dsimp only
        rw [h.fp_list, unlines_append]
        simp
      fp_ignore := h.fp_ignore
      fts_records := hrecords
      ig_records := h.ig_records
      fts_keys := hkeys
      ig_keys := h.ig_keys }⟩
  · have hold : ∀ key ∈ s.fts.keys, IsRecord key := by
      intro key hkey
      rw [← hkeys] at hkey
      exact hrecords key ((mem_of_mem_replay hkey).resolve_left not_mem_nil)
    have hreplay := h.ready.fts.replay_keys
    rw [h.ready.fts_size] at hreplay
    dsimp only at hfew
    exact ⟨s.fts.keys, {
      ready := { h.ready with }
      fp_list := rfl
      fp_ignore := h.fp_ignore
      fts_records := by
        intro key hkey
        rcases mem_append.mp hkey with hkey | hkey
        · exact hold key hkey
        · exact hrecords key (mem_append_right _ (mem_cons_of_mem _ hkey))
      ig_records := h.ig_records
      fts_keys := by
        rw [replay_append, hreplay]
        exact replay_eq_self (hsafe (by omega))
      ig_keys := h.ig_keys }⟩

/-- A record that was stored is still to be written. -/
theorem Filed.ftsMatch (h : Filed cfg s waiting fts ig)
    (hone : storedKey s lf ∉ s.fts.keys → OneLine (storedKey s lf)) :
    Filed cfg (s.ftsMatch lf m).2 (waiting ++ (s.ftsMatch lf m).1.2.toList) fts ig := by
  obtain ⟨hready, hret, hpersist, hkeys, hig⟩ := h.ready.ftsMatch_spec lf m
  have hfiles : (s.ftsMatch lf m).2.fp_list = s.fp_list ∧
      (s.ftsMatch lf m).2.fp_ignore = s.fp_ignore := by
    rw [State.ftsMatch]
    dsimp only
    split_ifs <;> exact ⟨rfl, rfl⟩
  by_cases hnew : (s.ftsMatch lf m).1.1 = 1
  · rw [if_pos hnew] at hpersist hkeys
    rw [hpersist, toList_some]
    exact {
      ready := hready
      fp_list := hfiles.1.trans h.fp_list
      fp_ignore := hfiles.2.trans h.fp_ignore
      fts_records := by
        rw [← append_assoc]
        intro line hline
        rcases mem_append.mp hline with hline | hline
        · exact h.fts_records line hline
        · rw [mem_singleton.mp hline]
          exact isRecord_storedKey h.ready (hone (hret.mp hnew).2.1)
      ig_records := h.ig_records
      fts_keys := by
        rw [← append_assoc, replay_concat, h.fts_keys, hkeys, remember_of_notMem (hret.mp hnew).2.1]
      ig_keys := by rw [hig, h.ig_keys] }
  · rw [if_neg hnew] at hpersist hkeys
    rw [hpersist, toList_none, append_nil]
    exact { h with
      ready := hready
      fp_list := hfiles.1.trans h.fp_list
      fp_ignore := hfiles.2.trans h.fp_ignore
      fts_keys := h.fts_keys.trans hkeys.symm
      ig_keys := by rw [hig, h.ig_keys] }

/-- A record to ignore that is new is written, and the file compacted when it is time. -/
theorem Filed.addtoIGnore (h : Filed cfg s waiting fts ig)
    (hone : addtoIGnoreLine lf ∉ s.ig.keys → OneLine (addtoIGnoreLine lf)) :
    ∃ ig', Filed cfg (s.addtoIGnore lf m) waiting fts ig' := by
  obtain ⟨hready, hfts, hkeys⟩ := h.ready.addtoIGnore_spec lf m
  obtain ⟨hagrees, hmax, hret, hzero, -⟩ := h.ready.ig.add_spec (addtoIGnoreLine lf) m
  have hftsfile : (s.addtoIGnore lf m).fp_list = s.fp_list := by
    rw [State.addtoIGnore]
    dsimp only [State.igCompact]
    split_ifs <;> rfl
  have hftskeys : replay cfg.fts_store_size [] (fts ++ waiting) = (s.addtoIGnore lf m).fts.keys := by
    rw [hfts, h.fts_keys]
  by_cases hnew : addtoIGnoreLine lf ∉ s.ig.keys ∧ m.granted
  · rw [if_pos hnew] at hkeys
    have hrecords : ∀ line ∈ ig ++ [addtoIGnoreLine lf], IsRecord line := by
      intro line hline
      rcases mem_append.mp hline with hline | hline
      · exact h.ig_records line hline
      · rw [mem_singleton.mp hline]
        exact isRecord_addtoIGnoreLine (hone hnew.1)
    have hreplay : replay cfg.ig_list_size [] (ig ++ [addtoIGnoreLine lf]) =
        (s.addtoIGnore lf m).ig.keys := by
      rw [replay_concat, h.ig_keys, hkeys, remember_of_notMem hnew.1]
    by_cases hfew : s.ig_file_lines + 1 < 2 * s.ig_list_size
    · refine ⟨ig ++ [addtoIGnoreLine lf], hready, hftsfile.trans h.fp_list, ?_, h.fts_records,
        hrecords, hftskeys, hreplay⟩
      rw [State.addtoIGnore]
      dsimp only
      rw [if_neg (by rw [hret.mpr hnew]; exact one_ne_zero), State.igCompact, if_pos hfew]
      dsimp only
      rw [h.fp_ignore, unlines_append]
      simp
    · refine ⟨(s.addtoIGnore lf m).ig.keys, hready, hftsfile.trans h.fp_list, ?_, h.fts_records,
        ?_, hftskeys, ?_⟩
      · rw [State.addtoIGnore]
        dsimp only
        rw [if_neg (by rw [hret.mpr hnew]; exact one_ne_zero), State.igCompact, if_neg hfew]
      · intro line hline
        rw [← hreplay] at hline
        exact hrecords line ((mem_of_mem_replay hline).resolve_left not_mem_nil)
      · have hself := hready.ig.replay_keys
        rwa [hready.ig_size] at hself
  · rw [if_neg hnew] at hkeys
    have hno : addtoIGnoreLine lf ∈ s.ig.keys ∨ m.granted = false := by
      rw [not_and_or, not_not, Bool.not_eq_true] at hnew
      exact hnew
    refine ⟨ig, hready, hftsfile.trans h.fp_list, ?_, h.fts_records, h.ig_records, hftskeys,
      h.ig_keys.trans hkeys.symm⟩
    rw [State.addtoIGnore]
    dsimp only
    rw [if_pos (hzero.mpr hno)]
    exact h.fp_ignore

/-! ## Runs -/

/-- The lines that are still to be written, in the order in which their records were stored, if
every call hands over its own in this order. -/
def System.pending (σ : System) : List Bytes := σ.writer_queue_fts ++ σ.handed

/-- Whether writing a line compacts `FTS_QUEUE`. -/
def System.Compacts (σ : System) : Prop :=
  2 * σ.state.fts_store_size ≤ σ.state.fts_file_lines + 1

/-- A step that keeps the files as the records were stored: a record that is not there yet is one
line, a call does not overtake another one, and a record that is still to be written when the file
is compacted is in memory. -/
def InOrder (σ : System) : Label → Prop
  | .fts lf _ _ => storedKey σ.state lf ∉ σ.state.fts.keys → OneLine (storedKey σ.state lf)
  | .push i => i = 0
  | .sync i => i = 0 ∧ σ.writer_queue_fts = [] ∧
      (σ.Compacts → ∀ key ∈ σ.pending.tail, key ∈ σ.state.fts.keys)
  | .write => σ.Compacts → ∀ key ∈ σ.pending.tail, key ∈ σ.state.fts.keys
  | .addtoIGnore lf _ => addtoIGnoreLine lf ∉ σ.state.ig.keys → OneLine (addtoIGnoreLine lf)
  | .iGnore _ _ => True

theorem Filed.step {σ σ' : System} {l : Label} (h : Filed cfg σ.state σ.pending fts ig)
    (hstep : Step σ l σ') (horder : InOrder σ l) :
    ∃ fts' ig', Filed cfg σ'.state σ'.pending fts' ig' := by
  cases hstep with
  | fts lf m =>
    refine ⟨fts, ig, ?_⟩
    rw [System.pending, ← append_assoc]
    exact h.ftsMatch horder
  | @push i line hline =>
    obtain rfl : i = 0 := horder
    obtain ⟨rest, hrest⟩ := head?_eq_some_iff.mp (head?_eq_getElem?.trans hline)
    refine ⟨fts, ig, ?_⟩
    rw [System.pending, hrest] at h ⊢
    simpa using h
  | @sync i line hline =>
    obtain ⟨rfl, hqueue, hsafe⟩ : i = 0 ∧ _ := horder
    obtain ⟨rest, hrest⟩ := head?_eq_some_iff.mp (head?_eq_getElem?.trans hline)
    rw [System.pending, hqueue, hrest] at h hsafe
    obtain ⟨fts', h⟩ := h.ftsFprintf hsafe
    refine ⟨fts', ig, ?_⟩
    rw [System.pending, hqueue, hrest]
    exact h
  | @write line rest hline =>
    have hsafe : σ.Compacts → ∀ key ∈ σ.pending.tail, key ∈ σ.state.fts.keys := horder
    rw [System.pending, hline] at h hsafe
    obtain ⟨fts', h⟩ := h.ftsFprintf hsafe
    exact ⟨fts', ig, h⟩
  | addtoIGnore lf m =>
    obtain ⟨ig', h⟩ := h.addtoIGnore horder (m := m)
    exact ⟨fts, ig', h⟩
  | iGnore lf => exact ⟨fts, ig, h⟩

/-! ## Restart -/

/-- A step that keeps the order. -/
def OrderedStep (σ : System) (l : Label) (σ' : System) : Prop := Step σ l σ' ∧ InOrder σ l

theorem Filed.run {σ σ' : System} {ls : List Label} (hrun : Run OrderedStep σ ls σ')
    (h : ∃ fts ig, Filed cfg σ.state σ.pending fts ig) :
    ∃ fts ig, Filed cfg σ'.state σ'.pending fts ig := by
  have hkeep : ∀ σ l σ', (∃ fts ig, Filed cfg σ.state σ.pending fts ig) → OrderedStep σ l σ' →
      ∃ fts ig, Filed cfg σ'.state σ'.pending fts ig := by
    rintro σ l σ' ⟨fts, ig, h⟩ ⟨hstep, horder⟩
    exact h.step hstep horder
  exact hrun.invariant hkeep h

theorem Filed.ftsCompact (h : Filed cfg s [] fts ig) : ∃ fts', Filed cfg s.ftsCompact [] fts' ig := by
  rw [State.ftsCompact]
  split_ifs
  · exact ⟨fts, h⟩
  · have hreplay := h.ready.fts.replay_keys
    rw [h.ready.fts_size] at hreplay
    refine ⟨s.fts.keys, { h with
      ready := { h.ready with }
      fp_list := rfl
      fts_records := ?_
      fts_keys := by rwa [append_nil] }⟩
    intro line hline
    rw [append_nil, ← h.fts_keys] at hline
    exact h.fts_records line ((mem_of_mem_replay hline).resolve_left not_mem_nil)

theorem Filed.igCompact (h : Filed cfg s waiting fts ig) :
    ∃ ig', Filed cfg s.igCompact waiting fts ig' := by
  rw [State.igCompact]
  split_ifs
  · exact ⟨ig, h⟩
  · have hreplay := h.ready.ig.replay_keys
    rw [h.ready.ig_size] at hreplay
    refine ⟨s.ig.keys, { h with
      ready := { h.ready with }
      fp_ignore := rfl
      ig_records := ?_
      ig_keys := hreplay }⟩
    intro line hline
    rw [← h.ig_keys] at hline
    exact h.ig_records line ((mem_of_mem_replay hline).resolve_left not_mem_nil)

theorem filter_isRecord (h : ∀ line ∈ records, IsRecord line) :
    (records.filter fun line => line != []) = records := by
  rw [filter_eq_self]
  intro line hline
  exact bne_iff_ne.mpr (h line hline).ne_nil

theorem keys_ftsInit {secrets secrets' : Secrets} (hfts : ∀ line ∈ fts, IsRecord line)
    (hig : ∀ line ∈ ig, IsRecord line)
    (h : ftsInit cfg secrets secrets' (unlines fts) (unlines ig) = some s) :
    Ready cfg s ∧ s.fts.keys = replay cfg.fts_store_size [] fts ∧
      s.ig.keys = replay cfg.ig_list_size [] ig := by
  obtain ⟨hready, hftskeys, higkeys⟩ := ready_ftsInit h
  rw [ftsRecords_unlines hfts] at hftskeys
  rw [igLines_unlines hig, filter_isRecord hig] at higkeys
  exact ⟨hready, hftskeys, higkeys⟩

theorem filed_ftsInit {secrets secrets' : Secrets} (hfts : ∀ line ∈ fts, IsRecord line)
    (hig : ∀ line ∈ ig, IsRecord line)
    (h : ftsInit cfg secrets secrets' (unlines fts) (unlines ig) = some s) :
    ∃ fts' ig', Filed cfg s [] fts' ig' := by
  obtain ⟨s', hloaded, rfl⟩ := exists_loaded h
  have hfiled : Filed cfg s' [] fts ig := {
    ready := hloaded.ready
    fp_list := hloaded.fp_list
    fp_ignore := hloaded.fp_ignore
    fts_records := by rwa [append_nil]
    ig_records := hig
    fts_keys := by rw [append_nil, hloaded.fts_keys, ftsRecords_unlines hfts]
    ig_keys := by rw [hloaded.ig_keys, igLines_unlines hig, filter_isRecord hig] }
  obtain ⟨fts', hfiled⟩ := hfiled.ftsCompact
  obtain ⟨ig', hfiled⟩ := hfiled.igCompact
  exact ⟨fts', ig', hfiled⟩

/-- What the events that follow ask for; the list of similar lines of an IDS decoder is not in the
files. -/
inductive Call
  | fts (lf : Eventinfo) (m : Memory) (type : lf.decoder_info.ids = false)
  | addtoIGnore (lf : Eventinfo) (m : Memory)
  | iGnore (lf : Eventinfo)

/-- A call and its answer. -/
def State.call (s : State) : Call → State × ℕ
  | .fts lf m _ => ((s.ftsMatch lf m).2, (s.ftsMatch lf m).1.1)
  | .addtoIGnore lf m => (s.addtoIGnore lf m, 0)
  | .iGnore lf => (s, s.iGnore lf)

/-- The same records in the same order. -/
structure SameRecords (cfg : Config) (s t : State) : Prop where
  left : Ready cfg s
  right : Ready cfg t
  fts : s.fts.keys = t.fts.keys
  ig : s.ig.keys = t.ig.keys

theorem storedKey_of_not_ids (s : State) (h : lf.decoder_info.ids = false) :
    storedKey s lf = ftsLine lf := by
  rw [storedKey, h, if_neg (by simp)]

theorem ftsMatch_fst_le (s : State) (lf : Eventinfo) (m : Memory) : (s.ftsMatch lf m).1.1 ≤ 1 := by
  rw [State.ftsMatch]
  dsimp only
  split_ifs <;> simp

/-- Stores with the same records answer alike, and have the same records after it. -/
theorem SameRecords.call {t : State} (h : SameRecords cfg s t) (c : Call) :
    SameRecords cfg (s.call c).1 (t.call c).1 ∧ (s.call c).2 = (t.call c).2 := by
  cases c with
  | fts lf m type =>
    obtain ⟨hs, hsret, -, hsfts, hsig⟩ := h.left.ftsMatch_spec lf m
    obtain ⟨ht, htret, -, htfts, htig⟩ := h.right.ftsMatch_spec lf m
    rw [storedKey_of_not_ids t type] at htret
    rw [storedKey_of_not_ids s type, h.fts, ← htret] at hsret
    have hle := ftsMatch_fst_le s lf m
    have hle' := ftsMatch_fst_le t lf m
    have hret : (s.ftsMatch lf m).1.1 = (t.ftsMatch lf m).1.1 := by omega
    refine ⟨⟨hs, ht, ?_, ?_⟩, hret⟩
    · dsimp only [State.call]
      rw [hsfts, htfts, hret, storedKey_of_not_ids s type, storedKey_of_not_ids t type, h.fts]
    · dsimp only [State.call]
      rw [hsig, htig, h.ig]
  | addtoIGnore lf m =>
    obtain ⟨hs, hsfts, hsig⟩ := h.left.addtoIGnore_spec lf m
    obtain ⟨ht, htfts, htig⟩ := h.right.addtoIGnore_spec lf m
    refine ⟨⟨hs, ht, ?_, ?_⟩, rfl⟩
    · dsimp only [State.call]
      rw [hsfts, htfts, h.fts]
    · dsimp only [State.call]
      rw [hsig, htig, h.ig]
  | iGnore lf =>
    have hget : (s.ig.store.get (iGnoreLine lf)).isSome = (t.ig.store.get (iGnoreLine lf)).isSome := by
      rw [Bool.eq_iff_iff, h.left.ig.isSome_get, h.right.ig.isSome_get, h.ig]
    refine ⟨h, ?_⟩
    dsimp only [State.call]
    rw [State.iGnore, State.iGnore, hget]

/-- When all the lines are written, a restart finds the records that are in memory, in the same
order, and the module answers as it would have without. -/
theorem restart_eq {secrets secrets' secrets₀ secrets₀' : Secrets} {s₀ s' : State} {σ : System}
    {ls : List Label} (hfts : ∀ line ∈ fts, IsRecord line) (hig : ∀ line ∈ ig, IsRecord line)
    (hinit : ftsInit cfg secrets₀ secrets₀' (unlines fts) (unlines ig) = some s₀)
    (hrun : Run OrderedStep ⟨s₀, [], []⟩ ls σ) (hhanded : σ.handed = [])
    (hqueue : σ.writer_queue_fts = [])
    (hrestart : ftsInit cfg secrets secrets' σ.state.fp_list σ.state.fp_ignore = some s') :
    s'.fts.list.data = σ.state.fts.list.data ∧ s'.ig.list.data = σ.state.ig.list.data ∧
      ∀ calls, outputs State.call s' calls = outputs State.call σ.state calls := by
  obtain ⟨fts', ig', hfiled⟩ := Filed.run hrun (filed_ftsInit hfts hig hinit)
  rw [System.pending, hqueue, hhanded, append_nil] at hfiled
  have hrecords := hfiled.fts_records
  have hkeys := hfiled.fts_keys
  rw [append_nil] at hrecords hkeys
  rw [hfiled.fp_list, hfiled.fp_ignore] at hrestart
  obtain ⟨hready, hftskeys, higkeys⟩ := keys_ftsInit hrecords hfiled.ig_records hrestart
  have hsame : SameRecords cfg s' σ.state :=
    ⟨hready, hfiled.ready, hftskeys.trans hkeys, higkeys.trans hfiled.ig_keys⟩
  exact ⟨hsame.fts, hsame.ig, outputs_eq (fun _ _ c h => h.call c) hsame⟩

/-- The steps of one event that is new to an empty module. -/
theorem exists_written {s₀ : State} {secrets secrets' : Secrets}
    (h : ftsInit smallest secrets secrets' [] [] = some s₀) (lf : Eventinfo)
    (type : lf.decoder_info.ids = false) :
    ∃ σ₁ σ₂ σ₃, Step ⟨s₀, [], []⟩ (.fts lf {} 1) σ₁ ∧ Step σ₁ (.push 0) σ₂ ∧
      Step σ₂ .write σ₃ ∧ σ₂.pending.tail = [] ∧ σ₃.handed = [] ∧ σ₃.writer_queue_fts = [] ∧
      σ₃.state.fp_list = ftsLine lf ++ [chr '\n'] ∧ σ₃.state.fp_ignore = [] ∧
      σ₃.state.fts.keys = [ftsLine lf] ∧ Ready smallest σ₃.state := by
  obtain ⟨s, hloaded, hs⟩ := exists_loaded h
  have hlines : s.fts_file_lines = 0 := hloaded.fts_file_lines
  have hsize : s.fts_store_size = 1024 := hloaded.ready.store_size
  have higlines : s.ig_file_lines = 0 := hloaded.ig_file_lines
  have higsize : s.ig_list_size = 128 := hloaded.ready.list_size
  -- the files are too short to be compacted
  obtain rfl : s₀ = s := by
    rw [hs, State.ftsCompact, if_pos (by omega), State.igCompact, if_pos (by omega)]
  obtain ⟨hready, hret, hpersist, hkeys, -⟩ := hloaded.ready.ftsMatch_spec lf {}
  have hempty : s₀.fts.keys = [] := hloaded.fts_keys
  rw [storedKey_of_not_ids s₀ type] at hret hpersist hkeys
  rw [hempty] at hret hkeys
  have hone : (s₀.ftsMatch lf {}).1.1 = 1 := hret.mpr ⟨not_mem_nil, not_mem_nil, rfl⟩
  rw [if_pos hone] at hpersist hkeys
  have hfiles : (s₀.ftsMatch lf {}).2.fts_file_lines = s₀.fts_file_lines ∧
      (s₀.ftsMatch lf {}).2.fts_store_size = s₀.fts_store_size ∧
      (s₀.ftsMatch lf {}).2.fp_list = s₀.fp_list ∧
      (s₀.ftsMatch lf {}).2.fp_ignore = s₀.fp_ignore := by
    rw [State.ftsMatch]
    dsimp only
    split_ifs <;> exact ⟨rfl, rfl, rfl, rfl⟩
  rw [hlines, hsize, hloaded.fp_list, hloaded.fp_ignore] at hfiles
  obtain ⟨hlines, hsize, hlist, hignore⟩ := hfiles
  have hfts := hone ▸ Step.fts ⟨s₀, [], []⟩ lf {}
  rw [hpersist] at hfts
  refine ⟨_, _, _, hfts, .push rfl, .write rfl, rfl, rfl, rfl, ?_, ?_, ?_, hready.ftsFprintf _⟩
  all_goals
    dsimp only
    rw [State.ftsFprintf, State.ftsCompact, if_pos (by dsimp only; omega)]
    dsimp only
  · rw [hlist, nil_append]
  · exact hignore
  · rw [hkeys, newest_of_length_le (by simp [smallest])]
    rfl

/-- The login is in the file. -/
theorem restart_eq_login :
    ∃ s₀ σ s', ftsInit smallest (some (1, 2), some (3, 4)) (some (5, 6), some (7, 8)) [] [] = some s₀ ∧
      Run OrderedStep ⟨s₀, [], []⟩ [.fts login {} 1, .push 0, .write] σ ∧
      ftsInit smallest (some (9, 1), some (3, 4)) (some (5, 6), some (7, 8)) σ.state.fp_list
        σ.state.fp_ignore = some s' ∧
      s'.fts.list.data = σ.state.fts.list.data ∧ s'.fts.list.data = [ftsLine login] := by
  obtain ⟨s₀, hs₀⟩ := isSome_iff_exists.mp
    (isSome_ftsInit smallest (1, 2) (3, 4) (5, 6) (7, 8) [] [])
  obtain ⟨σ₁, σ₂, σ₃, hfts, hpush, hwrite, htail, hhanded, hqueue, -, -, hkeys, -⟩ :=
    exists_written hs₀ login rfl
  obtain ⟨s', hs'⟩ := isSome_iff_exists.mp (isSome_ftsInit smallest (9, 1) (3, 4) (5, 6) (7, 8)
    σ₃.state.fp_list σ₃.state.fp_ignore)
  have hone : storedKey s₀ login ∉ s₀.fts.keys → OneLine (storedKey s₀ login) := by
    rw [storedKey_of_not_ids s₀ rfl]
    intro _
    decide +kernel
  have hrun : Run OrderedStep ⟨s₀, [], []⟩ [.fts login {} 1, .push 0, .write] σ₃ := by
    refine .cons ⟨hfts, hone⟩ (.cons ⟨hpush, rfl⟩ (.cons ⟨hwrite, fun _ key hkey => ?_⟩ (.nil _)))
    rw [htail] at hkey
    exact absurd hkey not_mem_nil
  have hnil : ∀ line ∈ ([] : List Bytes), IsRecord line := by simp
  obtain ⟨hdata, -, -⟩ := restart_eq hnil hnil hs₀ hrun hhanded hqueue hs'
  exact ⟨s₀, σ₃, s', hs₀, hrun, hs', hdata, hdata.trans hkeys⟩

/-- The data and the location of an event that `OS_CleanMSG` has left with a newline. -/
def twoLines : Eventinfo where
  decoder_info := { name := some (lit "sshd"), fts := FTS_DATA }
  data := some (lit "a\nb")
  location := lit "(web) 10.0.0.2->syscheck"

/-- After a restart an event is reported a second time: its record is two lines of the file. -/
theorem not_restart_eq_twoLines :
    ∃ s₀ σ s', ftsInit smallest (some (1, 2), some (3, 4)) (some (5, 6), some (7, 8)) [] [] = some s₀ ∧
      Run Step ⟨s₀, [], []⟩ [.fts twoLines {} 1, .push 0, .write] σ ∧ σ.handed = [] ∧
      σ.writer_queue_fts = [] ∧
      ftsInit smallest (some (9, 1), some (3, 4)) (some (5, 6), some (7, 8)) σ.state.fp_list
        σ.state.fp_ignore = some s' ∧
      s'.fts.list.data ≠ σ.state.fts.list.data ∧ (σ.state.ftsMatch twoLines {}).1.1 = 0 ∧
      (s'.ftsMatch twoLines {}).1.1 = 1 := by
  obtain ⟨s₀, hs₀⟩ := isSome_iff_exists.mp
    (isSome_ftsInit smallest (1, 2) (3, 4) (5, 6) (7, 8) [] [])
  obtain ⟨σ₁, σ₂, σ₃, hfts, hpush, hwrite, -, hhanded, hqueue, hlist, hignore, hkeys, hready⟩ :=
    exists_written hs₀ twoLines rfl
  obtain ⟨s', hs'⟩ := isSome_iff_exists.mp (isSome_ftsInit smallest (9, 1) (3, 4) (5, 6) (7, 8)
    σ₃.state.fp_list σ₃.state.fp_ignore)
  obtain ⟨hready', hkeys', -⟩ := ready_ftsInit hs'
  have hrecords : s'.fts.keys = [lit "sshd      a", lit "b  "] := by
    rw [hkeys', hlist]
    decide +kernel
  obtain ⟨-, hret, -, -, -⟩ := hready.ftsMatch_spec twoLines {}
  obtain ⟨-, hret', -, -, -⟩ := hready'.ftsMatch_spec twoLines {}
  rw [storedKey_of_not_ids _ rfl, hkeys] at hret
  rw [storedKey_of_not_ids _ rfl, hrecords] at hret'
  refine ⟨s₀, σ₃, s', hs₀, .cons hfts (.cons hpush (.cons hwrite (.nil _))), hhanded, hqueue, hs',
    ?_, ?_, hret'.mpr ?_⟩
  · rw [← Store.keys, ← Store.keys, hrecords, hkeys]
    decide +kernel
  · have hle := ftsMatch_fst_le σ₃.state twoLines {}
    have hne : (σ₃.state.ftsMatch twoLines {}).1.1 ≠ 1 :=
      fun hone => (hret.mp hone).1 mem_cons_self
    omega
  · decide +kernel

end Fts
