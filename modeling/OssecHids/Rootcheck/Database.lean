import OssecHids.Lib.Sightings
import OssecHids.Lib.Stream

/-!
# The database of rootcheck events

For every agent there is a file with one record for each text that was received: the times of the
latest and of the first message, and the text. A message is looked up line by line; if it is there,
the time of the latest message is written over the old one, else a record is appended.

- `decodeRecord_eq`: what the loop makes of one record;
- `decodeRootcheck_eq`: the file is a table of what was seen;
- `database_law`: a text is new exactly when it was not received before.
-/

open CString Sightings List Option

namespace Rootcheck

def OS_SIZE_4096 : ℕ := 4096

/-- What `lf->decoder_info` is set to: the decoder for entries of the database, or the one for new
entries. -/
inductive Decoder
  | rootcheck_dec
  | rootcheck_dec_fts
  deriving DecidableEq, Repr

/-- A message of the agent, which is a C string, and the time at which it came. -/
structure Message where
  log : Bytes
  time : ℤ
  log_ne_zero : ∀ b ∈ log, b ≠ 0

/-- Bytes written over those of a file, from a position on. -/
def writeAt (pos : ℕ) (bs fp : Bytes) : Bytes := fp.take pos ++ overwrite bs (fp.drop pos)

/-- `"!%ld!%ld %s\n"` -/
def recordText (last first : ℤ) (log : Bytes) : Bytes :=
  lit "!" ++ fmtD last ++ (lit "!" ++ fmtD first ++ (lit " " ++ (log ++ lit "\n")))

/-- `rk_buf` after a line was read into it and the newline was removed. -/
def readInto (line rk_buf : Bytes) : Bytes :=
  let rk_buf := overwrite (line ++ [0]) rk_buf
  match strchr (chr '\n') rk_buf with
  | some tmpstr => setByte rk_buf (ptrDiff tmpstr rk_buf) 0
  | none => rk_buf

/-- The loop of `DecodeRootcheck_with_fp`, at a position of the file. -/
def decodeLoop (lf : Message) (fp : Bytes) : ℕ → Bytes → ℕ → Option (Decoder × Bytes)
  | 0, _, _ => none
  | fuel + 1, rk_buf, pos =>
    match fgets (OS_SIZE_4096 - 1) (fp.drop pos) with
    | none => some (.rootcheck_dec_fts, fp ++ recordText lf.time lf.time lf.log)
    | some (line, _) =>
      if line.headD 0 = chr '\n' ∨ line.headD 0 = chr '#' then
        decodeLoop lf fp fuel (overwrite (line ++ [0]) rk_buf) (pos + line.length)
      else
        let rk_buf := readInto line rk_buf
        if rk_buf.headD 0 ≠ chr '!' then
          -- old format without the time stamps
          if str rk_buf = lf.log then some (.rootcheck_dec, fp)
          else decodeLoop lf fp fuel rk_buf (pos + line.length)
        else if str (rk_buf.drop 23) = lf.log then
          some (.rootcheck_dec, writeAt pos (lit "!" ++ fmtD lf.time) fp)
        else decodeLoop lf fp fuel rk_buf (pos + line.length)

/-- `DecodeRootcheck_with_fp`, with what is in the buffer to begin with: the decoder, and the
file. -/
def decodeRootcheck (rk_buf : Bytes) (lf : Message) (fp : Bytes) : Option (Decoder × Bytes) :=
  decodeLoop lf fp (fp.length + 1) rk_buf 0

/-- The messages of an agent, one after the other: their decoders, and the file. -/
def decodeAll : List (Bytes × Message) → Bytes → Option (List Decoder × Bytes)
  | [], fp => some ([], fp)
  | (rk_buf, lf) :: events, fp =>
    (decodeRootcheck rk_buf lf fp).bind fun (dec, fp) =>
      (decodeAll events fp).map fun (decs, fp) => (dec :: decs, fp)

/-- A time that is printed on ten characters. -/
def TenDigits (time : ℤ) : Prop := (fmtD time).length = 10

instance (time : ℤ) : Decidable (TenDigits time) := inferInstanceAs (Decidable (_ = _))

/-- The text is one line, and the line of its record fits the buffer of the reader. -/
def Fits (log : Bytes) : Prop := chr '\n' ∉ log ∧ log.length ≤ 4071

instance (log : Bytes) : Decidable (Fits log) := inferInstanceAs (Decidable (_ ∧ _))

/-- The records of a table. -/
def file (table : List (Sighting Bytes ℤ)) : Bytes :=
  table.flatMap fun r => recordText r.last r.first r.key

/-! ## A record -/

/-- A record that is read back: its text is a string that fits, its times have ten digits. -/
structure Sound (r : Sighting Bytes ℤ) : Prop where
  fits : Fits r.key
  ne_zero : ∀ b ∈ r.key, b ≠ 0
  first : TenDigits r.first
  last : TenDigits r.last

/-- What stands in front of the text. -/
def header (last first : ℤ) : Bytes := lit "!" ++ fmtD last ++ (lit "!" ++ fmtD first ++ lit " ")

theorem recordText_eq (last first : ℤ) (log r : Bytes) :
    recordText last first log ++ r = header last first ++ log ++ chr '\n' :: r := by
  simp only [recordText, header, append_assoc]
  rfl

theorem length_header {last first : ℤ} (hlast : TenDigits last) (hfirst : TenDigits first) :
    (header last first).length = 23 := by
  simp only [header, length_append, TenDigits] at hlast hfirst ⊢
  rw [hlast, hfirst]
  rfl

theorem mem_header {last first : ℤ} {b : UInt8} (h : b ∈ header last first) :
    b ≠ chr '\n' ∧ b ≠ 0 := by
  have hdigit : ∀ b : UInt8, isDigit b = true → b ≠ chr '\n' ∧ b ≠ 0 := by
    rintro b hb
    constructor
    · rintro rfl
      cases hb
    · rintro rfl
      cases hb
  have htime : ∀ {t : ℤ} {b : UInt8}, b ∈ fmtD t → b ≠ chr '\n' ∧ b ≠ 0 := fun hb => by
    rcases mem_fmtD hb with rfl | hb
    · decide
    · exact hdigit _ hb
  have hmark : ∀ b ∈ lit "! ", b ≠ chr '\n' ∧ b ≠ 0 := forall_mem_of_all (by decide)
  simp only [header, mem_append] at h
  rcases h with (h | h) | ((h | h) | h)
  · exact hmark b (mem_cons.mpr (.inl (mem_singleton.mp h)))
  · exact htime h
  · exact hmark b (mem_cons.mpr (.inl (mem_singleton.mp h)))
  · exact htime h
  · exact hmark b (mem_cons_of_mem _ h)

section Record

variable {last first : ℤ} {log : Bytes} {r : Sighting Bytes ℤ} {lf : Message}
  {fp rk_buf rest : Bytes} {pos fuel : ℕ}

theorem newline_notMem (hlog : chr '\n' ∉ log) : chr '\n' ∉ header last first ++ log := by
  rw [mem_append, not_or]
  exact ⟨fun hmem => (mem_header hmem).1 rfl, hlog⟩

theorem header_append_ne_zero (hlog : ∀ b ∈ log, b ≠ 0) : ∀ b ∈ header last first ++ log, b ≠ 0 :=
  fun _ hb => (mem_append.mp hb).elim (fun hb => (mem_header hb).2) (hlog _)

theorem readInto_newline {text : Bytes} (hnl : chr '\n' ∉ text) (hz : ∀ b ∈ text, b ≠ 0)
    (rk_buf : Bytes) : ∃ junk, readInto (text ++ [chr '\n']) rk_buf = text ++ 0 :: junk := by
  have hbuf : overwrite (text ++ [chr '\n'] ++ [0]) rk_buf =
      text ++ chr '\n' :: 0 :: rk_buf.drop (text ++ [chr '\n'] ++ [0]).length := by
    rw [overwrite, append_assoc, append_assoc, append_assoc]
    rfl
  refine ⟨0 :: rk_buf.drop (text ++ [chr '\n'] ++ [0]).length, ?_⟩
  rw [readInto, hbuf, strchr_append hnl hz]
  dsimp only
  have hpos : ptrDiff (chr '\n' :: 0 :: rk_buf.drop (text ++ [chr '\n'] ++ [0]).length)
      (text ++ chr '\n' :: 0 :: rk_buf.drop (text ++ [chr '\n'] ++ [0]).length) = text.length := by
    rw [ptrDiff, length_append, Nat.add_sub_cancel]
  rw [hpos, setByte, set_append_right _ _ (Nat.le_refl _), Nat.sub_self]
  rfl

theorem strchr_zero {c : UInt8} (hc : c ≠ 0) {text : Bytes} (hnot : c ∉ text) (r : Bytes) :
    strchr c (text ++ 0 :: r) = none := by
  induction text with
  | nil =>
    rw [nil_append, strchr, if_neg (Ne.symm hc), if_pos rfl]
  | cons b text ih =>
    rw [mem_cons, not_or] at hnot
    rw [cons_append, strchr, if_neg (Ne.symm hnot.1), ih hnot.2]
    split <;> rfl

theorem readInto_cut {text : Bytes} (hnl : chr '\n' ∉ text) (rk_buf : Bytes) :
    ∃ junk, readInto text rk_buf = text ++ 0 :: junk := by
  have hbuf : overwrite (text ++ [0]) rk_buf =
      text ++ 0 :: rk_buf.drop (text ++ [0]).length := by
    rw [overwrite, append_assoc]
    rfl
  refine ⟨rk_buf.drop (text ++ [0]).length, ?_⟩
  rw [readInto, hbuf, strchr_zero (by decide) hnl]

theorem str_drop_header (hlast : TenDigits last) (hfirst : TenDigits first)
    (hlog : ∀ b ∈ log, b ≠ 0) (junk : Bytes) :
    str ((header last first ++ log ++ 0 :: junk).drop 23) = log := by
  rw [append_assoc, ← length_header hlast hfirst, drop_left, str_append_zero hlog]

/-- **One record**: it is the one that is looked for, or the loop goes on behind it. A line that
just fits leaves its newline to the next turn. -/
theorem decodeRecord_eq (hr : Sound r) (hfp : fp.drop pos = recordText r.last r.first r.key ++ rest)
    (rk_buf : Bytes) :
    ∃ rk_buf' turns, turns ≤ (recordText r.last r.first r.key).length ∧ ∀ fuel,
      decodeLoop lf fp (fuel + turns) rk_buf pos =
        if r.key = lf.log then
          some (.rootcheck_dec, writeAt pos (lit "!" ++ fmtD lf.time) fp)
        else decodeLoop lf fp fuel rk_buf' (pos + (recordText r.last r.first r.key).length) := by
  obtain ⟨⟨hnl, hlen⟩, hz, hfirst, hlast⟩ := hr
  have hheader := length_header hlast hfirst
  have hlength : (recordText r.last r.first r.key).length =
      (header r.last r.first ++ r.key).length + 1 := by
    have h := congrArg List.length (recordText_eq r.last r.first r.key [])
    rwa [append_nil, @length_append _ _ [chr '\n']] at h
  have hne : header r.last r.first ++ r.key ++ chr '\n' :: rest ≠ [] := by simp
  have hhead : ∀ s : Bytes, (header r.last r.first ++ r.key ++ s).headD 0 = chr '!' := fun _ => rfl
  have hskip : ¬((chr '!' = chr '\n') ∨ chr '!' = chr '#') := by decide
  rw [recordText_eq] at hfp
  by_cases hshort : r.key.length < 4071
  case pos =>
    have hread : fgets (OS_SIZE_4096 - 1) (fp.drop pos) =
        some (header r.last r.first ++ r.key ++ [chr '\n'], rest) := by
      rw [hfp, fgets, if_neg hne, takeLine_append (newline_notMem hnl)]
      rw [length_append, hheader]
      show _ < 4094
      omega
    obtain ⟨junk, hbuf⟩ := readInto_newline
      (newline_notMem hnl) (@header_append_ne_zero r.last r.first _ hz) rk_buf
    refine ⟨header r.last r.first ++ r.key ++ 0 :: junk, 1, by omega, fun fuel => ?_⟩
    rw [decodeLoop, hread]
    dsimp only
    rw [hhead, if_neg hskip, hbuf, hhead, if_neg (by simp), str_drop_header hlast hfirst hz,
      length_append, hlength]
    rfl
  case neg =>
    have hread : fgets (OS_SIZE_4096 - 1) (fp.drop pos) =
        some (header r.last r.first ++ r.key, chr '\n' :: rest) := by
      rw [hfp, fgets, if_neg hne, takeLine_of_length (newline_notMem hnl)]
      rw [length_append, hheader]
      show _ = 4094
      omega
    obtain ⟨junk, hbuf⟩ :=
      readInto_cut (@newline_notMem r.last r.first _ hnl) rk_buf
    have hread' : fgets (OS_SIZE_4096 - 1)
        (fp.drop (pos + (header r.last r.first ++ r.key).length)) = some ([chr '\n'], rest) := by
      rw [← drop_drop, hfp, drop_left]
      exact if_neg (cons_ne_nil _ _)
    refine ⟨overwrite ([chr '\n'] ++ [0]) (header r.last r.first ++ r.key ++ 0 :: junk), 2,
      by rw [hlength, length_append, hheader]; omega,
      fun fuel => ?_⟩
    rw [show fuel + 2 = fuel + 1 + 1 from rfl, decodeLoop, hread]
    dsimp only
    have hhead' := hhead []
    rw [append_nil] at hhead'
    rw [hhead', if_neg hskip, hbuf, hhead, if_neg (by simp), str_drop_header hlast hfirst hz,
      decodeLoop, hread', hlength]
    rfl

end Record

/-! ## The table -/

variable {table front back : List (Sighting Bytes ℤ)} {r : Sighting Bytes ℤ} {lf : Message}

theorem file_append (front back : List (Sighting Bytes ℤ)) :
    file (front ++ back) = file front ++ file back := flatMap_append

theorem file_cons (r : Sighting Bytes ℤ) (table : List (Sighting Bytes ℤ)) :
    file (r :: table) = recordText r.last r.first r.key ++ file table := flatMap_cons

/-- The time of the latest message is written over the old one, which is as long. -/
theorem writeAt_file (hr : Sound r) {time : ℤ} (htime : TenDigits time) :
    writeAt (file front).length (lit "!" ++ fmtD time) (file (front ++ r :: back)) =
      file (front ++ { r with last := time } :: back) := by
  have hlen : (lit "!" ++ fmtD r.last).length = (lit "!" ++ fmtD time).length := by
    rw [length_append, length_append, hr.last, htime]
  rw [file_append, file_append, writeAt, take_left, drop_left, file_cons, file_cons, overwrite,
    recordText, recordText, append_assoc (lit "!" ++ fmtD r.last), ← hlen, drop_left]
  simp only [append_assoc]

/-- The loop over the records that are left. -/
theorem decodeLoop_eq (hsound : ∀ r ∈ back, Sound r) (htime : TenDigits lf.time)
    (hnodup : ((front ++ back).map Sighting.key).Nodup) (hfront : lf.log ∉ front.map Sighting.key)
    (rk_buf : Bytes) {fuel : ℕ} (hfuel : (file back).length < fuel) :
    decodeLoop lf (file (front ++ back)) fuel rk_buf (file front).length =
      some (if lf.log ∈ back.map Sighting.key then .rootcheck_dec else .rootcheck_dec_fts,
        file (note lf.log lf.time (front ++ back))) := by
  induction back generalizing front rk_buf fuel with
  | nil =>
    obtain ⟨fuel, rfl⟩ := Nat.exists_eq_add_one_of_ne_zero (Nat.ne_zero_of_lt hfuel)
    have hend : (file front).drop (file front).length = [] := drop_length
    rw [append_nil, decodeLoop, hend, note_of_notMem hfront, file_append, file_cons]
    rw [show file ([] : List (Sighting Bytes ℤ)) = [] from rfl, append_nil]
    rfl
  | cons r back ih =>
    obtain ⟨hr, hback⟩ := forall_mem_cons.mp hsound
    have hdrop : (file (front ++ r :: back)).drop (file front).length =
        recordText r.last r.first r.key ++ file back := by
      rw [file_append, drop_left, file_cons]
    obtain ⟨rk_buf', turns, hturns, hrecord⟩ := @decodeRecord_eq _ lf _ _ _ hr hdrop rk_buf
    rw [file_cons, length_append] at hfuel
    obtain ⟨fuel', rfl⟩ := Nat.exists_eq_add_of_le' (show turns ≤ fuel by omega)
    rw [hrecord]
    by_cases hkey : r.key = lf.log
    case pos =>
      rw [if_pos hkey, ← hkey, if_pos (by simp), note_of_split hnodup, writeAt_file hr htime]
    case neg =>
      have hnext : (file front).length + (recordText r.last r.first r.key).length =
          (file (front ++ [r])).length := by
        rw [file_append, length_append, file_cons]
        simp [file]
      rw [append_cons] at hnodup ⊢
      have hfront' : lf.log ∉ (front ++ [r]).map Sighting.key := by
        rw [map_append, mem_append, not_or]
        exact ⟨hfront, by simpa using Ne.symm hkey⟩
      have hmem : lf.log ∈ (r :: back).map Sighting.key ↔ lf.log ∈ back.map Sighting.key := by
        rw [map_cons, mem_cons, or_iff_right (Ne.symm hkey)]
      rw [if_neg hkey, hnext, ih hback hnodup hfront' rk_buf' (by omega)]
      simp only [hmem]

/-- **One message**: the text is looked up in the table, and noted there. -/
theorem decodeRootcheck_eq (hsound : ∀ r ∈ table, Sound r) (htime : TenDigits lf.time)
    (hnodup : (table.map Sighting.key).Nodup) (rk_buf : Bytes) :
    decodeRootcheck rk_buf lf (file table) =
      some (if lf.log ∈ table.map Sighting.key then .rootcheck_dec else .rootcheck_dec_fts,
        file (note lf.log lf.time table)) :=
  @decodeLoop_eq [] _ _ hsound htime hnodup not_mem_nil rk_buf _ (Nat.lt_succ_self _)

theorem sound_note (hsound : ∀ r ∈ table, Sound r) (hlog : Fits lf.log)
    (htime : TenDigits lf.time) : ∀ r ∈ note lf.log lf.time table, Sound r := by
  intro r hr
  rw [note] at hr
  split at hr
  case isTrue =>
    obtain ⟨s, hs, rfl⟩ := List.mem_map.mp hr
    split
    · exact { hsound s hs with last := htime }
    · exact hsound s hs
  case isFalse =>
    rcases mem_append.mp hr with hr | hr
    · exact hsound r hr
    · obtain rfl := mem_singleton.mp hr
      exact ⟨hlog, lf.log_ne_zero, htime, htime⟩

/-! ## Runs -/

/-- A text is marked as new exactly when it was not received before. -/
def Marks (events : List (Bytes × Message)) (decs : List Decoder) : Prop :=
  ∀ i dec e, decs[i]? = some dec → events[i]? = some e →
    (dec = .rootcheck_dec_fts ↔ ∀ e' ∈ events.take i, e'.2.log ≠ e.2.log)

/-- The texts and the times. -/
def received (events : List (Bytes × Message)) : List (Bytes × ℤ) :=
  events.map fun e => (e.2.log, e.2.time)

theorem mem_received {events : List (Bytes × Message)} {log : Bytes} :
    log ∈ (received events).map Prod.fst ↔ ∃ e ∈ events, e.2.log = log := by
  rw [received, List.map_map, List.mem_map]
  rfl

/-- The messages that follow some others. -/
theorem decodeAll_eq {pre events : List (Bytes × Message)} (hsound : ∀ r ∈ table, Sound r)
    (htable : Faithful (received pre) table)
    (hevents : ∀ e ∈ events, Fits e.2.log ∧ TenDigits e.2.time) :
    ∃ decs table', decodeAll events (file table) = some (decs, file table') ∧
      decs.length = events.length ∧
      (∀ i dec e, decs[i]? = some dec → events[i]? = some e →
        (dec = .rootcheck_dec_fts ↔ ∀ e' ∈ pre ++ events.take i, e'.2.log ≠ e.2.log)) ∧
      Faithful (received (pre ++ events)) table' := by
  induction events generalizing pre table with
  | nil =>
    refine ⟨[], table, rfl, rfl, fun i dec e hdec => ?_, ?_⟩
    · simp at hdec
    · rwa [append_nil]
  | cons e events ih =>
    obtain ⟨rk_buf, lf⟩ := e
    obtain ⟨⟨hlog, htime⟩, hevents⟩ := forall_mem_cons.mp hevents
    have hnote : Faithful (received (pre ++ [(rk_buf, lf)])) (note lf.log lf.time table) := by
      rw [received, map_append]
      exact htable.note lf.log lf.time
    obtain ⟨decs, table', hall, hlen, hmarks, htable'⟩ :=
      ih (sound_note hsound hlog htime) hnote hevents
    rw [← append_cons] at htable'
    refine ⟨(if lf.log ∈ table.map Sighting.key then .rootcheck_dec else .rootcheck_dec_fts) :: decs,
      table', ?_, congrArg (· + 1) hlen, fun i dec e hdec he => ?_, htable'⟩
    · rw [decodeAll, decodeRootcheck_eq hsound htime htable.nodup, bind_some]
      dsimp only
      rw [hall]
      rfl
    · cases i with
      | zero =>
        cases hdec
        cases he
        rw [take_zero, append_nil]
        simp only [htable.mem_iff, mem_received]
        split
        case isTrue hseen =>
          refine iff_of_false (by decide) fun hnew => ?_
          obtain ⟨e', he', heq⟩ := hseen
          exact hnew e' he' heq
        case isFalse hnew =>
          exact iff_of_true rfl fun e' he' heq => hnew ⟨e', he', heq⟩
      | succ i =>
        rw [take_succ_cons, append_cons]
        exact hmarks i dec e hdec he

/-- **The database of an agent**: as long as every text is one line that fits the buffer of the
reader, a text is marked as new exactly when it was not received before, and the file has one
record for each text, with the times of its first and of its latest message. -/
theorem database_law (events : List (Bytes × Message))
    (hevents : ∀ e ∈ events, Fits e.2.log ∧ TenDigits e.2.time) :
    ∃ decs table, decodeAll events [] = some (decs, file table) ∧ decs.length = events.length ∧
      Marks events decs ∧ Faithful (received events) table := by
  obtain ⟨decs, table, hall, hlen, hmarks, htable⟩ :=
    @decodeAll_eq _ [] _ (fun r hr => absurd hr not_mem_nil) faithful_nil hevents
  exact ⟨decs, table, hall, hlen, hmarks, htable⟩

/-- Messages of one text, at two times. -/
def sameText (log : Bytes) (hlog : ∀ b ∈ log, b ≠ 0) : List (Bytes × Message) :=
  [([], ⟨log, 1700000000, hlog⟩), ([], ⟨log, 1700000060, hlog⟩)]

/-- The second message is known, and its time is the one of the latest message. -/
theorem database_law_sameText :
    ∃ decs table, decodeAll (sameText (lit "#x") (forall_mem_of_all (by decide))) [] =
        some (decs, file table) ∧ decs.length = 2 ∧
      Marks (sameText (lit "#x") (forall_mem_of_all (by decide))) decs ∧
      Faithful (received (sameText (lit "#x") (forall_mem_of_all (by decide)))) table := by
  apply database_law
  intro e he
  rcases mem_cons.mp he with rfl | he
  · decide
  · obtain rfl := mem_singleton.mp he
    decide

/-- A record that does not fit the buffer is read in two pieces, and neither is its text. -/
theorem decodeRootcheck_long {front : Bytes} {b : UInt8} (hlf : lf.log = front ++ [b])
    (hlen : front.length = 4071) (hnl : chr '\n' ∉ front) (hb : isDigit b = true) {last : ℤ}
    (hlast : TenDigits last) (rk_buf : Bytes) :
    decodeRootcheck rk_buf lf (recordText last last lf.log) =
      some (.rootcheck_dec_fts,
        recordText last last lf.log ++ recordText lf.time lf.time lf.log) := by
  have hz : ∀ c ∈ front, c ≠ 0 := fun c hc =>
    lf.log_ne_zero c (by rw [hlf]; exact mem_append_left _ hc)
  have hne : ∀ c, isDigit c = false → b ≠ c := by
    rintro c hc rfl
    exact absurd (hb.symm.trans hc) (by decide)
  have hheader := length_header hlast hlast
  have hfp : recordText last last lf.log = header last last ++ front ++ [b, chr '\n'] := by
    have h := recordText_eq last last lf.log []
    rw [append_nil] at h
    rw [h, hlf, ← append_assoc, append_assoc (header last last ++ front)]
    rfl
  -- the first piece is all but the last letter of the text
  have hread : fgets (OS_SIZE_4096 - 1) ((header last last ++ front ++ [b, chr '\n']).drop 0) =
      some (header last last ++ front, [b, chr '\n']) := by
    rw [drop_zero, fgets, if_neg (by simp), takeLine_of_length (newline_notMem hnl)]
    rw [length_append, hheader, hlen]
    rfl
  obtain ⟨junk, hbuf⟩ := readInto_cut (@newline_notMem last last _ hnl) rk_buf
  have hhead : ∀ s : Bytes, (header last last ++ front ++ s).headD 0 = chr '!' := fun _ => rfl
  have hhead' := hhead []
  rw [append_nil] at hhead'
  have hfront : front ≠ lf.log := fun heq => by
    have hlength := congrArg List.length (heq.trans hlf)
    rw [length_append, length_singleton] at hlength
    omega
  -- the second piece is the last letter
  have hread' : fgets (OS_SIZE_4096 - 1) ((header last last ++ front ++ [b, chr '\n']).drop
      (0 + (header last last ++ front).length)) = some ([b] ++ [chr '\n'], []) := by
    rw [zero_add, drop_left, fgets, if_neg (cons_ne_nil _ _)]
    exact congrArg some (takeLine_append (l := [b]) (by simpa using (hne _ (by decide)).symm)
      (show 1 < 4094 by decide))
  obtain ⟨junk', hbuf'⟩ := @readInto_newline [b]
    (by simpa using (hne _ (by decide)).symm) (by simpa using hne 0 (by decide))
    (header last last ++ front ++ 0 :: junk)
  have hletter : str ([b] ++ 0 :: junk') ≠ lf.log := by
    rw [str_append_zero (by simpa using hne 0 (by decide)), hlf]
    intro heq
    have hlength := congrArg List.length heq
    rw [length_append, length_singleton] at hlength
    omega
  have hend : (header last last ++ front ++ [b, chr '\n']).drop
      (0 + (header last last ++ front).length + ([b] ++ [chr '\n']).length) = [] := by
    rw [drop_eq_nil_iff, length_append]
    show _ + 2 ≤ 0 + _ + 2
    omega
  rw [decodeRootcheck, hfp]
  have hfuel : (header last last ++ front ++ [b, chr '\n']).length + 1 =
      (header last last ++ front).length + 1 + 1 + 1 := by
    rw [length_append]
    rfl
  rw [hfuel, decodeLoop, hread]
  dsimp only
  rw [hhead', if_neg (by decide), hbuf, hhead, if_neg (by simp), str_drop_header hlast hlast hz,
    if_neg hfront, decodeLoop, hread']
  dsimp only
  rw [if_neg, hbuf', if_pos, if_neg hletter, decodeLoop, hend]
  · rfl
  · exact hne _ (by decide)
  · exact not_or.mpr ⟨hne _ (by decide), hne _ (by decide)⟩

/-- A text of 4072 letters is new twice. -/
theorem not_marks_long :
    ∃ log hlog, log.length = 4072 ∧ ¬∃ decs fp,
      decodeAll (sameText log hlog) [] = some (decs, fp) ∧ Marks (sameText log hlog) decs := by
  have hzero : ∀ b ∈ List.replicate 4072 (chr '0'), b ≠ 0 := by
    intro b hb
    rw [eq_of_mem_replicate hb]
    decide
  refine ⟨List.replicate 4072 (chr '0'), hzero, length_replicate, ?_⟩
  rintro ⟨decs, fp, hall, hmarks⟩
  have hfirst : decodeRootcheck [] ⟨List.replicate 4072 (chr '0'), 1700000000, hzero⟩ [] =
      some (.rootcheck_dec_fts,
        recordText 1700000000 1700000000 (List.replicate 4072 (chr '0'))) := rfl
  have hsecond : decodeRootcheck [] ⟨List.replicate 4072 (chr '0'), 1700000060, hzero⟩
      (recordText 1700000000 1700000000 (List.replicate 4072 (chr '0'))) = _ :=
    decodeRootcheck_long replicate_succ' length_replicate
      (fun hmem => absurd (eq_of_mem_replicate hmem) (by decide)) (by decide)
      (show TenDigits 1700000000 by decide) []
  rw [sameText, decodeAll, hfirst, bind_some] at hall
  dsimp only at hall
  rw [decodeAll, hsecond] at hall
  obtain ⟨rfl, -⟩ := Prod.mk.inj (some.inj hall)
  -- the second message has the text of the first one
  have hnew := (hmarks 1 .rootcheck_dec_fts _ rfl rfl).mp rfl ([], ⟨_, 1700000000, hzero⟩)
    (mem_singleton.mpr rfl)
  exact hnew rfl

end Rootcheck
