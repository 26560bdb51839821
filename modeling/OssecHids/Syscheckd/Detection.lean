import OssecHids.Syscheckd.ReadFile
import OssecHids.Analysisd.Syscheck.Leak

/-!
# Changes of a file, from the agent to the alert

The agent scans a file, and the manager decodes the messages that are delivered, among those about
other files.

- `agrees_run`: entry and row are the two baselines of an observer and the one that is told;
- `detects_iff`: a change is reported whenever it is seen, unless it is only in hashes that the
  manager was never told of.
-/

open CString FimSum Baseline Syscheck List Option Function

namespace Syscheckd

/-! ## The system -/

/-- A file of an agent, and the manager: nothing is ignored. -/
structure Setup where
  opts : Opts
  cfg : Config
  location : Bytes
  file_name : Bytes
  name_str : 0 ∉ file_name
  /-- `f_name[PATH_MAX + 2]` -/
  name_length : file_name.length ≤ 4097
  location_ok : locationOk location = true
  no_ignore : cfg.syscheck_ignore = []
  no_auto_ignore : cfg.syscheck_auto_ignore = false

/-- The name that the manager has for the file, which ends with its first line. -/
def Setup.name (S : Setup) : Bytes := S.file_name.takeWhile (· != chr '\n')

/-- An event for another file -/
def Foreign (S : Setup) (lf : Syscheck.Eventinfo) : Prop :=
  ∀ m ∈ parseMessage lf.log, lf.location = S.location → m.f_name ≠ S.name

/-- A message of the agent, as it gets to the decoder. -/
def agentEvent (location msg : Bytes) (time : ℕ) : Syscheck.Eventinfo where
  location
  log := str msg
  time
  maintenance := false
  log_str hmem := absurd (List.mem_takeWhile_imp hmem) (by decide)

structure System where
  entry : Option Bytes
  manager : State

inductive Label (S : Setup)
  | scan (s : Scan) (time : ℕ)
  | other (lf : Syscheck.Eventinfo) (h : Foreign S lf)

/-- A scan of the file, or an event for another one, and the alert it makes. -/
def step (S : Setup) (sys : System) : Label S → System × Option Alert
  | .scan s time =>
    let (entry, msg) := readFileAt S.opts S.file_name sys.entry s
    match msg with
    | none => ({ sys with entry }, none)
    | some msg =>
      let (manager, alert) := decodeSyscheck S.cfg sys.manager (agentEvent S.location msg time)
      ({ entry, manager }, alert)
  | .other lf _ =>
    let (manager, alert) := decodeSyscheck S.cfg sys.manager lf
    ({ sys with manager }, alert)

def start : System := { entry := none, manager := Syscheck.init }

/-- The system after some steps -/
def run (S : Setup) (ls : List (Label S)) : System := ls.foldl (fun sys l => (step S sys l).1) start

/-- The alert for a change: not that for a new file, or for one that was deleted. -/
def isChange (alert : Option Alert) : Bool :=
  alert.any fun a => a.decoder_info == .mod || a.decoder_info == .mod2 || a.decoder_info == .mod3

/-! ## What the scans have seen -/

/-- What a step adds to the baselines at both ends. -/
def observeStep (S : Setup) (e : Ends Meta Algorithm Digest) : Label S → Ends Meta Algorithm Digest
  | .scan s _ => (observed S.opts e.seen s).elim e fun o => e.step o s.sent
  | .other _ _ => e

/-- What has been seen of the file and what was told of it. A scan whose message is lost leaves
nothing. -/
def history (S : Setup) (ls : List (Label S)) : Ends Meta Algorithm Digest :=
  ls.foldl (observeStep S) ⟨none, none⟩

/-- A scan yields something else than what is known of the file: other metadata, or another hash in
the place of one. -/
def Sees (S : Setup) (known : Option Observed) (s : Scan) : Prop :=
  ∃ b ∈ known, ∃ o ∈ observed S.opts known s, b.Differs o

instance (S : Setup) (known : Option Observed) (s : Scan) : Decidable (Sees S known s) :=
  inferInstanceAs (Decidable (∃ b ∈ known, ∃ o ∈ observed S.opts known s, b.Differs o))

/-- A scan sees a change, but only of hashes that no message has told of. -/
def Blind (S : Setup) (e : Ends Meta Algorithm Digest) (s : Scan) : Prop :=
  Sees S e.seen s ∧ ¬ Sees S e.told s

instance (S : Setup) (e : Ends Meta Algorithm Digest) (s : Scan) : Decidable (Blind S e s) :=
  inferInstanceAs (Decidable (_ ∧ ¬ _))

/-! ## Rows -/

/-- Marks that a sum can stand behind -/
def SumMarks (marks : Bytes) : Prop :=
  marks.length ≤ 4 ∧ ∀ o : Observed, savedSum (marks ++ sumOf o) = sumOf o

theorem str_sumOf (o : Observed) : str (sumOf o) = sumOf o :=
  str_eq_self fun _ hb hb0 => notMem_sumOf (o := o) (by decide) (hb0 ▸ hb)

theorem sumMarks_of_length {marks : Bytes} (h : marks.length = 3) : SumMarks marks := by
  refine ⟨by omega, fun o => ?_⟩
  obtain ⟨d, e, rest, hd, -, hsum⟩ := exists_cons_sumOf o
  -- the fourth byte is a digit
  have hnew : newMarker (marks ++ sumOf o) = false := by
    have hplus : (d == chr '+') = false := by
      rw [beq_eq_false_iff_ne]
      rintro rfl
      cases hd
    match marks, h with
    | [a, b, c], _ =>
      have hlit : lit "!+++" = [chr '!', chr '+', chr '+', chr '+'] := rfl
      rw [hsum, newMarker, hlit]
      simp only [cons_append, nil_append, strncmpEq, headD_cons, tail_cons, hplus]
      -- a zero byte would end both strings
      have hzero : ∀ x y : UInt8, y ≠ 0 → ∀ r, (x == y && (x == 0 || r)) = (x == y && r) := by
        intro x y hy r
        by_cases hxy : x = y
        · rw [hxy, beq_eq_false_iff_ne.mpr hy, Bool.false_or]
        · rw [beq_eq_false_iff_ne.mpr hxy, Bool.false_and, Bool.false_and]
      rw [hzero _ _ (by decide), hzero _ _ (by decide), hzero _ _ (by decide), Bool.false_and,
        Bool.and_false, Bool.and_false, Bool.and_false]
  rw [savedSum, hnew, if_neg Bool.false_ne_true, ← h, drop_left, str_sumOf]

theorem sumMarks_newMarks (cfg : Config) (lf : Syscheck.Eventinfo) (agent : Agent) :
    SumMarks (newMarks cfg lf agent) := by
  rw [newMarks]
  split
  · refine ⟨by decide, fun o => ?_⟩
    have hnew : newMarker (lit "!+++" ++ sumOf o) = true := strncmpEq_append 4 _ (by decide) _
    rw [savedSum, hnew, if_pos rfl]
    exact str_sumOf o
  · exact sumMarks_of_length rfl

/-- The row that goes with what was told: none, or one with that sum. -/
def RowFor (told : Option Observed) (row : Option Bytes) : Prop :=
  match told with
  | none => row = none
  | some b => ∃ marks, SumMarks marks ∧ row = some (marks ++ sumOf b)

/-! ## Messages -/

section Message

variable {S : Setup} {o : Observed} {tail : Bytes}

/-- A message is the sum and the file name, whatever follows it. -/
theorem parse_agentEvent (S : Setup) (o : Observed) (htail : tail = [] ∨ tail.headD 0 = chr '\n')
    (time : ℕ) :
    ∃ data, parseMessage (agentEvent S.location
      (snprintf 6144 (sumOf o ++ chr ' ' :: (S.file_name ++ tail))) time).log =
        some ⟨sumOf o, S.name, data⟩ := by
  have hlen : (sumOf o ++ chr ' ' :: S.file_name).length ≤ 6143 := by
    have hsum := length_sumOf_lt o
    have hname := S.name_length
    rw [length_append, length_cons]
    omega
  have hstr : ∀ b ∈ sumOf o ++ chr ' ' :: S.file_name, (b != 0) = true := by
    intro b hb
    rw [bne_iff_ne]
    rintro rfl
    rcases mem_append.mp hb with hb | hb
    · exact notMem_sumOf (by decide) hb
    · rcases mem_cons.mp hb with hb | hb
      · cases hb
      · exact S.name_str hb
  -- the file name is not cut
  obtain ⟨tail', htail', hlog⟩ : ∃ tail' : Bytes, (tail' = [] ∨ tail'.headD 0 = chr '\n') ∧
      str (snprintf 6144 (sumOf o ++ chr ' ' :: (S.file_name ++ tail))) =
        sumOf o ++ chr ' ' :: (S.file_name ++ tail') := by
    refine ⟨str (tail.take (6143 - (sumOf o ++ chr ' ' :: S.file_name).length)), ?_, ?_⟩
    · generalize 6143 - (sumOf o ++ chr ' ' :: S.file_name).length = k
      cases k with
      | zero => exact .inl rfl
      | succ k =>
        cases tail with
        | nil => exact .inl rfl
        | cons c tail =>
          obtain rfl : c = chr '\n' := htail.resolve_left (cons_ne_nil _ _)
          exact .inr rfl
    · rw [← cons_append, ← append_assoc, snprintf, take_append, take_of_length_le hlen, str,
        takeWhile_append_of_pos hstr, append_assoc, cons_append]
      rfl
  have hname : (S.file_name ++ tail').takeWhile (· != chr '\n') = S.name := by
    rcases htail' with rfl | hhead
    · rw [append_nil, Setup.name]
    · apply takeWhile_append_of_headD
      rw [hhead]
      decide
  have hlog' : (agentEvent S.location (snprintf 6144 (sumOf o ++ chr ' ' :: (S.file_name ++ tail)))
      time).log = sumOf o ++ chr ' ' :: (S.file_name ++ tail') := hlog
  have hzero : ∀ b ∈ sumOf o, b ≠ 0 := fun b hb hb0 =>
    notMem_sumOf (o := o) (by decide) (hb0 ▸ hb)
  rw [hlog', parseMessage, strchr_append (notMem_sumOf (by decide)) hzero, map_some,
    take_ptrDiff, tail_cons, hname]
  exact ⟨_, rfl⟩

theorem accepts_sumOf (S : Setup) (o : Observed) (data : Option Bytes) :
    accepts S.cfg S.location ⟨sumOf o, S.name, data⟩ = true := by
  have hcolon : (strchr (chr ':') (sumOf o)).isSome = true := by
    have hmem : chr ':' ∈ sumOf o := by
      rw [← count_pos_iff, count_sumOf]
      decide
    obtain ⟨x, rest, hsum, hx⟩ := eq_append_cons_of_mem hmem
    have hzero : ∀ b ∈ x, b ≠ 0 := fun b hb hb0 =>
      notMem_sumOf (o := o) (by decide) (hsum ▸ mem_append_left _ (hb0 ▸ hb))
    rw [hsum, strchr_append hx hzero]
    rfl
  have hignored : ignored S.cfg S.name = false := by
    rw [ignored, S.no_ignore]
    rfl
  rw [accepts]
  rw [hignored, hcolon, S.location_ok, Bool.or_true]
  rfl

end Message

/-! ## The manager -/

section Manager

variable {S : Setup} {t : State} {lf : Syscheck.Eventinfo} {o b : Observed} {data : Option Bytes}

/-- A message about a file that has no row adds one. -/
theorem decodeSyscheck_added (ht : Reached t) (hlf : lf.location = S.location)
    (hm : parseMessage lf.log = some ⟨sumOf o, S.name, data⟩)
    (hrow : storedPrefix (t.agents S.location) S.name = none) :
    RowFor (some o)
        (storedPrefix ((decodeSyscheck S.cfg t lf).1.agents S.location) S.name) ∧
      isChange (decodeSyscheck S.cfg t lf).2 = false := by
  have hacc := accepts_sumOf S o data
  rw [← hlf] at hacc hrow ⊢
  rw [decodeSyscheck_of_accepts hm hacc]
  dsimp only
  rw [update_self]
  rcases (ht.agentOk lf.location).dbSearch S.cfg S.name (sumOf o) lf data t.sdb with
    ⟨-, hadd⟩ | ⟨pos, buf, hsome, -⟩
  · rw [hadd, storedPrefix_store, (dbAddEntry_eq _ _ _ _ _ _).2, elim_some]
    have hmarks := sumMarks_newMarks S.cfg lf (t.agents lf.location).build
    refine ⟨⟨_, hmarks, congrArg some ?_⟩, ?_⟩
    · refine take_of_length_le ?_
      have hlen := length_sumOf_lt o
      have hle := hmarks.1
      rw [length_append]
      omega
    · -- the only alert is the one for a new file
      rw [dbAddEntry]
      split
      · rfl
      · split
        · rfl
        · rfl
  · rw [hrow] at hsome
    cases hsome

/-- A message about a file that has a row: values that are missing are kept, and a change is
reported. -/
theorem dbProcessFoundEntry_sumOf {marks : Bytes} (hmarks : SumMarks marks)
    (hmaintenance : lf.maintenance = false) (fp : Bytes) (sdb : Texts) (pos : ℕ) :
    let found := dbProcessFoundEntry S.cfg S.name (sumOf o) lf data fp sdb
      ((marks ++ sumOf b).take 6144) pos
    RowFor (some (b.merge o)) (found.entry.elim (some (marks ++ sumOf b)) Entry.prefix_sum) ∧
      (isChange found.alert = true ↔ b.Differs o) := by
  have htake : (marks ++ sumOf b).take 6144 = marks ++ sumOf b := by
    refine take_of_length_le ?_
    have hlen := length_sumOf_lt b
    have hle := hmarks.1
    rw [length_append]
    omega
  have hstored : ∀ marks : Bytes, marks.length = 3 →
      RowFor (some (b.merge o)) (some (snprintf 6145 (marks ++ sumOf (b.merge o)))) := by
    intro marks h
    refine ⟨marks, sumMarks_of_length h, congrArg some (take_of_length_le ?_)⟩
    have hlen := length_sumOf_lt (b.merge o)
    rw [length_append]
    omega
  have hreal := hasRealChange_sumOf b (b.merge o)
  rw [differs_merge_self_iff] at hreal
  have hdeleted : ∀ o : Observed, isDeleted (sumOf o) = false := by
    intro o
    obtain ⟨d, e, rest, hd, -, hsum⟩ := exists_cons_sumOf o
    have hminus : (d == chr '-') = false := by
      rw [beq_eq_false_iff_ne]
      rintro rfl
      cases hd
    have hlit : lit "-1" = [chr '-', chr '1'] := rfl
    rw [hsum, isDeleted, hlit]
    simp [hminus]
  intro found
  have hfound : found = dbProcessFoundEntry S.cfg S.name (sumOf o) lf data fp sdb
    ((marks ++ sumOf b).take 6144) pos := rfl
  rw [htake, dbProcessFoundEntry, hmarks.2, fimSumKeepHashes_sumOf (by decide)] at hfound
  dsimp only at hfound
  by_cases hdiffers : b.Differs o
  · have hchange := hreal.mpr hdiffers
    have hne : sumOf b ≠ sumOf (b.merge o) := fun heq => by
      rw [fimSumHasRealChange, if_pos heq] at hchange
      exact Bool.false_ne_true hchange
    have hdec : changeDecoder S.cfg (changeCount (marks ++ sumOf b)) = some .mod := by
      rw [changeDecoder.eq_def, S.no_auto_ignore]
      rfl
    rw [if_neg hne, hchange, hmaintenance, hdec] at hfound
    rw [hfound]
    dsimp only [changeAlert]
    rw [hdeleted, hdeleted]
    exact ⟨hstored _ rfl, iff_of_true rfl hdiffers⟩
  · have hquiet : fimSumHasRealChange (sumOf b) (sumOf (b.merge o)) = false :=
      Bool.eq_false_iff.mpr fun h => hdiffers (hreal.mp h)
    by_cases heq : sumOf b = sumOf (b.merge o)
    · rw [if_pos heq] at hfound
      rw [hfound]
      refine ⟨⟨marks, hmarks, ?_⟩, iff_of_false Bool.false_ne_true hdiffers⟩
      rw [← heq]
      rfl
    · rw [if_neg heq, hquiet] at hfound
      rw [hfound]
      exact ⟨hstored _ rfl, iff_of_false Bool.false_ne_true hdiffers⟩

theorem decodeSyscheck_found (ht : Reached t) (hlf : lf.location = S.location)
    (hmaintenance : lf.maintenance = false)
    (hm : parseMessage lf.log = some ⟨sumOf o, S.name, data⟩)
    (hrow : RowFor (some b) (storedPrefix (t.agents S.location) S.name)) :
    RowFor (some (b.merge o))
        (storedPrefix ((decodeSyscheck S.cfg t lf).1.agents S.location) S.name) ∧
      (isChange (decodeSyscheck S.cfg t lf).2 = true ↔ b.Differs o) := by
  obtain ⟨marks, hmarks, hrow⟩ := hrow
  have hacc := accepts_sumOf S o data
  rw [← hlf] at hacc hrow ⊢
  rw [decodeSyscheck_of_accepts hm hacc]
  dsimp only
  rw [update_self]
  rcases (ht.agentOk lf.location).dbSearch S.cfg S.name (sumOf o) lf data t.sdb with
    ⟨hnone, -⟩ | ⟨pos, buf, hsome, hfound⟩
  · rw [hrow] at hnone
    cases hnone
  · rw [hrow] at hsome
    cases hsome
    rw [hfound, storedPrefix_store, hrow]
    exact dbProcessFoundEntry_sumOf hmarks hmaintenance _ _ _

/-- Events for other files leave the row of the file. -/
theorem storedPrefix_of_foreign (hforeign : Foreign S lf) (t : State) :
    storedPrefix ((decodeSyscheck S.cfg t lf).1.agents S.location) S.name =
      storedPrefix (t.agents S.location) S.name := by
  rw [decodeSyscheck]
  split
  case h_1 =>
    split
    case isFalse => rfl
    case isTrue =>
      dsimp only
      rw [dbSetCompleted]
      split
      case isFalse => rfl
      case isTrue =>
        by_cases hl : S.location = lf.location
        · rw [hl, update_self]
          rfl
        · rw [update_of_ne hl]
  case h_2 m hm =>
    split
    case isFalse => rfl
    case isTrue =>
      dsimp only
      by_cases hl : S.location = lf.location
      · have hne := hforeign m hm hl.symm
        rw [hl, update_self]
        exact storedPrefix_store_of_ne _ (Ne.symm hne) _
      · rw [update_of_ne hl]

end Manager

/-! ## Both ends -/

section Ends

variable {S : Setup} {sys : System} {e : Ends Meta Algorithm Digest} {s : Scan}

/-- The agent's entry is what was seen, and the manager's row what was told. -/
structure Agrees (S : Setup) (sys : System) (e : Ends Meta Algorithm Digest) : Prop where
  behind : e.Behind
  entry : sys.entry = e.seen.map (entryOf S.opts)
  reached : Reached sys.manager
  row : RowFor e.told (storedPrefix (sys.manager.agents S.location) S.name)

theorem agrees_start (S : Setup) : Agrees S start ⟨none, none⟩ where
  behind := .start
  entry := rfl
  reached := reached_init
  row := rfl

theorem observed_told (h : e.Behind) (opts : Opts) (s : Scan) :
    observed opts e.told s = observed opts e.seen s := by
  cases h with
  | start => rfl
  | both h => rfl

theorem sees_seen_of_told (h : e.Behind) (hs : Sees S e.told s) : Sees S e.seen s := by
  obtain ⟨b, hb, o, ho, hdiffers⟩ := hs
  rw [observed_told h] at ho
  cases h with
  | start => cases hb
  | both hext =>
    cases hb
    exact ⟨_, rfl, o, ho, hext.differs hdiffers⟩

/-- A scan without a message leaves the system as it is, but for the entry. -/
theorem step_scan_of_none {entry : Option Bytes} {time : ℕ}
    (h : readFileAt S.opts S.file_name sys.entry s = (entry, none)) :
    step S sys (.scan s time) = ({ sys with entry }, none) := by
  rw [step, h]

theorem step_scan_of_some {entry : Option Bytes} {msg : Bytes} {time : ℕ}
    (h : readFileAt S.opts S.file_name sys.entry s = (entry, some msg)) :
    let lf := agentEvent S.location msg time
    step S sys (.scan s time) =
      ({ entry, manager := (decodeSyscheck S.cfg sys.manager lf).1 },
        (decodeSyscheck S.cfg sys.manager lf).2) := by
  rw [step, h]

/-- A scan keeps entry and row in step with the baselines, and makes the alert for a change just if
it differs from what was told. -/
theorem Agrees.scan (h : Agrees S sys e) (s : Scan) (time : ℕ) :
    Agrees S (step S sys (.scan s time)).1 (observeStep S e (.scan s time)) ∧
      (isChange (step S sys (.scan s time)).2 = true ↔ s.sent = true ∧ Sees S e.told s) := by
  have hread : readFileAt S.opts S.file_name sys.entry s =
      readFileAt S.opts S.file_name (e.seen.map (entryOf S.opts)) s := by
    rw [h.entry]
  cases ho : observed S.opts e.seen s with
  | none =>
    rw [readFileAt_of_observed_eq_none ho] at hread
    rw [step_scan_of_none hread, observeStep, ho]
    refine ⟨⟨h.behind, rfl, h.reached, h.row⟩, iff_of_false Bool.false_ne_true ?_⟩
    rintro ⟨-, b, -, o, hmem, -⟩
    rw [observed_told h.behind, ho] at hmem
    cases hmem
  | some o =>
    have hsees : Sees S e.told s ↔ ∃ b ∈ e.told, b.Differs o := by
      rw [Sees, observed_told h.behind, ho]
      simp
    have hbehind : (e.step o s.sent).Behind := h.behind.step o s.sent
    have hobserve : observeStep S e (.scan s time) = e.step o s.sent := by
      rw [observeStep, ho]
      rfl
    obtain ⟨tail, htail, hread'⟩ := readFileAt_eq ho S.file_name
    rw [hread'] at hread
    rw [hobserve, hsees]
    by_cases hdue : Due e.seen o ∧ s.sent = true
    · -- the message is delivered: what is seen is told
      have hnext : next e.seen o s.sent = some (e.seen.elim o fun b => b.merge o) :=
        if_neg fun h => Bool.false_ne_true (h.2.symm.trans hdue.2)
      have hstep : e.step o s.sent = ⟨next e.seen o s.sent, next e.seen o s.sent⟩ := by
        rw [Ends.step, if_pos hdue]
      rw [if_pos hdue] at hread
      rw [hstep] at hbehind ⊢
      rw [hnext] at hread hbehind ⊢
      generalize hb' : e.seen.elim o (fun b => b.merge o) = b' at hread hbehind ⊢
      rw [step_scan_of_some hread]
      obtain ⟨data, hm⟩ := parse_agentEvent S b' htail time
      have hreached := reached_decodeSyscheck S.cfg h.reached (agentEvent S.location
        (snprintf 6144 (sumOf b' ++ chr ' ' :: (S.file_name ++ tail))) time)
      have hrow := h.row
      have hbehind_e := h.behind
      generalize htold : e.told = told at hrow
      cases told with
      | none =>
        obtain ⟨hrow', hquiet⟩ := decodeSyscheck_added h.reached rfl hm hrow
        refine ⟨⟨hbehind, rfl, hreached, hrow'⟩, ?_⟩
        rw [hquiet]
        refine iff_of_false Bool.false_ne_true ?_
        rintro ⟨-, b, hb, -⟩
        cases hb
      | some b =>
        obtain ⟨hrow', hchange⟩ := decodeSyscheck_found h.reached rfl rfl hm hrow
        obtain ⟨seen, htold'⟩ := e
        obtain rfl : htold' = some b := htold
        cases hbehind_e with
        | @both _ b₀ hext =>
          -- the row has no value that the entry has not
          obtain rfl : b₀.merge o = b' := hb'
          rw [hext.merge_merge] at hrow'
          rw [hext.differs_merge_iff] at hchange
          refine ⟨⟨hbehind, rfl, hreached, hrow'⟩, hchange.trans ?_⟩
          simp [hdue.2]
    · have hstep : e.step o s.sent = ⟨next e.seen o s.sent, e.told⟩ := by
        rw [Ends.step, if_neg hdue]
      rw [if_neg hdue] at hread
      rw [hstep] at hbehind ⊢
      rw [step_scan_of_none hread]
      refine ⟨⟨hbehind, rfl, h.reached, h.row⟩, iff_of_false Bool.false_ne_true ?_⟩
      rintro ⟨hsent, b, hb, hdiffers⟩
      obtain ⟨b', hb', o', ho', hdiffers'⟩ := sees_seen_of_told (S := S) h.behind
        (hsees.mpr ⟨b, hb, hdiffers⟩)
      rw [ho] at ho'
      obtain rfl := some.inj ho'
      refine hdue ⟨?_, hsent⟩
      rw [mem_def.mp hb']
      exact hdiffers'

theorem Agrees.step (h : Agrees S sys e) (l : Label S) :
    Agrees S (Syscheckd.step S sys l).1 (observeStep S e l) := by
  cases l with
  | scan s time => exact (h.scan s time).1
  | other lf hforeign =>
    have hrow : RowFor e.told (storedPrefix
        ((decodeSyscheck S.cfg sys.manager lf).1.agents S.location) S.name) := by
      rw [storedPrefix_of_foreign hforeign]
      exact h.row
    exact ⟨h.behind, h.entry, reached_decodeSyscheck S.cfg h.reached lf, hrow⟩

theorem agrees_run (S : Setup) (ls : List (Label S)) : Agrees S (run S ls) (history S ls) := by
  have hfold : ∀ (ls : List (Label S)) (sys : System) (e : Ends Meta Algorithm Digest),
      Agrees S sys e → Agrees S (ls.foldl (fun sys l => (step S sys l).1) sys)
        (ls.foldl (observeStep S) e) := by
    intro ls
    induction ls with
    | nil => exact fun _ _ h => h
    | cons l ls ih => exact fun sys e h => ih _ _ (h.step l)
  exact hfold ls _ _ (agrees_start S)

end Ends

/-! ## Detection -/

variable {S : Setup} {ls : List (Label S)}

/-- Changes are reported by the scan that sees them, or by the next one that does if the message is
lost; and nothing else is reported. -/
structure Detects (S : Setup) (ls : List (Label S)) : Prop where
  /-- A change is reported just if it is seen and the message about it is delivered. -/
  alert_iff : ∀ pre s time post, ls = pre ++ .scan s time :: post →
    (isChange (step S (run S pre) (.scan s time)).2 = true ↔
      s.sent = true ∧ Sees S (history S pre).seen s)
  /-- A change whose message is lost is reported by the first scan that still sees it and whose
  message is delivered. -/
  retried : ∀ pre s time mid t time' post,
    ls = pre ++ .scan s time :: (mid ++ .scan t time' :: post) →
    Sees S (history S pre).seen s → s.sent = false →
    (∀ u time, .scan u time ∈ mid → u.sent = false ∨ ¬ Sees S (history S pre).seen u) →
    Sees S (history S pre).seen t → t.sent = true →
      isChange (step S (run S (pre ++ .scan s time :: mid)) (.scan t time')).2 = true

/-- Scans that are lost or see no change leave the baseline, but for new values. -/
theorem extends_foldl {b : Observed} (mid : List (Label S))
    (hmid : ∀ u time, .scan u time ∈ mid → u.sent = false ∨ ¬ Sees S (some b) u)
    {e : Ends Meta Algorithm Digest} {b' : Observed} (he : e.seen = some b') (h : Extends b b') :
    ∃ b'', (mid.foldl (observeStep S) e).seen = some b'' ∧ Extends b b'' := by
  induction mid generalizing e b' with
  | nil => exact ⟨b', he, h⟩
  | cons l mid ih =>
    have hrest : ∀ u time, .scan u time ∈ mid → u.sent = false ∨ ¬ Sees S (some b) u :=
      fun u time hu => hmid u time (mem_cons_of_mem _ hu)
    rw [foldl_cons]
    cases l with
    | other lf hforeign => exact ih hrest he h
    | scan u time =>
      have hu := hmid u time mem_cons_self
      have hstep : observeStep S e (.scan u time) =
          (observed S.opts (some b') u).elim e fun o => e.step o u.sent := by
        rw [observeStep, he]
      cases ho : observed S.opts (some b') u with
      | none =>
        rw [ho] at hstep
        rw [hstep]
        exact ih hrest he h
      | some o =>
        have hnot : ¬ b.Differs o ∨ u.sent = false :=
          hu.symm.imp_left fun hsees hdiffers => hsees ⟨b, rfl, o, ho, hdiffers⟩
        obtain ⟨b'', hnext, hext⟩ := h.next hnot
        rw [ho] at hstep
        rw [hstep]
        refine ih hrest ?_ hext
        show next e.seen o u.sent = some b''
        rw [he, hnext]

/-- A change is reported whenever it is seen, if and only if no scan whose message is delivered sees
a change only of hashes that no message has told of. -/
theorem detects_iff (S : Setup) (ls : List (Label S)) :
    Detects S ls ↔ ∀ pre s time post, ls = pre ++ .scan s time :: post → s.sent = true →
      ¬ Blind S (history S pre) s := by
  constructor
  · rintro h pre s time post hsplit hsent ⟨hseen, htold⟩
    have hagrees := agrees_run S pre
    have hreported := (h.alert_iff pre s time post hsplit).mpr ⟨hsent, hseen⟩
    exact htold ((hagrees.scan s time).2.mp hreported).2
  · intro h
    have halert : ∀ pre s time post, ls = pre ++ .scan s time :: post →
        (isChange (step S (run S pre) (.scan s time)).2 = true ↔
          s.sent = true ∧ Sees S (history S pre).seen s) := by
      intro pre s time post hsplit
      have hagrees := agrees_run S pre
      rw [(hagrees.scan s time).2]
      refine and_congr_right fun hsent => ⟨sees_seen_of_told hagrees.behind, fun hseen => ?_⟩
      by_contra htold
      exact h pre s time post hsplit hsent ⟨hseen, htold⟩
    refine ⟨halert, ?_⟩
    intro pre s time mid t time' post hsplit hs hlost hmid ht hsent
    have hsplit' : ls = (pre ++ .scan s time :: mid) ++ .scan t time' :: post := by
      rw [hsplit, append_assoc, cons_append]
    refine (halert _ t time' post hsplit').mpr ⟨hsent, ?_⟩
    obtain ⟨b, hb, o, ho, hdiffers⟩ := ht
    rw [mem_def.mp hb] at ho hmid
    have hmid' : ∀ u time', .scan u time' ∈ Label.scan s time :: mid →
        u.sent = false ∨ ¬ Sees S (some b) u := by
      intro u time' hu
      rcases mem_cons.mp hu with heq | hu
      · obtain ⟨rfl, -⟩ := Label.scan.inj heq
        exact Or.inl hlost
      · exact hmid u time' hu
    obtain ⟨b', hb', hext⟩ := extends_foldl _ hmid' hb (extends_refl b)
    have hhistory : (history S (pre ++ .scan s time :: mid)).seen = some b' := by
      rw [history, foldl_append]
      exact hb'
    rw [hhistory]
    exact ⟨b', rfl, o, ho, hext.differs hdiffers⟩

/-- A file without a hash in the first scan: the hash that comes is stored by the agent without a
message, and when it changes the manager has nothing to compare it with. -/
theorem detects_iff_learned :
    let S : Setup :=
      { opts := ⟨⟨true, true, true, true, true, true, true⟩, false⟩
        cfg := ⟨false, false, false, []⟩
        location := lit "(a) any->syscheck"
        file_name := lit "/etc/a"
        name_str := by decide
        name_length := by decide
        location_ok := by decide
        no_ignore := rfl
        no_auto_ignore := rfl }
    let scan (sum : Option Digest) : Label S :=
      let reading : Reading := ⟨⟨1, 33188, 0, 0⟩, some fun _ => sum⟩
      .scan ⟨reading, some reading, false, none, true⟩ 5
    let before : Digest := ⟨lit "ab", by decide +kernel, by decide +kernel, by decide +kernel⟩
    let after : Digest := ⟨lit "ac", by decide +kernel, by decide +kernel, by decide +kernel⟩
    isChange (step S (run S [scan none, scan (some before)]) (scan (some after))).2 = false ∧
      ¬ Detects S [scan none, scan (some before), scan (some after)] := by
  intro S scan before after
  have hquiet :
      isChange (step S (run S [scan none, scan (some before)]) (scan (some after))).2 = false := by
    decide +kernel
  refine ⟨hquiet, fun h => ?_⟩
  have hreported := (h.alert_iff [scan none, scan (some before)] _ _ [] rfl).mpr
    ⟨rfl, by decide +kernel⟩
  rw [hquiet] at hreported
  exact Bool.false_ne_true hreported

end Syscheckd
