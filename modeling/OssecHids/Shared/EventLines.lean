import OssecHids.Shared.ReadAlert

/-!
# The lines behind the rule

What `GetAlertData` makes of the lines between the rule and the blank line, whole lines at a time.

* `getRecord_short`, `getRecord_rest`: one line, and what is left of one that did not fit.
* `getRecord_readLog`: the reader goes through the lines with `eventLine` up to the first one that it
  takes for a blank line, which are those whose length is a multiple of `lineLimit`.
* `readLog_headers`, `readLog_log`, `readLog_header_ne`: the optional headers that are taken, and the
  lines that become the log.
-/

open CString List Option Function

namespace AlertLog

/-- What a read takes of a line at most. -/
def lineLimit : ℕ := bufferSize - 1

/-- A line without a newline or a zero byte. -/
def Plain (l : Bytes) : Prop := chr '\n' ∉ l ∧ ∀ b ∈ l, b ≠ 0

open Reader

variable {flag : ℕ} {s r : Reader} {l t : Bytes} {lines rest : List Bytes}

theorem Plain.take (h : Plain l) (k : ℕ) : Plain (l.take k) :=
  ⟨fun hmem => h.1 (mem_of_mem_take hmem), fun b hb => h.2 b (mem_of_mem_take hb)⟩

theorem Plain.drop (h : Plain l) (k : ℕ) : Plain (l.drop k) :=
  ⟨fun hmem => h.1 (mem_of_mem_drop hmem), fun b hb => h.2 b (mem_of_mem_drop hb)⟩

theorem Plain.append {m : Bytes} (hl : Plain l) (hm : Plain m) : Plain (l ++ m) := by
  refine ⟨fun h => (mem_append.mp h).elim hl.1 hm.1, fun b hb => ?_⟩
  exact (mem_append.mp hb).elim (hl.2 b) (hm.2 b)

/-- Only the bytes of the list are looked at. -/
instance (l : Bytes) : Decidable (∀ b ∈ l, b ≠ 0) := List.decidableBAll _ _

instance (l : Bytes) : Decidable (Plain l) := inferInstanceAs (Decidable (_ ∧ _))

theorem Plain.str_concat (h : Plain l) : str (l ++ [chr '\n']) = l ++ [chr '\n'] := by
  apply str_eq_self
  intro b hb
  obtain hb | hb := mem_append.mp hb
  · exact h.2 b hb
  · rw [mem_singleton.mp hb]
    decide

theorem lineLimit_dvd_length_drop (h : lineLimit ≤ l.length) :
    lineLimit ∣ (l.drop lineLimit).length ↔ lineLimit ∣ l.length := by
  rw [length_drop]
  exact Nat.dvd_sub_iff_left h dvd_rfl

theorem readLines_cut (hl : Plain l) (h : lineLimit ≤ l.length) (t : Bytes) :
    readLines bufferSize (l ++ chr '\n' :: t) =
      l.take lineLimit :: readLines bufferSize (l.drop lineLimit ++ chr '\n' :: t) :=
  readLines_long (by decide) hl.1 h

/-! ## One line -/

theorem getRecord_blank (s : Reader) (t : Bytes) :
    getRecord flag s (readLines bufferSize (chr '\n' :: t)) =
      match blankLine { s with cut := false } with
      | .inl s => getRecord flag s (readLines bufferSize t)
      | .inr s => some (s, readLines bufferSize t) := by
  rw [← nil_append (chr '\n' :: t), readLines_short (by decide) not_mem_nil (by decide)]
  rfl

theorem getRecord_short (hcut : s.cut = false) (hl : Plain l) (hne : l ≠ [])
    (hlen : l.length < lineLimit) :
    getRecord flag s (readLines bufferSize (l ++ chr '\n' :: t)) =
      getRecord flag (textLine flag s (l ++ [chr '\n'])) (readLines bufferSize t) := by
  have hblank : l ++ [chr '\n'] ≠ [chr '\n'] := by simpa using hne
  have hstep : s.step flag (l ++ [chr '\n']) = .inl (textLine flag s (l ++ [chr '\n'])) := by
    rw [Reader.step, hl.str_concat, if_neg hblank, hcut, if_neg Bool.false_ne_true]
    simp [← hcut]
  rw [readLines_short (by decide) hl.1 hlen, getRecord, hstep]

/-- What is left of a line that did not fit is skipped. Nothing but the newline is left of a line
whose length is a multiple of what a read takes: it counts as a blank line. -/
theorem getRecord_rest (hcut : s.cut = true) (hl : Plain l) :
    getRecord flag s (readLines bufferSize (l ++ chr '\n' :: t)) =
      getRecord flag { s with cut := false }
        (readLines bufferSize (if lineLimit ∣ l.length then chr '\n' :: t else t)) := by
  generalize hm : l.length = m
  induction m using Nat.strong_induction_on generalizing l with
  | _ m ih =>
    obtain rfl := hm
    by_cases hlen : l.length < lineLimit
    · by_cases hne : l = []
      · rw [hne, nil_append, length_nil, if_pos (dvd_zero _), getRecord_blank, getRecord_blank]
      · have hndvd : ¬ lineLimit ∣ l.length :=
          Nat.not_dvd_of_pos_of_lt (length_pos_iff.mpr hne) hlen
        have hblank : l ++ [chr '\n'] ≠ [chr '\n'] := by simpa using hne
        rw [readLines_short (by decide) hl.1 hlen, getRecord, Reader.step, hl.str_concat,
          if_neg hblank, hcut, if_neg hndvd]
        simp
    · have hle : lineLimit ≤ l.length := by omega
      have hpos : 0 < lineLimit := by decide
      have hlt : (l.drop lineLimit).length < l.length := by
        rw [length_drop]
        omega
      -- the piece has no newline, so that the rest is still skipped
      have hpiece := hl.take lineLimit
      have hblank : l.take lineLimit ≠ [chr '\n'] := fun h => hpiece.1 (by rw [h]; simp)
      have hstep : s.step flag (l.take lineLimit) = .inl s := by
        rw [Reader.step, str_eq_self hpiece.2, if_neg hblank, hcut]
        simp [hpiece.1, ← hcut]
      rw [readLines_cut hl hle, getRecord, hstep]
      dsimp only
      rw [ih _ hlt (hl.drop _) rfl]
      simp only [lineLimit_dvd_length_drop hle]

/-! ## A line of the event -/

/-- The reader is behind the rule of an alert. -/
structure InEvent (s : Reader) : Prop where
  stage : s.stage = .event
  cut : s.cut = false
  group : s.group.isSome
  comment : s.comment.isSome

/-- What the lines of the event do not change. -/
structure SameHead (s s' : Reader) : Prop where
  stage : s'.stage = s.stage
  cut : s'.cut = s.cut
  syscheck_alert : s'.syscheck_alert = s.syscheck_alert
  alertid : s'.alertid = s.alertid
  date : s'.date = s.date
  comment : s'.comment = s.comment
  location : s'.location = s.location
  group : s'.group = s.group
  level : s'.level = s.level
  rule : s'.rule = s.rule

theorem SameHead.rfl : SameHead s s := by
  constructor <;> exact Eq.refl _

theorem SameHead.trans {s₁ s₂ s₃ : Reader} (h : SameHead s₁ s₂) (h' : SameHead s₂ s₃) :
    SameHead s₁ s₃ where
  stage := h'.stage.trans h.stage
  cut := h'.cut.trans h.cut
  syscheck_alert := h'.syscheck_alert.trans h.syscheck_alert
  alertid := h'.alertid.trans h.alertid
  date := h'.date.trans h.date
  comment := h'.comment.trans h.comment
  location := h'.location.trans h.location
  group := h'.group.trans h.group
  level := h'.level.trans h.level
  rule := h'.rule.trans h.rule

theorem SameHead.inEvent {s' : Reader} (h : SameHead s s') (hs : InEvent s) : InEvent s' where
  stage := h.stage.trans hs.stage
  cut := h.cut.trans hs.cut
  group := by
    rw [h.group]
    exact hs.group
  comment := by
    rw [h.comment]
    exact hs.comment

theorem blankLine_of_inEvent (hs : InEvent s) : blankLine s = .inr s :=
  if_pos ⟨hs.stage, hs.group, hs.comment⟩

variable {h : Header} {c : Change}

theorem eventLine_of_comment (hs : s.comment.isSome) (l : Bytes) :
    eventLine s l =
      match headerOf s l with
      | some h =>
        { s with header := Function.update s.header h (some ((clearNl l).drop h.begins.length)) }
      | none =>
        match changeOf s l with
        | some c =>
          { s with change := Function.update s.change c (some ((clearNl l).drop c.begins.length)) }
        | none => if s.log.length < 20 then logLine s l else s := by
  have hne : ¬ (s.comment = none ∧ s.log = [] ∧ RULE_BEGIN.isPrefixOf l) := by
    rintro ⟨hnone, -⟩
    rw [hnone] at hs
    cases hs
  exact if_neg hne

theorem eventLine_sameHead (hs : s.comment.isSome) (l : Bytes) : SameHead s (eventLine s l) := by
  rw [eventLine_of_comment hs]
  split
  · constructor <;> rfl
  split
  · constructor <;> rfl
  split
  · constructor <;> rfl
  · exact SameHead.rfl

theorem eventLine_cut (hs : s.comment.isSome) (b : Bool) (l : Bytes) :
    eventLine { s with cut := b } l = { eventLine s l with cut := b } := by
  have hheader : headerOf { s with cut := b } l = headerOf s l := rfl
  have hchange : changeOf { s with cut := b } l = changeOf s l := rfl
  rw [eventLine_of_comment hs, eventLine_of_comment (s := { s with cut := b }) hs, hheader, hchange]
  cases headerOf s l with
  | some h => rfl
  | none =>
    cases changeOf s l with
    | some c => rfl
    | none =>
      exact (apply_ite (fun s : Reader => { s with cut := b }) (s.log.length < 20) (logLine s l)
        s).symm

theorem isPrefixOf_concat {b : Bytes} (hb : chr '\n' ∉ b) (l : Bytes) :
    b.isPrefixOf (l ++ [chr '\n']) = b.isPrefixOf l := by
  rw [Bool.eq_iff_iff, List.isPrefixOf_iff_prefix, List.isPrefixOf_iff_prefix, prefix_concat_iff]
  refine or_iff_right fun h => hb ?_
  rw [h]
  exact mem_append_right _ (mem_singleton_self _)

theorem eventLine_concat (hs : s.comment.isSome) (hl : chr '\n' ∉ l) :
    eventLine s (l ++ [chr '\n']) = eventLine s l := by
  have hh : ∀ h : Header, chr '\n' ∉ h.begins := fun h => by cases h <;> decide
  have hc : ∀ c : Change, chr '\n' ∉ c.begins := fun c => by cases c <;> decide
  have hheader : headerOf s (l ++ [chr '\n']) = headerOf s l := by
    simp only [headerOf, isPrefixOf_concat (hh _)]
  have hchange : changeOf s (l ++ [chr '\n']) = changeOf s l := by
    simp only [changeOf, isPrefixOf_concat (hc _)]
  have hlog : logLine s (l ++ [chr '\n']) = logLine s l := by
    rw [logLine, logLine, clearNl_concat, clearNl_of_notMem hl]
  rw [eventLine_of_comment hs, eventLine_of_comment hs, hheader, hchange, hlog, clearNl_concat,
    clearNl_of_notMem hl]

/-- A line that does not fit is taken for its beginning. -/
theorem getRecord_cut (hs : InEvent s) (hl : Plain l) (hle : lineLimit ≤ l.length) :
    getRecord flag s (readLines bufferSize (l ++ chr '\n' :: t)) =
      getRecord flag (eventLine s (l.take lineLimit))
        (readLines bufferSize (if lineLimit ∣ l.length then chr '\n' :: t else t)) := by
  have hpiece := hl.take lineLimit
  have hblank : l.take lineLimit ≠ [chr '\n'] := fun h => hpiece.1 (by rw [h]; simp)
  have hstep : s.step flag (l.take lineLimit) =
      .inl { eventLine s (l.take lineLimit) with cut := true } := by
    have htext : textLine flag { s with cut := true } (l.take lineLimit) =
        eventLine { s with cut := true } (l.take lineLimit) := by
      simp [textLine, hs.stage, str_eq_self hpiece.2]
    rw [Reader.step, str_eq_self hpiece.2, if_neg hblank, hs.cut, if_neg Bool.false_ne_true,
      ← eventLine_cut hs.comment, ← htext]
    simp [hpiece.1]
  have hsame := eventLine_sameHead hs.comment (l.take lineLimit)
  have huncut : { eventLine s (l.take lineLimit) with cut := false } =
      eventLine s (l.take lineLimit) := by
    rw [← hs.cut, ← hsame.cut]
  rw [readLines_cut hl hle, getRecord, hstep]
  dsimp only
  rw [getRecord_rest rfl (hl.drop _)]
  simp only [lineLimit_dvd_length_drop hle, huncut]

theorem getRecord_event (hs : InEvent s) (hl : Plain l) (hlen : ¬ lineLimit ∣ l.length) :
    getRecord flag s (readLines bufferSize (l ++ chr '\n' :: t)) =
      getRecord flag (eventLine s (l.take lineLimit)) (readLines bufferSize t) := by
  by_cases hlt : l.length < lineLimit
  · have hne : l ≠ [] := by
      rintro rfl
      exact hlen (dvd_zero _)
    have htext : textLine flag s (l ++ [chr '\n']) = eventLine s (l ++ [chr '\n']) := by
      simp [textLine, hs.stage, hl.str_concat]
    rw [getRecord_short hs.cut hl hne hlt, htext, eventLine_concat hs.comment hl.1,
      take_of_length_le hlt.le]
  · rw [getRecord_cut hs hl (by omega), if_neg hlen]

/-- A line of the event that counts as blank ends the alert. -/
theorem getRecord_event_blank (hs : InEvent s) (hl : Plain l) (hlen : lineLimit ∣ l.length) :
    ∃ r, getRecord flag s (readLines bufferSize (l ++ chr '\n' :: t)) =
      some (r, readLines bufferSize t) := by
  have hend : ∀ s', InEvent s' →
      getRecord flag s' (readLines bufferSize (chr '\n' :: t)) =
        some (s', readLines bufferSize t) := by
    intro s' hs'
    have huncut : { s' with cut := false } = s' := by rw [← hs'.cut]
    rw [getRecord_blank, huncut, blankLine_of_inEvent hs']
  by_cases hne : l = []
  · rw [hne]
    exact ⟨s, hend s hs⟩
  · have hle := Nat.le_of_dvd (length_pos_iff.mpr hne) hlen
    rw [getRecord_cut hs hl hle, if_pos hlen]
    exact ⟨_, hend _ ((eventLine_sameHead hs.comment _).inEvent hs)⟩

/-! ## The lines of the event -/

/-- The reader behind some lines of the event. -/
def readLog (s : Reader) : List Bytes → Reader
  | [] => s
  | l :: ls => readLog (eventLine s (l.take lineLimit)) ls

variable {ls : List Bytes}

theorem readLog_append (s : Reader) (ls ls' : List Bytes) :
    readLog s (ls ++ ls') = readLog (readLog s ls) ls' := by
  induction ls generalizing s with
  | nil => rfl
  | cons l ls ih => exact ih _

theorem readLog_sameHead (hs : s.comment.isSome) (ls : List Bytes) :
    SameHead s (readLog s ls) := by
  induction ls generalizing s with
  | nil => exact SameHead.rfl
  | cons l ls ih =>
    have hl := eventLine_sameHead hs (l.take lineLimit)
    have hcomment : (eventLine s (l.take lineLimit)).comment.isSome := by rwa [hl.comment]
    exact hl.trans (ih hcomment)

/-- An alert whose log has no line that counts as blank is read to its blank line. -/
theorem getRecord_readLog (hs : InEvent s) (hls : ∀ l ∈ ls, Plain l ∧ ¬ lineLimit ∣ l.length) :
    getRecord flag s (readLines bufferSize (unlines ls ++ [chr '\n'])) =
      some (readLog s ls, []) := by
  induction ls generalizing s with
  | nil =>
    have huncut : { s with cut := false } = s := by rw [← hs.cut]
    rw [unlines_nil, nil_append, getRecord_blank, huncut, blankLine_of_inEvent hs]
    rfl
  | cons l ls ih =>
    rw [forall_mem_cons] at hls
    rw [unlines_cons, append_assoc, cons_append, getRecord_event hs hls.1.1 hls.1.2]
    exact ih ((eventLine_sameHead hs.comment _).inEvent hs) hls.2

/-- And if the alert is read to its end, there is no such line. -/
theorem not_dvd_of_getRecord (hs : InEvent s) (hls : ∀ l ∈ ls, Plain l)
    (h : getRecord flag s (readLines bufferSize (unlines ls ++ [chr '\n'])) = some (r, [])) :
    ∀ l ∈ ls, ¬ lineLimit ∣ l.length := by
  induction ls generalizing s with
  | nil => exact fun _ hl => absurd hl not_mem_nil
  | cons l ls ih =>
    rw [forall_mem_cons] at hls
    rw [unlines_cons, append_assoc, cons_append] at h
    have hlen : ¬ lineLimit ∣ l.length := by
      intro hdvd
      -- the alert has ended with lines left
      obtain ⟨r', hr'⟩ := getRecord_event_blank (t := unlines ls ++ [chr '\n']) hs
        hls.1 hdvd
      rw [hr'] at h
      have hnil := (Prod.mk.inj (some.inj h)).2
      rw [readLines_cons (by decide) (by simp)] at hnil
      cases hnil
    rw [getRecord_event hs hls.1 hlen] at h
    rw [forall_mem_cons]
    exact ⟨hlen, ih ((eventLine_sameHead hs.comment _).inEvent hs) hls.2 h⟩

/-! ## What a line is taken for -/

/-- Where no one of some beginnings is the beginning of another, a line has one of them at most. -/
theorem eq_of_isPrefix {ι : Type*} {begins : ι → Bytes}
    (hb : ∀ i j, begins i <+: begins j → i = j) {i j : ι} (hi : begins i <+: l)
    (hj : begins j <+: l) : i = j :=
  (List.prefix_or_prefix_of_prefix hi hj).elim (hb i j) fun h => (hb j i h).symm

theorem Header.eq_of_isPrefix {h h' : Header} (hh : h.begins <+: l) (hh' : h'.begins <+: l) :
    h = h' :=
  AlertLog.eq_of_isPrefix (fun i j => by cases i <;> cases j <;> decide) hh hh'

theorem Change.eq_of_isPrefix {c c' : Change} (hc : c.begins <+: l) (hc' : c'.begins <+: l) :
    c = c' :=
  AlertLog.eq_of_isPrefix (fun i j => by cases i <;> cases j <;> decide) hc hc'

theorem not_isPrefix_change (hh : h.begins <+: l) : ¬ c.begins <+: l := by
  intro hc
  have hne : ¬ h.begins <+: c.begins ∧ ¬ c.begins <+: h.begins := by
    cases h <;> cases c <;> decide
  exact (List.prefix_or_prefix_of_prefix hh hc).elim hne.1 hne.2

/-- An optional header is taken where it is still missing, in front of the log. -/
theorem headerOf_eq_some_iff :
    headerOf s l = some h ↔ s.log = [] ∧ s.header h = none ∧ h.begins <+: l := by
  constructor
  · intro hfind
    have hp := find?_some hfind
    simp only [Bool.and_eq_true, List.isEmpty_iff, isNone_iff_eq_none,
      List.isPrefixOf_iff_prefix] at hp
    exact ⟨hp.1.1, hp.1.2, hp.2⟩
  · rintro ⟨hlog, hnone, hbegins⟩
    have hp : ∀ h', (s.log.isEmpty && (s.header h').isNone && h'.begins.isPrefixOf l) = true ↔
        s.header h' = none ∧ h'.begins <+: l := by
      intro h'
      simp [hlog]
    cases hfind : headerOf s l with
    | none =>
      exact absurd ((hp h).mpr ⟨hnone, hbegins⟩) (find?_eq_none.mp hfind h (Header.mem_all h))
    | some h' =>
      have hfound := find?_some hfind
      rw [Header.eq_of_isPrefix ((hp h').mp hfound).2 hbegins]

theorem changeOf_eq_some_iff :
    changeOf s l = some c ↔ s.syscheck_alert = true ∧ c.begins <+: l := by
  constructor
  · intro hfind
    have hp := find?_some hfind
    simpa only [Bool.and_eq_true, List.isPrefixOf_iff_prefix] using hp
  · rintro ⟨hsys, hbegins⟩
    have hp : ∀ c' : Change, (s.syscheck_alert && c'.begins.isPrefixOf l) = true ↔
        c'.begins <+: l := by
      intro c'
      simp [hsys]
    cases hfind : changeOf s l with
    | none => exact absurd ((hp c).mpr hbegins) (find?_eq_none.mp hfind c (Change.mem_all c))
    | some c' =>
      have hfound := find?_some hfind
      rw [Change.eq_of_isPrefix ((hp c').mp hfound) hbegins]

/-- The line is a report of syscheck, if the alert is one of syscheck. -/
def isChange (syscheck : Bool) (l : Bytes) : Bool :=
  syscheck && Change.all.any fun c => c.begins.isPrefixOf l

theorem isChange_iff {syscheck : Bool} :
    isChange syscheck l ↔ syscheck = true ∧ ∃ c : Change, c.begins <+: l := by
  simp only [isChange, Bool.and_eq_true, List.any_eq_true, List.isPrefixOf_iff_prefix]
  exact and_congr_right fun _ => ⟨fun ⟨c, _, hc⟩ => ⟨c, hc⟩, fun ⟨c, hc⟩ => ⟨c, c.mem_all, hc⟩⟩

theorem changeOf_eq_none_iff : changeOf s l = none ↔ isChange s.syscheck_alert l = false := by
  rw [← Bool.not_eq_true, isChange_iff, eq_none_iff_forall_ne_some]
  simp only [ne_eq, changeOf_eq_some_iff]
  tauto

/-! ## What becomes of the lines -/

/-- The lines as they are read. -/
def shown (ls : List Bytes) : List Bytes := ls.map (·.take lineLimit)

/-- The lines that are log. -/
def logOf (syscheck : Bool) (ls : List Bytes) : List Bytes :=
  (shown ls).filter fun l => !isChange syscheck l

/-- What syscheck reports last under a beginning. -/
def reported (c : Change) (ls : List Bytes) : Option Bytes :=
  ((shown ls).filter fun l => c.begins.isPrefixOf l).getLast?.map (·.drop c.begins.length)

theorem logOf_cons (syscheck : Bool) (l : Bytes) (ls : List Bytes) :
    logOf syscheck (l :: ls) =
      if isChange syscheck (l.take lineLimit) then logOf syscheck ls
      else l.take lineLimit :: logOf syscheck ls := by
  cases hc : isChange syscheck (l.take lineLimit) with
  | false => exact filter_cons_of_pos (by rw [hc]; rfl)
  | true => exact filter_cons_of_neg (by rw [hc]; decide)

theorem reported_cons (c : Change) (l : Bytes) (ls : List Bytes) :
    reported c (l :: ls) =
      (reported c ls).or
        (if c.begins.isPrefixOf (l.take lineLimit) then
          some ((l.take lineLimit).drop c.begins.length) else none) := by
  have hshown : shown (l :: ls) = l.take lineLimit :: shown ls := rfl
  rw [reported, reported, hshown]
  split
  case isTrue hp =>
    rw [filter_cons_of_pos hp, getLast?_cons]
    cases ((shown ls).filter fun l => c.begins.isPrefixOf l).getLast? <;> rfl
  case isFalse hp => rw [filter_cons_of_neg hp, or_none]

/-- What a line of the event changes. -/
theorem eventLine_cases (hs : s.comment.isSome) (hl : chr '\n' ∉ l) :
    (∃ h, headerOf s l = some h ∧
      eventLine s l =
        { s with header := Function.update s.header h (some (l.drop h.begins.length)) }) ∨
    (∃ c, headerOf s l = none ∧ changeOf s l = some c ∧
      eventLine s l =
        { s with change := Function.update s.change c (some (l.drop c.begins.length)) }) ∨
    (headerOf s l = none ∧ changeOf s l = none ∧
      eventLine s l = if s.log.length < 20 then logLine s l else s) := by
  rw [eventLine_of_comment hs, clearNl_of_notMem hl]
  cases headerOf s l with
  | some h => exact .inl ⟨h, rfl, rfl⟩
  | none =>
    cases changeOf s l with
    | some c => exact .inr (.inl ⟨c, rfl, rfl, rfl⟩)
    | none => exact .inr (.inr ⟨rfl, rfl, rfl⟩)

theorem eventLine_change (hs : s.comment.isSome) (hl : chr '\n' ∉ l) (c : Change) :
    (eventLine s l).change c =
      if s.syscheck_alert ∧ c.begins.isPrefixOf l then some (l.drop c.begins.length)
      else s.change c := by
  have hbegins : c.begins.isPrefixOf l ↔ c.begins <+: l := List.isPrefixOf_iff_prefix
  obtain ⟨h, hheader, heq⟩ | ⟨c', -, hchange, heq⟩ | ⟨-, hchange, heq⟩ := eventLine_cases hs hl
  · -- a header is no report
    have hh := (headerOf_eq_some_iff.mp hheader).2.2
    rw [heq, if_neg fun hc => not_isPrefix_change hh (hbegins.mp hc.2)]
  · obtain ⟨hsys, hc'⟩ := changeOf_eq_some_iff.mp hchange
    rw [heq]
    by_cases hc : c = c'
    · obtain rfl := hc
      rw [if_pos ⟨hsys, hbegins.mpr hc'⟩]
      exact update_self _ _ _
    · rw [if_neg fun h => hc (Change.eq_of_isPrefix (hbegins.mp h.2) hc')]
      exact update_of_ne hc _ _
  · have hnot : ¬ (s.syscheck_alert = true ∧ c.begins.isPrefixOf l) := by
      rw [hbegins, ← changeOf_eq_some_iff, hchange]
      exact (some_ne_none c).symm
    rw [heq, if_neg hnot]
    split <;> rfl

theorem isChange_of_changeOf {c : Change} (h : changeOf s l = some c) :
    isChange s.syscheck_alert l = true := by
  rw [isChange_iff]
  obtain ⟨hsys, hbegins⟩ := changeOf_eq_some_iff.mp h
  exact ⟨hsys, c, hbegins⟩

/-- A piece of the first line, what stays the same behind it, and the other lines. -/
theorem first_piece (hs : s.comment.isSome) (hls : ∀ l' ∈ l :: ls, chr '\n' ∉ l') :
    chr '\n' ∉ l.take lineLimit ∧ SameHead s (eventLine s (l.take lineLimit)) ∧
      (eventLine s (l.take lineLimit)).comment.isSome ∧ ∀ l' ∈ ls, chr '\n' ∉ l' := by
  have hsame := eventLine_sameHead hs (l.take lineLimit)
  rw [forall_mem_cons] at hls
  exact ⟨fun h => hls.1 (mem_of_mem_take h), hsame, by rwa [hsame.comment], hls.2⟩

theorem readLog_change (hs : s.comment.isSome) (hls : ∀ l ∈ ls, chr '\n' ∉ l) (c : Change) :
    (readLog s ls).change c =
      if s.syscheck_alert then (reported c ls).or (s.change c) else s.change c := by
  induction ls generalizing s with
  | nil => exact (ite_self _).symm
  | cons l ls ih =>
    obtain ⟨htake, hsame, hcomment, hls⟩ := first_piece hs hls
    rw [readLog, ih hcomment hls, hsame.syscheck_alert, eventLine_change hs htake, reported_cons,
      Option.or_assoc]
    cases s.syscheck_alert with
    | false => simp
    | true =>
      simp only [true_and, if_true]
      split <;> rfl

/-- A header that has been taken stays. -/
theorem readLog_header_ne_none (hs : s.comment.isSome) (hls : ∀ l ∈ ls, chr '\n' ∉ l)
    (hh : s.header h ≠ none) : (readLog s ls).header h ≠ none := by
  induction ls generalizing s with
  | nil => exact hh
  | cons l ls ih =>
    obtain ⟨htake, hsame, hcomment, hls⟩ := first_piece hs hls
    refine ih hcomment hls ?_
    obtain ⟨h', -, heq⟩ | ⟨c, -, -, heq⟩ | ⟨-, -, heq⟩ := eventLine_cases hs htake
    · rw [heq]
      dsimp only
      by_cases hne : h = h'
      · rw [hne, update_self]
        exact some_ne_none _
      · rwa [update_of_ne hne]
    · rw [heq]
      exact hh
    · rw [heq]
      split <;> exact hh

/-- The first line of the log does not begin like an optional header that is missing. -/
def NoHeader (s : Reader) (ls : List Bytes) : Prop :=
  ∀ l ∈ (logOf s.syscheck_alert ls).head?, ∀ h, s.header h = none → ¬ h.begins <+: l

/-- Then the lines become log, twenty of them at most, and no header is taken. -/
theorem readLog_log (hs : s.comment.isSome) (hls : ∀ l ∈ ls, chr '\n' ∉ l)
    (hfree : s.log = [] → NoHeader s ls) (hlen : s.log.length ≤ 20) :
    (readLog s ls).log = (s.log ++ logOf s.syscheck_alert ls).take 20 ∧
      (readLog s ls).header = s.header := by
  induction ls generalizing s with
  | nil =>
    have hnil : logOf s.syscheck_alert [] = [] := rfl
    rw [hnil, append_nil, take_of_length_le hlen]
    exact ⟨rfl, rfl⟩
  | cons l ls ih =>
    obtain ⟨htake, hsame, hcomment, hls⟩ := first_piece hs hls
    have hlog := logOf_cons s.syscheck_alert l ls
    rw [readLog]
    obtain ⟨h, hheader, -⟩ | ⟨c, -, hchange, heq⟩ | ⟨-, hchange, heq⟩ := eventLine_cases hs htake
    · -- no header is missing that the line could be taken for
      obtain ⟨hnil, hnone, hbegins⟩ := headerOf_eq_some_iff.mp hheader
      have hno : isChange s.syscheck_alert (l.take lineLimit) = false := by
        rw [← Bool.not_eq_true, isChange_iff]
        rintro ⟨-, c, hc⟩
        exact not_isPrefix_change hbegins hc
      rw [hno, if_neg Bool.false_ne_true] at hlog
      refine absurd hbegins (hfree hnil _ ?_ h hnone)
      rw [hlog]
      exact rfl
    · have hyes := isChange_of_changeOf hchange
      rw [hyes, if_pos rfl] at hlog
      have hfree' : s.log = [] → NoHeader s ls := by
        intro hnil
        rw [NoHeader, ← hlog]
        exact hfree hnil
      rw [heq] at hcomment ⊢
      rw [hlog]
      exact ih hcomment hls hfree' hlen
    · rw [changeOf_eq_none_iff] at hchange
      rw [hchange, if_neg Bool.false_ne_true] at hlog
      rw [heq] at hcomment ⊢
      split
      case isTrue hlt =>
        rw [if_pos hlt] at hcomment
        have hlines : (logLine s (l.take lineLimit)).log = s.log ++ [l.take lineLimit] := by
          rw [logLine, clearNl_of_notMem htake]
        have hnext := ih hcomment hls
          (fun hnil => absurd (hlines.symm.trans hnil) (append_ne_nil_of_right_ne_nil _ (by simp)))
          (by rw [hlines, length_append]; exact hlt)
        rw [hlines, append_assoc] at hnext
        rw [hlog]
        exact hnext
      case isFalse hge =>
        rw [if_neg hge] at hcomment
        -- the twenty lines are there
        have hfull : s.log.length = 20 := by omega
        have hnext := ih hcomment hls (fun hnil => absurd hfull (by rw [hnil]; decide)) hlen
        rw [take_append_of_le_length hfull.ge] at hnext ⊢
        exact hnext

/-- Otherwise that header is taken. -/
theorem header_ne_none_of_not_noHeader (hs : s.comment.isSome) (hls : ∀ l ∈ ls, chr '\n' ∉ l)
    (hlog : s.log = []) (hfree : ¬ NoHeader s ls) :
    ∃ h, s.header h = none ∧ (readLog s ls).header h ≠ none := by
  induction ls generalizing s with
  | nil => exact absurd (fun _ hmem => absurd hmem (by simp [logOf, shown])) hfree
  | cons l ls ih =>
    obtain ⟨htake, hsame, hcomment, hls⟩ := first_piece hs hls
    have hcons := logOf_cons s.syscheck_alert l ls
    rw [readLog]
    obtain ⟨h, hheader, heq⟩ | ⟨c, -, hchange, heq⟩ | ⟨hheader, hchange, heq⟩ :=
      eventLine_cases hs htake
    · refine ⟨h, (headerOf_eq_some_iff.mp hheader).2.1, readLog_header_ne_none hcomment hls ?_⟩
      rw [heq]
      dsimp only
      rw [update_self]
      exact some_ne_none _
    · have hyes := isChange_of_changeOf hchange
      rw [hyes, if_pos rfl] at hcons
      rw [NoHeader, hcons] at hfree
      rw [heq] at hcomment ⊢
      exact ih hcomment hls hlog hfree
    · -- the first line of the log is not taken for a header
      rw [changeOf_eq_none_iff] at hchange
      rw [hchange, if_neg Bool.false_ne_true] at hcons
      refine absurd ?_ hfree
      intro l' hl' h hnone hbegins
      rw [hcons] at hl'
      obtain rfl := some.inj hl'
      have htaken := headerOf_eq_some_iff.mpr ⟨hlog, hnone, hbegins⟩
      rw [hheader] at htaken
      cases htaken

end AlertLog
