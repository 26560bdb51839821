import OssecHids.Shared.ReadAlert
import OssecHids.Lib.Transition

/-!
# Which lines an alert is made of

`GetAlertData` keeps what it has read of an alert in variables that live as long as the call, and a
line that it cannot use sends it back to the header of the next alert. This module says when the
alert that a call returns is made of the lines of one record.

* `Reads`: a piece after which the loop goes on; `getRecord_eq_some_iff` reads a call as a run.
* `OneRecord`: a header line and the lines up to the next one.
* `Robust`: the alert is that of one record, and no piece but the beginning of a line is parsed.
* `mixes`: the pieces that break it: a header line that stands where the date of another record is
  expected and does not overwrite all of its header, or that is not seen there, and the tail of a
  line that is taken for a header.
* `Held`: what holds in front of every piece of a call without such pieces; `Held.step`.
-/

open CString Transition List

namespace AlertLog

open Reader

variable {flag : ℕ} {start : Bool} {s s' r : Reader} {h line : Bytes}
  {before rest lines : List Bytes}

/-- The loop goes on behind the piece. -/
def Reads (flag : ℕ) (s : Reader) (line : Bytes) (s' : Reader) : Prop :=
  s.step flag line = .inl s'

theorem reads_unique (hr : Run (Reads flag) s lines s') (hr' : Run (Reads flag) s lines r) :
    s' = r := by
  induction hr with
  | nil =>
    cases hr'
    rfl
  | cons hstep _ ih =>
    cases hr' with
    | cons hstep' hrest =>
      obtain rfl := Sum.inl.inj (hstep.symm.trans hstep')
      exact ih hrest

/-- A call is a run, up to the blank line that ends the alert. -/
theorem getRecord_eq_some_iff :
    getRecord flag s lines = some (r, rest) ↔
      ∃ before line s', lines = before ++ line :: rest ∧ Run (Reads flag) s before s' ∧
        s'.step flag line = .inr r := by
  constructor
  · intro hread
    induction lines generalizing s with
    | nil => cases hread
    | cons line lines ih =>
      rw [getRecord] at hread
      cases hs : s.step flag line with
      | inl s' =>
        rw [hs] at hread
        obtain ⟨before, line', t, rfl, hrun, hend⟩ := ih hread
        exact ⟨line :: before, line', t, rfl, .cons hs hrun, hend⟩
      | inr s' =>
        rw [hs] at hread
        cases hread
        exact ⟨[], line, s, rfl, .nil s, hs⟩
  · rintro ⟨before, line, t, rfl, hrun, hend⟩
    induction hrun with
    | nil s =>
      rw [nil_append, getRecord, hend]
    | cons hstep _ ih =>
      rw [cons_append, getRecord, hstep]
      exact ih hend

theorem stage_of_step_inr (hstep : s.step flag line = .inr r) : s.stage = .event := by
  rw [Reader.step] at hstep
  split at hstep
  · rw [blankLine] at hstep
    split at hstep
    case isTrue h => exact h.1
    case isFalse => cases hstep
  · split at hstep <;> cases hstep

/-! ## Records -/

/-- The line begins a record. -/
def isAlert (line : Bytes) : Bool := ALERT_BEGIN.isPrefixOf (str line)

/-- The piece behind `before` begins a line; of the first piece `start` says so. -/
def beginsLine (start : Bool) (before : List Bytes) : Bool :=
  (before.getLast?.map fun line => line.contains (chr '\n')).getD start

@[simp]
theorem beginsLine_nil : beginsLine start [] = start := rfl

@[simp]
theorem beginsLine_concat : beginsLine start (before ++ [line]) = line.contains (chr '\n') := by
  simp [beginsLine]

theorem beginsLine_cons :
    beginsLine start (line :: before) = beginsLine (line.contains (chr '\n')) before := by
  cases before with
  | nil => rfl
  | cons b before => rw [beginsLine, beginsLine, getLast?_cons_cons]; rfl

theorem beginsLine_append_cons (before : List Bytes) :
    beginsLine start (before ++ (h :: rest)) = beginsLine true (h :: rest) := by
  have hlast : ((h :: rest).getLast?) = some ((h :: rest).getLast (cons_ne_nil _ _)) :=
    getLast?_eq_some_getLast _
  rw [beginsLine, beginsLine, getLast?_append, hlast]
  rfl

/-- A header line and the lines behind it, none of which is a header line as long as the date has
not been read: behind the date it is text of the event. -/
structure OneRecord (flag : ℕ) (h : Bytes) (rest : List Bytes) : Prop where
  head : isAlert h = true
  only : ∀ before line s, before ++ [line] <+: rest → Run (Reads flag) {} (h :: before) s →
    s.stage ≠ .event → beginsLine true (h :: before) = true → isAlert line = false

theorem OneRecord.concat (hone : OneRecord flag h rest) (hrun : Run (Reads flag) {} (h :: rest) s)
    (halert : s.stage ≠ .event → beginsLine true (h :: rest) = true → isAlert line = false) :
    OneRecord flag h (rest ++ [line]) := by
  refine ⟨hone.head, fun before l t hpre ht hevent hline => ?_⟩
  rcases prefix_concat_iff.mp hpre with hpre | hpre
  · obtain ⟨rfl, rfl⟩ := append_inj' hpre rfl |>.imp id singleton_inj.mp
    obtain rfl := reads_unique ht hrun
    exact halert hevent hline
  · exact hone.only before l t hpre ht hevent hline

/-- The piece is taken for a line of an alert. -/
def Parses (s : Reader) (line : Bytes) : Prop :=
  str line ≠ [chr '\n'] ∧ s.cut = false ∧ (s.stage ≠ .header ∨ isAlert line = true)

/-- What is asked of a call that finds `lines` in the file. -/
structure Robust (flag : ℕ) (start : Bool) (lines : List Bytes) : Prop where
  /-- The alert is the one that is read from a record alone. -/
  alert : ∀ r rest, getRecord flag {} lines = some (r, rest) →
    ∃ before h record, lines = before ++ (h :: record) ++ rest ∧
      beginsLine start before = true ∧ OneRecord flag h record ∧
      getRecord flag {} (h :: record) = some (r, [])
  /-- The tail of a line is not parsed. -/
  tail : ∀ before line s, before ++ [line] <+: lines → Run (Reads flag) {} before s →
    Parses s line → beginsLine start before = true

/-! ## The pieces that mix records -/

/-- The header line overwrites all that `s` has of the header of another record. -/
def brings (flag : ℕ) (s : Reader) (line : Bytes) : Bool :=
  let p := str (line.drop (ALERT_BEGIN.length + 1))
  (strstr (lit ":") p).isSome &&
    match strchr (chr ' ') p with
    | none => false
    | some p =>
      (flag &&& CRALERT_MAIL_SET == 0 || strncmpEq 4 ALERT_MAIL p.tail) &&
        match strchr (chr '-') p.tail with
        | none => s.group.isNone
        | some p => !s.syscheck_alert || (strstr (lit "syscheck") (clearNl p.tail)).isSome

/-- A header line that is read where a date is expected and leaves something of the header in front
of it, one that is skipped there, and the tail of a line that is read as a header. -/
def mixes (flag : ℕ) (start : Bool) (s : Reader) (line : Bytes) : Bool :=
  isAlert line &&
    match s.stage with
    | .header => !start && !s.cut
    | .date => if s.cut then start else !brings flag s line
    | .event => false

/-- No piece of the call mixes two records. -/
def Orderly (flag : ℕ) (start : Bool) (lines : List Bytes) : Prop :=
  ∀ before line s, before ++ [line] <+: lines → Run (Reads flag) {} before s →
    mixes flag (beginsLine start before) s line = false

/-- The loop from the state `s` on, with a look at every piece that it reads. -/
def orderlyFrom (flag : ℕ) : Bool → Reader → List Bytes → Bool
  | _, _, [] => true
  | start, s, line :: lines =>
    !mixes flag start s line &&
      match s.step flag line with
      | .inl s => orderlyFrom flag (line.contains (chr '\n')) s lines
      | .inr _ => true

theorem orderlyFrom_iff : orderlyFrom flag start s lines = true ↔
    ∀ before line t, before ++ [line] <+: lines → Run (Reads flag) s before t →
      mixes flag (beginsLine start before) t line = false := by
  induction lines generalizing start s with
  | nil => simp [orderlyFrom]
  | cons line lines ih =>
    rw [orderlyFrom, Bool.and_eq_true, Bool.not_eq_true']
    constructor
    · rintro ⟨hline, hrest⟩ before l t hpre hrun
      cases hrun with
      | nil =>
        obtain rfl := (cons_prefix_cons.mp hpre).1
        exact hline
      | cons hstep hrun =>
        obtain ⟨rfl, hpre'⟩ := cons_prefix_cons.mp hpre
        rw [Reads] at hstep
        rw [hstep] at hrest
        rw [beginsLine_cons]
        exact ih.mp hrest _ l t hpre' hrun
    · intro h
      refine ⟨h [] line s (by simp) (.nil s), ?_⟩
      cases hstep : s.step flag line with
      | inr r => rfl
      | inl s' =>
        refine ih.mpr fun before l t hpre hrun => ?_
        have hcons : beginsLine start (line :: before) =
            beginsLine (line.contains (chr '\n')) before := beginsLine_cons
        rw [← hcons]
        exact h (line :: before) l t (cons_prefix_cons.mpr ⟨rfl, hpre⟩) (.cons hstep hrun)

instance : Decidable (Orderly flag start lines) :=
  decidable_of_iff (orderlyFrom flag start {} lines = true) orderlyFrom_iff

/-! ## The header -/

/-- The reader has seen the header of a record. -/
def headed (cut : Bool) (alertid group : Option Bytes) (syscheck : Bool) : Reader :=
  { stage := .date, cut := cut, alertid := alertid, group := group, issyscheck := syscheck,
    syscheck_alert := syscheck }

/-- A header line that is read where one is looked for: what it brings does not depend on the number
of a record that was skipped. -/
theorem alertLine_of_header (flag : ℕ) (cut : Bool) (line : Bytes) :
    (∀ id, ∃ id', alertLine flag { cut := cut, alertid := id } line =
        { cut := cut, alertid := id' }) ∨
      ∃ id group syscheck, (group = none → syscheck = false) ∧
        ∀ id', alertLine flag { cut := cut, alertid := id' } line =
          headed cut (some id) group syscheck := by
  simp only [alertLine]
  cases strstr (lit ":") (str (line.drop (ALERT_BEGIN.length + 1))) with
  | none => exact .inl fun id => ⟨id, rfl⟩
  | some m =>
    cases strchr (chr ' ') (str (line.drop (ALERT_BEGIN.length + 1))) with
    | none => exact .inl fun _ => ⟨_, rfl⟩
    | some p =>
      by_cases hmail : flag &&& CRALERT_MAIL_SET ≠ 0 ∧ strncmpEq 4 ALERT_MAIL p.tail = false
      · simp only [if_pos hmail]
        exact .inl fun _ => ⟨_, rfl⟩
      · simp only [if_neg hmail]
        right
        cases strchr (chr '-') p.tail with
        | none => exact ⟨_, none, false, fun _ => rfl, fun _ => rfl⟩
        | some q =>
          by_cases hsys : (strstr (lit "syscheck") (clearNl q.tail)).isSome
          · simp only [if_pos hsys]
            exact ⟨_, some (clearNl q.tail), true, fun h => (by cases h), fun _ => rfl⟩
          · simp only [if_neg hsys]
            exact ⟨_, some (clearNl q.tail), false, fun _ => rfl, fun _ => rfl⟩

/-- A header line that overwrites the header in front of it is read as if there were none. -/
theorem alertLine_of_brings {cut : Bool} {id group : Option Bytes} {syscheck : Bool}
    (hsys : group = none → syscheck = false)
    (hb : brings flag (headed cut id group syscheck) line = true) :
    alertLine flag (headed cut id group syscheck) line = alertLine flag { cut := cut } line := by
  rw [brings, Bool.and_eq_true] at hb
  obtain ⟨hcolon, hb⟩ := hb
  simp only [alertLine]
  cases hm : strstr (lit ":") (str (line.drop (ALERT_BEGIN.length + 1))) with
  | none =>
    rw [hm] at hcolon
    cases hcolon
  | some m =>
    cases hp : strchr (chr ' ') (str (line.drop (ALERT_BEGIN.length + 1))) with
    | none =>
      rw [hp] at hb
      cases hb
    | some p =>
      simp only [hp, Bool.and_eq_true, Bool.or_eq_true, beq_iff_eq] at hb
      obtain ⟨hwanted, hb⟩ := hb
      have hmail : ¬ (flag &&& CRALERT_MAIL_SET ≠ 0 ∧ strncmpEq 4 ALERT_MAIL p.tail = false) := by
        rintro ⟨h0, h1⟩
        obtain h | h := hwanted
        · exact h0 h
        · rw [h1] at h
          cases h
      simp only [if_neg hmail]
      cases hq : strchr (chr '-') p.tail with
      | none =>
        -- no group is kept, and then no mark of syscheck either
        simp only [hq, headed, Option.isNone_iff_eq_none] at hb
        obtain rfl := hb
        obtain rfl := hsys rfl
        rfl
      | some q =>
        simp only [hq, headed, Bool.or_eq_true, Bool.not_eq_true'] at hb
        by_cases hg : (strstr (lit "syscheck") (clearNl q.tail)).isSome
        · simp only [if_pos hg]
          rfl
        · simp only [if_neg hg]
          obtain rfl := hb.resolve_right hg
          rfl

/-! ## The lines behind the header -/

theorem dateLine_eq (s : Reader) (str : Bytes) :
    dateLine s str = error ∨ (dateLine s str).stage = .event ∧ (dateLine s str).cut = s.cut := by
  rw [dateLine]
  cases strchr (chr ':') (clearNl str) with
  | none => exact .inl rfl
  | some p =>
    dsimp only
    cases strchr (chr ' ') p with
    | none => exact .inl rfl
    | some p =>
      dsimp only
      split
      · exact .inl rfl
      · exact .inr ⟨rfl, rfl⟩

theorem ruleLine_eq (s : Reader) (str : Bytes) :
    ruleLine s str = error ∨
      (ruleLine s str).stage = s.stage ∧ (ruleLine s str).cut = s.cut := by
  rw [ruleLine]
  split
  · exact .inl rfl
  split
  · exact .inl rfl
  split
  · exact .inl rfl
  split
  · exact .inl rfl
  · exact .inr ⟨rfl, rfl⟩

/-- Of the lines behind the date only a rule that cannot be read gives the alert up. -/
theorem eventLine_eq (s : Reader) (str : Bytes) :
    eventLine s str = error ∨
      (eventLine s str).stage = s.stage ∧ (eventLine s str).cut = s.cut := by
  rw [eventLine]
  split
  · exact ruleLine_eq s str
  split
  · exact .inr ⟨rfl, rfl⟩
  split
  · exact .inr ⟨rfl, rfl⟩
  split
  · exact .inr ⟨rfl, rfl⟩
  · exact .inr ⟨rfl, rfl⟩

theorem contains_str_of_contains (hline : line.contains (chr '\n') = false) :
    (!(str line).contains (chr '\n')) = true := by
  rw [Bool.not_eq_true', ← Bool.not_eq_true, contains_iff_mem] at *
  exact fun h => hline ((List.takeWhile_prefix _).subset h)

/-! ## What holds in front of every piece -/

/-- Outside of a record the reader has nothing but a number; inside one it is where it gets with the
pieces of the record alone. -/
structure Held (flag : ℕ) (start : Bool) (before : List Bytes) (s : Reader) : Prop where
  header : s.stage = .header → s = { cut := s.cut, alertid := s.alertid }
  date : s.stage = .date → ∃ id group syscheck, (group = none → syscheck = false) ∧
    s = headed s.cut id group syscheck
  tail : beginsLine start before = false → s.cut = true ∨ s.stage = .header
  record : s.stage ≠ .header → ∃ before' h record, before = before' ++ (h :: record) ∧
    beginsLine start before' = true ∧ OneRecord flag h record ∧
    Run (Reads flag) {} (h :: record) s

namespace Held

theorem nil : Held flag start [] {} where
  header _ := rfl
  date h := nomatch h
  tail _ := .inr rfl
  record h := absurd rfl h

theorem of_header {cut : Bool} {id : Option Bytes} :
    Held flag start before { cut := cut, alertid := id } where
  header _ := rfl
  date h := nomatch h
  tail _ := .inr rfl
  record h := absurd rfl h

/-- The record goes on. -/
theorem record_concat (hs : Held flag start before s) (hstage : s.stage ≠ .header)
    (hstep : Reads flag s line s')
    (halert : s.stage = .date → beginsLine start before = true → isAlert line = false) :
    ∃ before' h record, before ++ [line] = before' ++ (h :: record) ∧
      beginsLine start before' = true ∧ OneRecord flag h record ∧
      Run (Reads flag) {} (h :: record) s' := by
  obtain ⟨before', h, record, rfl, hbegins, hone, hrun⟩ := hs.record hstage
  refine ⟨before', h, record ++ [line], by simp, hbegins, hone.concat hrun fun hevent hline => ?_,
    hrun.append (.cons hstep (.nil _))⟩
  have hdate : s.stage = .date := by
    cases hcases : s.stage with
    | header => exact absurd hcases hstage
    | date => rfl
    | event => exact absurd hcases hevent
  exact halert hdate (by rwa [beginsLine_append_cons])

theorem of_event (hevent : s'.stage = .event)
    (hcut : s'.cut = !(str line).contains (chr '\n'))
    (hrecord : ∃ before' h record, before ++ [line] = before' ++ (h :: record) ∧
      beginsLine start before' = true ∧ OneRecord flag h record ∧
      Run (Reads flag) {} (h :: record) s') :
    Held flag start (before ++ [line]) s' where
  header h := by rw [hevent] at h; cases h
  date h := by rw [hevent] at h; cases h
  tail h := by
    rw [beginsLine_concat] at h
    exact .inl (hcut.trans (contains_str_of_contains h))
  record _ := hrecord

/-- A header line begins a record, or is skipped. -/
theorem of_alertLine (halert : isAlert line = true) (hblank : str line ≠ [chr '\n'])
    (hbegins : beginsLine start before = true) (id : Option Bytes) :
    Held flag start (before ++ [line])
      (alertLine flag { cut := !(str line).contains (chr '\n'), alertid := id } line) := by
  obtain hskip | ⟨id', group, syscheck, hsys, hhead⟩ :=
    alertLine_of_header flag (!(str line).contains (chr '\n')) line
  · obtain ⟨id', hskip⟩ := hskip id
    rw [hskip]
    exact of_header
  · rw [hhead]
    refine ⟨fun h => (by cases h), fun _ => ⟨_, _, _, hsys, rfl⟩, fun h => ?_, fun _ => ?_⟩
    · rw [beginsLine_concat] at h
      exact .inl (contains_str_of_contains h)
    · -- the reader starts with this line, so that it reads it as a new call would
      have hstep : Reads flag {} line
          (headed (!(str line).contains (chr '\n')) (some id') group syscheck) := by
        rw [Reads, Reader.step, if_neg hblank, textLine, ← hhead none]
        exact congrArg Sum.inl (if_pos ⟨by rintro ⟨⟩, halert⟩)
      refine ⟨before, line, [], rfl, hbegins, ⟨halert, ?_⟩, .cons hstep (.nil _)⟩
      intro pre l t hpre
      simp at hpre

/-- What a piece keeps that does not mix two records. -/
theorem step (hs : Held flag start before s)
    (horder : mixes flag (beginsLine start before) s line = false)
    (hstep : Reads flag s line s') : Held flag start (before ++ [line]) s' := by
  have hstep' := hstep
  rw [Reads, Reader.step] at hstep'
  by_cases hblank : str line = [chr '\n']
  · -- the blank line gives the alert up
    rw [if_pos hblank, blankLine] at hstep'
    split at hstep'
    · cases hstep'
    · obtain rfl := Sum.inl.inj hstep'
      exact of_header
  rw [if_neg hblank] at hstep'
  by_cases hcut : s.cut = true
  · rw [if_pos hcut] at hstep'
    obtain rfl := Sum.inl.inj hstep'
    refine ⟨fun h => ?_, fun h => ?_, fun h => ?_, fun h => ?_⟩
    · rw [hs.header h]
    · obtain ⟨id, group, syscheck, hsys, heq⟩ := hs.date h
      exact ⟨id, group, syscheck, hsys, by rw [heq]; rfl⟩
    · rw [beginsLine_concat] at h
      exact .inl (contains_str_of_contains h)
    · refine hs.record_concat h hstep fun hdate hbegins => ?_
      simpa [mixes, hdate, hcut, hbegins] using horder
  rw [if_neg hcut] at hstep'
  obtain rfl := Sum.inl.inj hstep'
  rw [Bool.not_eq_true] at hcut
  obtain hstage | hstage | hstage : s.stage = .header ∨ s.stage = .date ∨ s.stage = .event := by
    cases s.stage <;> simp
  · obtain ⟨id, rfl⟩ : ∃ id, s = { alertid := id } := by
      have heq := hs.header hstage
      rw [hcut] at heq
      exact ⟨_, heq⟩
    by_cases halert : isAlert line = true
    · have hbegins : beginsLine start before = true := by
        simpa [mixes, halert] using horder
      rw [textLine, if_pos ⟨by rintro ⟨⟩, halert⟩]
      exact of_alertLine halert hblank hbegins id
    · rw [textLine, if_neg fun h => halert h.2]
      exact of_header
  · -- the piece in front has ended its line, as nothing is cut
    have hbegins : beginsLine start before = true := by
      by_contra hnot
      rcases hs.tail (Bool.not_eq_true _ ▸ hnot) with h | h
      · rw [hcut] at h
        cases h
      · rw [hstage] at h
        cases h
    by_cases halert : isAlert line = true
    · obtain ⟨id, group, syscheck, hsys, heq⟩ := hs.date hstage
      rw [hcut] at heq
      have hb : brings flag s line = true := by
        simpa [mixes, halert, hstage, hcut] using horder
      have hbrings : brings flag (headed (!(str line).contains (chr '\n')) id group syscheck) line =
          true := by
        rw [heq] at hb
        exact hb
      have htext : textLine flag { s with cut := !(str line).contains (chr '\n') } line =
          alertLine flag { cut := !(str line).contains (chr '\n') } line := by
        rw [← alertLine_of_brings hsys hbrings, heq]
        exact if_pos ⟨by rintro ⟨⟩, halert⟩
      rw [htext]
      exact of_alertLine halert hblank hbegins none
    · have htext : textLine flag { s with cut := !(str line).contains (chr '\n') } line =
          dateLine { s with cut := !(str line).contains (chr '\n') } (str line) := by
        rw [textLine, if_neg fun h => halert h.2]
        rw [hstage]
      rw [htext] at hstep ⊢
      have hrecord := hs.record_concat (by rw [hstage]; decide) hstep
        fun _ _ => Bool.eq_false_of_not_eq_true halert
      obtain herr | ⟨hevent, hkept⟩ := dateLine_eq _ (str line)
      · rw [herr]
        exact of_header
      · exact of_event hevent hkept hrecord
  · have htext : textLine flag { s with cut := !(str line).contains (chr '\n') } line =
        eventLine { s with cut := !(str line).contains (chr '\n') } (str line) := by
      rw [textLine, if_neg fun h => h.1 hstage]
      rw [hstage]
    rw [htext] at hstep ⊢
    have hrecord := hs.record_concat (by rw [hstage]; decide) hstep
      fun hdate => by rw [hstage] at hdate; cases hdate
    obtain herr | ⟨hevent, hkept⟩ := eventLine_eq _ (str line)
    · rw [herr]
      exact of_header
    · exact of_event (hevent.trans hstage) hkept hrecord

end Held

theorem held_of_run (horder : Orderly flag start lines) (hrun : Run (Reads flag) {} before s)
    (hpre : before <+: lines) : Held flag start before s := by
  let Inv (pre : List Bytes) (s : Reader) : Prop :=
    Run (Reads flag) {} pre s ∧ (pre <+: lines → Held flag start pre s)
  have hinv : Inv before s := hrun.history ?_ ⟨.nil _, fun _ => .nil⟩
  · exact hinv.2 hpre
  · rintro pre s line s' ⟨hpre, hheld⟩ hstep
    refine ⟨hpre.append (.cons hstep (.nil _)), fun hlines => ?_⟩
    have hheld := hheld ((prefix_append _ _).trans hlines)
    exact hheld.step (horder _ _ _ hlines hpre) hstep

/-- In every call that meets no piece that mixes two records, whatever the bytes of the file are,
the alert is made of the lines of one record, and the tail of a line is never parsed. -/
theorem robust_of_orderly (flag : ℕ) (start : Bool) (file : Bytes)
    (horder : Orderly flag start (readLines bufferSize file)) :
    Robust flag start (readLines bufferSize file) := by
  refine ⟨fun r rest hread => ?_, fun before line s hpre hrun hparses => ?_⟩
  · obtain ⟨before, line, s, hlines, hrun, hend⟩ := getRecord_eq_some_iff.mp hread
    have hpre : before <+: readLines bufferSize file := hlines ▸ prefix_append _ _
    have hheld := held_of_run horder hrun hpre
    have hevent := stage_of_step_inr hend
    obtain ⟨before', h, record, rfl, hbegins, hone, hrecord⟩ :=
      hheld.record (by rw [hevent]; decide)
    refine ⟨before', h, record ++ [line], by simp [hlines], hbegins,
      hone.concat hrecord fun hnot => absurd hevent hnot, ?_⟩
    exact getRecord_eq_some_iff.mpr ⟨h :: record, line, s, rfl, hrecord, hend⟩
  · have hheld := held_of_run horder hrun ((prefix_append _ _).trans hpre)
    obtain ⟨-, hcut, hstage⟩ := hparses
    by_contra hnot
    rw [Bool.not_eq_true] at hnot
    -- only where a header is looked for the reader can be behind a cut
    have hheader : s.stage = .header := by
      rcases hheld.tail hnot with h | h
      · rw [hcut] at h
        cases h
      · exact h
    have halert := hstage.resolve_left fun h => h hheader
    have hmixes := horder _ _ _ hpre hrun
    simp [mixes, halert, hheader, hnot, hcut] at hmixes

/-- What is left of an alert of which the header was written, and the alert behind it. -/
def interrupted : List Bytes :=
  [lit "** Alert 1.1: mail  - sshd,", lit "** Alert 2.2: - syslog,",
    lit "2006 Apr 13 16:15:17 host", lit "Rule: 5 (level 3) -> 'c'", lit "text", []]

theorem readLines_interrupted (lines : List Bytes) (h : lines <:+ interrupted) :
    readLines bufferSize (unlines lines) = lines.map (· ++ [chr '\n']) := by
  have hall : interrupted.all
      (fun l => !l.contains (chr '\n') && l.length < bufferSize - 1) = true := by
    decide
  refine readLines_unlines (by decide) fun l hl => ?_
  have hl' := all_eq_true.mp hall l (h.subset hl)
  simpa using hl'

/-- The second alert alone is read in order. -/
theorem robust_of_orderly_second :
    Robust 0 true (readLines bufferSize (unlines interrupted.tail)) := by
  refine robust_of_orderly 0 true _ ?_
  rw [readLines_interrupted _ (tail_suffix _)]
  decide

/-- A reader of the alerts that are mailed skips the second header, which is that of an alert that
is not mailed, and returns the second alert with the group of the first. -/
theorem not_robust_interrupted :
    ¬ Robust CRALERT_MAIL_SET true (readLines bufferSize (unlines interrupted)) := by
  rw [readLines_interrupted _ suffix_rfl]
  intro hrobust
  obtain ⟨r, hr⟩ : ∃ r, getRecord CRALERT_MAIL_SET {}
      (interrupted.map (· ++ [chr '\n'])) = some (r, []) := ⟨_, rfl⟩
  obtain ⟨before, h, record, hlines, -, hone, hread⟩ := hrobust.alert r [] hr
  rw [append_nil] at hlines
  rcases before with _ | ⟨first, _ | ⟨second, before⟩⟩
  · -- the first header line, and the second one in front of the date
    obtain ⟨rfl, rfl⟩ := List.cons.inj hlines
    have honly := hone.only [] _ _ (prefix_append [_] _) (.cons rfl (.nil _)) (by decide)
      (by decide)
    exact absurd honly (by decide)
  · -- the second header line alone is not wanted
    obtain ⟨-, hlines⟩ := List.cons.inj hlines
    obtain ⟨rfl, rfl⟩ := List.cons.inj hlines
    cases hread
  · -- no other line is a header line
    obtain ⟨-, hlines⟩ := List.cons.inj hlines
    obtain ⟨-, hlines⟩ := List.cons.inj hlines
    have hall : (interrupted.tail.tail.map (· ++ [chr '\n'])).all (fun l => !isAlert l) = true := by
      decide
    have hmem : h ∈ interrupted.tail.tail.map (· ++ [chr '\n']) :=
      hlines ▸ mem_append_right _ mem_cons_self
    have hnot := all_eq_true.mp hall h hmem
    rw [hone.head] at hnot
    exact Bool.false_ne_true hnot

end AlertLog
