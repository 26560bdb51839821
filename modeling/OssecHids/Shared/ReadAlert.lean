import OssecHids.Lib.Lines

/-!
# Reading the alerts file

`GetAlertData` of `read-alert.c`, in a build without GeoIP: the alert that begins at the position of
the file, and the position behind it. A file is the list of the pieces that `fgets` reads from it.

* `Reader`: the local variables of the function; the five optional header lines are one family
  (`Header`), and so are the eight lines on what syscheck has seen change (`Change`).
* `Reader.getRecord`: the loop up to the blank line that ends an alert; `getAlertData` returns the
  alert, and `readAlerts` the alerts of a file, one call after the other.
* `getRecord_wellRead`: no text that the reader returns has a newline, and a date is one.
* `readAlerts_append`: behind a blank line the reader starts afresh.
-/

open CString List Option

namespace AlertLog

/-- `OS_MAXSTR + 2`. -/
def bufferSize : ℕ := 6146

def CRALERT_MAIL_SET : ℕ := 0x001

def ALERT_BEGIN : Bytes := lit "** Alert"
def RULE_BEGIN : Bytes := lit "Rule: "
def ALERT_MAIL : Bytes := lit "mail"
def INTEGRITY_BEGIN : Bytes := lit "Integrity checksum changed for: '"

/-- The optional header lines, in the order in which they are written. -/
inductive Header
  | srcip
  | srcport
  | dstip
  | dstport
  | user
  deriving DecidableEq, Repr

namespace Header

/-- `SRCIP_BEGIN`, `SRCPORT_BEGIN`, `DSTIP_BEGIN`, `DSTPORT_BEGIN` and `USER_BEGIN`. -/
def begins : Header → Bytes
  | srcip => lit "Src IP: "
  | srcport => lit "Src Port: "
  | dstip => lit "Dst IP: "
  | dstport => lit "Dst Port: "
  | user => lit "User: "

def all : List Header := [srcip, srcport, dstip, dstport, user]

theorem mem_all (h : Header) : h ∈ all := by cases h <;> decide

end Header

/-- What syscheck reports of a changed file, in the order in which the prefixes are tried. -/
inductive Change
  | old_md5
  | new_md5
  | old_sha1
  | new_sha1
  | file_size
  | owner_chg
  | group_chg
  | perm_chg
  deriving DecidableEq, Repr

namespace Change

/-- `OLDMD5_BEGIN`, `NEWMD5_BEGIN`, `OLDSHA1_BEGIN`, `NEWSHA1_BEGIN`, `SIZE_BEGIN`, `OWNER_BEGIN`,
`GROUP_BEGIN` and `PERM_BEGIN`. -/
def begins : Change → Bytes
  | old_md5 => lit "Old md5sum was: "
  | new_md5 => lit "New md5sum is : "
  | old_sha1 => lit "Old sha1sum was: "
  | new_sha1 => lit "New sha1sum is : "
  | file_size => lit "Size changed from "
  | owner_chg => lit "Ownership was "
  | group_chg => lit "Group ownership was "
  | perm_chg => lit "Permissions changed from "

def all : List Change :=
  [old_md5, new_md5, old_sha1, new_sha1, file_size, owner_chg, group_chg, perm_chg]

theorem mem_all (c : Change) : c ∈ all := by cases c <;> decide

end Change

/-- `alert_data`. -/
structure AlertData where
  rule : UInt32
  level : UInt32
  alertid : Option Bytes
  date : Option Bytes
  location : Option Bytes
  comment : Option Bytes
  group : Option Bytes
  srcip : Option Bytes
  srcport : ℤ
  dstip : Option Bytes
  dstport : ℤ
  user : Option Bytes
  filename : Option Bytes
  change : Change → Option Bytes
  log : List Bytes

/-- `_r`: the line the reader expects. -/
inductive Stage
  | header
  | date
  | event
  deriving DecidableEq, Repr

/-- The local variables of `GetAlertData`. The ports are kept as their text, which `atoi` reads;
`got_srcport` and `got_dstport` say that there is one. -/
structure Reader where
  stage : Stage := .header
  /-- `partial` -/
  cut : Bool := false
  issyscheck : Bool := false
  syscheck_alert : Bool := false
  alertid : Option Bytes := none
  date : Option Bytes := none
  comment : Option Bytes := none
  location : Option Bytes := none
  group : Option Bytes := none
  filename : Option Bytes := none
  level : ℤ := 0
  rule : ℤ := 0
  header : Header → Option Bytes := fun _ => none
  change : Change → Option Bytes := fun _ => none
  log : List Bytes := []

namespace Reader

/-- `l_error` leaves nothing of the alert. -/
def error : Reader := {}

/-- The header of an alert. The string behind its beginning is looked for in the piece itself, as a
zero byte may stand right behind the beginning. -/
def alertLine (flag : ℕ) (s : Reader) (line : Bytes) : Reader :=
  let p := str (line.drop (ALERT_BEGIN.length + 1))
  match strstr (lit ":") p with
  | none => s
  | some m =>
    let s := { s with alertid := some (p.take (p.length - m.length)) }
    match strchr (chr ' ') p with
    | none => s
    | some p =>
      let p := p.tail
      -- the flag asks for alerts that are mailed
      if flag &&& CRALERT_MAIL_SET ≠ 0 ∧ strncmpEq 4 ALERT_MAIL p = false then s
      else
        match strchr (chr '-') p with
        | none => { s with stage := .date }
        | some p =>
          let group := clearNl p.tail
          if (strstr (lit "syscheck") group).isSome then
            { s with group := some group, issyscheck := true, syscheck_alert := true, stage := .date }
          else { s with group := some group, stage := .date }

/-- `2006 Apr 13 16:15:17 /var/log/auth.log` -/
def dateLine (s : Reader) (str : Bytes) : Reader :=
  let str := clearNl str
  match strchr (chr ':') str with
  | none => error
  | some p =>
    match strchr (chr ' ') p with
    | none => error
    | some p =>
      if s.date.isSome ∨ s.location.isSome then error
      else
        { s with
          date := some (str.take (str.length - p.length))
          location := some p.tail
          stage := .event
          log := [] }

def ruleLine (s : Reader) (str : Bytes) : Reader :=
  let p := (clearNl str).drop RULE_BEGIN.length
  let rule := atoi p
  match strchr (chr ' ') p with
  | none => error
  | some p =>
    match strchr (chr ' ') p.tail with
    | none => error
    | some p =>
      let level := atoi p.tail
      match strchr (chr '\'') p.tail with
      | none => error
      | some p =>
        match beforeLast (chr '\'') p.tail with
        | none => error
        | some comment => { s with rule := rule, level := level, comment := some comment }

/-- A line of the log; the first one of a syscheck alert may name the file. -/
def logLine (s : Reader) (str : Bytes) : Reader :=
  let str := clearNl str
  let name := (str.drop INTEGRITY_BEGIN.length).dropLast
  { s with
    filename :=
      if s.issyscheck ∧ INTEGRITY_BEGIN.isPrefixOf str then
        if name = [] then none else some name
      else s.filename
    issyscheck := false
    log := s.log ++ [str] }

/-- The optional header that the line is taken for. -/
def headerOf (s : Reader) (str : Bytes) : Option Header :=
  Header.all.find? fun h => s.log.isEmpty && (s.header h).isNone && h.begins.isPrefixOf str

/-- The report of syscheck that the line is taken for. -/
def changeOf (s : Reader) (str : Bytes) : Option Change :=
  Change.all.find? fun c => s.syscheck_alert && c.begins.isPrefixOf str

/-- A line behind the date. -/
def eventLine (s : Reader) (str : Bytes) : Reader :=
  if s.comment = none ∧ s.log = [] ∧ RULE_BEGIN.isPrefixOf str then ruleLine s str
  else
    match headerOf s str with
    | some h =>
      { s with header := Function.update s.header h (some ((clearNl str).drop h.begins.length)) }
    | none =>
      match changeOf s str with
      | some c =>
        { s with change := Function.update s.change c (some ((clearNl str).drop c.begins.length)) }
      | none => if s.log.length < 20 then logLine s str else s

/-- A line that is not blank. -/
def textLine (flag : ℕ) (s : Reader) (line : Bytes) : Reader :=
  if s.stage ≠ .event ∧ ALERT_BEGIN.isPrefixOf (str line) then alertLine flag s line
  else
    match s.stage with
    | .header => s
    | .date => dateLine s (str line)
    | .event => eventLine s (str line)

/-- A blank line: `Sum.inr` returns the alert. -/
def blankLine (s : Reader) : Reader ⊕ Reader :=
  if s.stage = .event ∧ s.group.isSome ∧ s.comment.isSome then .inr s else .inl error

/-- The body of the loop for the piece `line`. What is left of a line that did not fit is skipped,
and a newline alone is taken for a blank line also there. -/
def step (flag : ℕ) (s : Reader) (line : Bytes) : Reader ⊕ Reader :=
  let s' := { s with cut := !(str line).contains (chr '\n') }
  if str line = [chr '\n'] then blankLine s'
  else if s.cut then .inl s'
  else .inl (textLine flag s' line)

/-- The loop of `GetAlertData`, and the pieces that are not read yet. -/
def getRecord (flag : ℕ) : Reader → List Bytes → Option (Reader × List Bytes)
  | _, [] => none
  | s, line :: lines =>
    match s.step flag line with
    | .inl s => getRecord flag s lines
    | .inr s => some (s, lines)

/-- The alert that is returned. -/
def alertData (s : Reader) : AlertData where
  rule := toUInt32 s.rule
  level := toUInt32 s.level
  alertid := s.alertid
  date := s.date
  location := s.location
  comment := s.comment
  group := s.group
  srcip := s.header .srcip
  srcport := (s.header .srcport).elim 0 atoi
  dstip := s.header .dstip
  dstport := (s.header .dstport).elim 0 atoi
  user := s.header .user
  filename := s.filename
  change := s.change
  log := if s.log = [] then [[]] else s.log

/-- The alerts of one call after the other. -/
def readFrom (flag : ℕ) : Reader → List Bytes → List AlertData
  | _, [] => []
  | s, line :: lines =>
    match s.step flag line with
    | .inl s => readFrom flag s lines
    | .inr s => s.alertData :: readFrom flag {} lines

end Reader

/-- The alerts that are read from a file, until there are no more. -/
def readAlerts (flag : ℕ) (file : Bytes) : List AlertData :=
  Reader.readFrom flag {} (readLines bufferSize file)

open Reader

variable {flag : ℕ} {s r : Reader} {line : Bytes} {lines rest : List Bytes}

theorem readFrom_eq (s : Reader) (lines : List Bytes) :
    readFrom flag s lines =
      match getRecord flag s lines with
      | none => []
      | some (r, rest) => r.alertData :: readFrom flag {} rest := by
  induction lines generalizing s with
  | nil => rfl
  | cons line lines ih =>
    rw [readFrom, getRecord]
    cases s.step flag line with
    | inl s => exact ih s
    | inr s => rfl

/-! ## What the reader returns -/

/-- A date, as the reader finds its end: at the first blank behind a colon. -/
def IsDate (t : Bytes) : Prop :=
  ∃ d e, t = d ++ chr ':' :: e ∧ chr ':' ∉ d ∧ chr ' ' ∉ e

/-- No text has a newline, and a date is one. -/
structure WellRead (s : Reader) : Prop where
  group : ∀ t, s.group = some t → chr '\n' ∉ t
  date : ∀ t, s.date = some t → chr '\n' ∉ t ∧ IsDate t
  location : ∀ t, s.location = some t → chr '\n' ∉ t
  comment : ∀ t, s.comment = some t → chr '\n' ∉ t
  header : ∀ h t, s.header h = some t → chr '\n' ∉ t

/-- No text has the byte, and a date is one. -/
structure Free (c : UInt8) (s : Reader) : Prop where
  group : ∀ t, s.group = some t → c ∉ t
  date : ∀ t, s.date = some t → c ∉ t ∧ IsDate t
  location : ∀ t, s.location = some t → c ∉ t
  comment : ∀ t, s.comment = some t → c ∉ t
  header : ∀ h t, s.header h = some t → c ∉ t
  change : ∀ h t, s.change h = some t → c ∉ t
  log : ∀ t ∈ s.log, c ∉ t

section Free

variable {c : UInt8}

theorem free_error : Free c error := by
  constructor <;> intros <;> contradiction

theorem isSuffix_of_strchr {c : UInt8} {p : Bytes} (h : strchr c line = some p) : p <:+ line := by
  obtain ⟨l, r, rfl, rfl, -⟩ := exists_of_strchr_eq_some h
  exact suffix_append _ _

/-- No text that is taken of the line has the byte. -/
def Spares (c : UInt8) (line : Bytes) : Prop := ∀ n p, p <:+ str (line.drop n) → c ∉ clearNl p

theorem spares_newline (hline : chr '\n' ∉ line.dropLast) : Spares (chr '\n') line := by
  intro n p hp
  apply newline_notMem_clearNl
  -- only the last byte of what is taken can be a newline
  intro hmem
  obtain ⟨l, hl⟩ := hp
  obtain ⟨r, hr⟩ : str (line.drop n) <+: line.drop n := List.takeWhile_prefix _
  have hne : p ≠ [] := by
    rintro rfl
    exact not_mem_nil hmem
  have hsplit : line = line.take n ++ l ++ (p ++ r) := by
    rw [append_assoc, ← append_assoc l, hl, hr, take_append_drop]
  rw [hsplit, dropLast_append_of_ne_nil (append_ne_nil_of_left_ne_nil hne r)] at hline
  refine hline (mem_append_right _ ?_)
  cases r with
  | nil => rwa [append_nil]
  | cons b r =>
    rw [dropLast_append_of_ne_nil (cons_ne_nil b r)]
    exact mem_append_left _ ((List.dropLast_prefix p).subset hmem)

theorem Free.alertLine (hs : Free c s) (hline : Spares c line) : Free c (alertLine flag s line) := by
  rw [Reader.alertLine]
  dsimp only
  split
  · exact hs
  split
  · exact { hs with }
  case h_2 p hp =>
    split
    · exact { hs with }
    split
    · exact { hs with }
    case h_2 q hq =>
      have hgroup : ∀ t, some (clearNl q.tail) = some t → c ∉ t := by
        rintro t ⟨⟩
        have hp' := (tail_suffix p).trans (isSuffix_of_strchr hp)
        have hq' := (tail_suffix q).trans ((isSuffix_of_strchr hq).trans hp')
        exact hline _ _ hq'
      split
      · exact { hs with group := hgroup }
      · exact { hs with group := hgroup }

theorem Free.dateLine (hs : Free c s) (hline : c ∉ clearNl line) : Free c (dateLine s line) := by
  rw [Reader.dateLine]
  split
  · exact free_error
  case h_2 p hp =>
    split
    · exact free_error
    case h_2 q hq =>
      split
      · exact free_error
      · obtain ⟨d, r, hd, rfl, hcolon⟩ := exists_of_strchr_eq_some hp
        obtain ⟨m, t, hm, rfl, hblank⟩ := exists_of_strchr_eq_some hq
        -- the blank is not the colon, so that the colon stands in front of it
        obtain ⟨e, rfl, rfl⟩ : ∃ e, m = chr ':' :: e ∧ r = e ++ chr ' ' :: t := by
          cases m with
          | nil => exact absurd (List.cons.inj hm).1 (by decide)
          | cons b m =>
            obtain ⟨rfl, rfl⟩ := List.cons.inj hm
            exact ⟨m, rfl, rfl⟩
        have hsplit : clearNl line = (d ++ chr ':' :: e) ++ chr ' ' :: t := by rw [hd]; simp
        have htake : (clearNl line).take ((clearNl line).length - (chr ' ' :: t).length) =
            d ++ chr ':' :: e := by
          rw [hsplit, length_append, Nat.add_sub_cancel, take_left]
        rw [hsplit] at hline
        refine { hs with date := ?_, location := ?_, log := fun t ht => absurd ht not_mem_nil }
        · rintro a ⟨⟩
          rw [htake]
          refine ⟨fun h => hline (mem_append_left _ h), d, e, rfl, hcolon, ?_⟩
          exact fun h => hblank (mem_cons_of_mem _ h)
        · rintro a ⟨⟩
          exact fun h => hline (mem_append_right _ (mem_cons_of_mem _ h))

theorem Free.ruleLine (hs : Free c s) (hline : c ∉ clearNl line) : Free c (ruleLine s line) := by
  rw [Reader.ruleLine]
  split
  · exact free_error
  case h_2 p hp =>
    split
    · exact free_error
    case h_2 q hq =>
      split
      · exact free_error
      case h_2 t ht =>
        split
        · exact free_error
        case h_2 comment hcomment =>
          refine { hs with comment := ?_ }
          rintro a ⟨⟩ hmem
          -- the comment is a part of the line
          have ht' := mem_of_mem_tail ((isPrefix_of_beforeLast hcomment).subset hmem)
          have hq' := mem_of_mem_tail ((isSuffix_of_strchr ht).subset ht')
          have hp' := mem_of_mem_tail ((isSuffix_of_strchr hq).subset hq')
          exact hline (mem_of_mem_drop ((isSuffix_of_strchr hp).subset hp'))

theorem notMem_update {α : Type*} [DecidableEq α] {f : α → Option Bytes} {a : α} {n : ℕ}
    (hf : ∀ a t, f a = some t → c ∉ t) (hline : c ∉ clearNl line) :
    ∀ a' t, Function.update f a (some ((clearNl line).drop n)) a' = some t → c ∉ t := by
  intro a' t ht
  by_cases ha : a' = a
  · obtain rfl := ha
    rw [Function.update_self] at ht
    cases ht
    exact fun hmem => hline (mem_of_mem_drop hmem)
  · rw [Function.update_of_ne ha] at ht
    exact hf a' t ht

theorem Free.eventLine (hs : Free c s) (hline : c ∉ clearNl line) : Free c (eventLine s line) := by
  rw [Reader.eventLine]
  split
  · exact hs.ruleLine hline
  split
  · exact { hs with header := notMem_update hs.header hline }
  split
  · exact { hs with change := notMem_update hs.change hline }
  split
  · refine { hs with log := fun t ht => ?_ }
    rcases mem_append.mp ht with ht | ht
    · exact hs.log t ht
    · rwa [mem_singleton.mp ht]
  · exact hs

/-- The state after a piece, and the alert that it ends. -/
theorem Free.step (flag : ℕ) (hs : Free c s) (hline : Spares c line) :
    (step flag s line).elim (Free c) (Free c) := by
  have hcut : Free c { s with cut := !(str line).contains (chr '\n') } := { hs with }
  have htext := hline 0 (str line) suffix_rfl
  rw [Reader.step]
  split
  · rw [blankLine]
    split
    · exact hcut
    · exact free_error
  split
  · exact hcut
  · show Free c (textLine flag _ _)
    rw [Reader.textLine]
    split
    · exact hcut.alertLine hline
    split
    · exact hcut
    · exact hcut.dateLine htext
    · exact hcut.eventLine htext

theorem Free.getRecord (hs : Free c s) (hlines : ∀ line ∈ lines, Spares c line)
    (h : getRecord flag s lines = some (r, rest)) : Free c r := by
  induction lines generalizing s with
  | nil => cases h
  | cons line lines ih =>
    rw [forall_mem_cons] at hlines
    have hstep := hs.step flag hlines.1
    rw [Reader.getRecord] at h
    cases hs' : s.step flag line with
    | inl s' =>
      rw [hs'] at h hstep
      exact ih hstep hlines.2 h
    | inr s' =>
      rw [hs'] at h hstep
      obtain ⟨rfl, -⟩ := Prod.mk.inj (some.inj h)
      exact hstep

theorem getRecord_wellRead (hlines : ∀ line ∈ lines, chr '\n' ∉ line.dropLast)
    (h : getRecord flag {} lines = some (r, rest)) : WellRead r :=
  have hfree := free_error.getRecord (fun line hline => spares_newline (hlines line hline)) h
  { hfree with }

end Free

/-! ## Alerts one behind the other -/

/-- A text of whole alerts: it ends with a blank line. -/
def EndsBlank (t : Bytes) : Prop := t = [] ∨ ∃ l, t = l ++ [chr '\n', chr '\n']

theorem EndsBlank.wholeLines {t : Bytes} (ht : EndsBlank t) : WholeLines t := by
  obtain rfl | ⟨l, rfl⟩ := ht
  · exact .inl rfl
  · exact .inr ⟨l ++ [chr '\n'], by simp⟩

/-- Behind a blank line the reader starts afresh, whether the line has ended an alert or not. -/
theorem readFrom_append_blank (s : Reader) (lines lines' : List Bytes) :
    readFrom flag s (lines ++ [chr '\n'] :: lines') =
      readFrom flag s (lines ++ [[chr '\n']]) ++ readFrom flag {} lines' := by
  induction lines generalizing s with
  | nil =>
    have hstep : s.step flag [chr '\n'] = blankLine { s with cut := false } := rfl
    rw [nil_append, nil_append, readFrom, readFrom, hstep]
    obtain h | h : blankLine { s with cut := false } = .inr { s with cut := false } ∨
        blankLine { s with cut := false } = .inl error := ite_eq_or_eq _ _ _
    · rw [h]
      rfl
    · rw [h]
      rfl
  | cons line lines ih =>
    rw [cons_append, cons_append, readFrom, readFrom]
    cases s.step flag line with
    | inl s => exact ih s
    | inr s => exact congrArg (s.alertData :: ·) (ih {})

theorem readAlerts_append {t : Bytes} (ht : EndsBlank t) (rest : Bytes) :
    readAlerts flag (t ++ rest) = readAlerts flag t ++ readAlerts flag rest := by
  have hn : 1 < bufferSize := by decide
  obtain rfl | ⟨l, rfl⟩ := ht
  · rfl
  · have hl : WholeLines (l ++ [chr '\n']) := .inr ⟨l, rfl⟩
    have hlines : ∀ r, readLines bufferSize (l ++ [chr '\n', chr '\n'] ++ r) =
        readLines bufferSize (l ++ [chr '\n']) ++ [chr '\n'] :: readLines bufferSize r := by
      intro r
      have hsplit : l ++ [chr '\n', chr '\n'] ++ r = (l ++ [chr '\n']) ++ (chr '\n' :: r) := by simp
      rw [hsplit, readLines_append hn hl,
        ← nil_append (chr '\n' :: r), readLines_short hn not_mem_nil (by decide)]
      rfl
    have hwhole := hlines []
    rw [append_nil] at hwhole
    rw [readAlerts, readAlerts, readAlerts, hlines, hwhole]
    exact readFrom_append_blank _ _ _

theorem getRecord_append (h : getRecord flag s lines = some (r, rest)) (lines' : List Bytes) :
    getRecord flag s (lines ++ lines') = some (r, rest ++ lines') := by
  induction lines generalizing s with
  | nil => cases h
  | cons line lines ih =>
    rw [getRecord] at h
    rw [cons_append, getRecord]
    cases hs : s.step flag line with
    | inl s' =>
      rw [hs] at h
      exact ih h
    | inr s' =>
      rw [hs] at h
      cases h
      rfl

/-- A text that is one alert is read as that alert, between whatever whole alerts stand in front of
it and whatever follows it. -/
theorem readAlerts_of_getRecord {t : Bytes} (ht : WholeLines t)
    (h : getRecord flag {} (readLines bufferSize t) = some (r, [])) {pre : Bytes}
    (hpre : EndsBlank pre) (post : Bytes) :
    readAlerts flag (pre ++ t ++ post) =
      readAlerts flag pre ++ r.alertData :: readAlerts flag post := by
  have hread : readAlerts flag (t ++ post) = r.alertData :: readAlerts flag post := by
    rw [readAlerts, readLines_append (by decide) ht, readFrom_eq, getRecord_append h]
    rfl
  rw [append_assoc, readAlerts_append hpre, hread]

end AlertLog
