import OssecHids.Analysisd.Search

/-!
# The conditions of a rule

The part of `OS_CheckIfRuleMatch` that tests one rule against an event, in the order of the tests.
The pattern engines, the clock and the files behind the tests are parameters.

- `ruleMatches`: all the conditions of the rule.
-/

open CString

/-- What the tests use besides the rule and the event. -/
structure MatchEnv where
  /-- `OSMatch_Execute`: the text, its size and the pattern. -/
  osMatchExecute : Bytes → ℕ → Bytes → Bool
  osRegexExecute : Bytes → Bytes → Bool
  osPcre2Execute : Bytes → Bytes → Bool
  osIPFoundList : Bytes → List Bytes → Bool
  osIsonTime : Bytes → Bytes → Bool
  /-- `OS_IsonDay` for the present day of the week. -/
  osIsonDay : Bytes → Bool
  /-- The compiled rule behind a function pointer. -/
  compiledRule : Ref → Eventinfo → Bool
  /-- `doDiff`, which keeps its file by the signature id. -/
  doDiff : ℤ → Eventinfo → Bool
  fts : Eventinfo → Bool
  osDBSearch : ListRule → Bytes → Bool
  /-- `Config.decoder_order_size` -/
  decoder_order_size : ℕ
  sidPrevMatched : Ref → List Eventinfo
  groupPrevMatched : Ref → List Eventinfo
  eventList : List Eventinfo

namespace MatchEnv

variable (env : MatchEnv) (lf : Eventinfo) (rule : RuleInfo)

/-! ## Single tests -/

/-- A test that is made if the rule has the pattern; it fails on a missing text. -/
def checkPattern (exec : Bytes → Bytes → Bool) (text pattern : Option Bytes) : Bool :=
  match pattern with
  | none => true
  | some p => text.any fun s => exec s p

/-- `OSMatch_Execute` over the whole text -/
def osMatch (s p : Bytes) : Bool := env.osMatchExecute s s.length p

/-- The two forms of a condition, of which the second is tested if the rule has not got the first. -/
def checkString (text pattern pattern_pcre2 : Option Bytes) : Bool :=
  checkPattern env.osMatch text pattern &&
    (pattern.isSome || checkPattern env.osPcre2Execute text pattern_pcre2)

/-- A test of the source or destination address. -/
def checkIP (ip : Option Bytes) (list : Option (List Bytes)) : Bool :=
  match list with
  | none => true
  | some ips => ip.any fun s => env.osIPFoundList s ips

/-- `tolower` -/
def lower (b : UInt8) : UInt8 := if 65 ≤ b ∧ b ≤ 90 then b + 32 else b

/-- The column of the decoder's table with a name, by `strcasecmp`. -/
def fieldIndex (table : List (Option Bytes)) (name : Bytes) : Option ℕ :=
  (table.take env.decoder_order_size).findIdx? fun field =>
    field.any fun s => s.map lower == name.map lower

def checkField (table : List (Option Bytes)) (field : FieldInfo) : Bool :=
  (env.fieldIndex table field.name).any fun j =>
    (lf.fields[j]?.join).any fun s => env.osRegexExecute s field.regex

/-- The fields of the decoder; only decoders with an order have a table of them. -/
def checkFields (fields : List FieldInfo) : Bool :=
  match lf.decoder_info.fields with
  | none => fields.isEmpty
  | some table => (fields.take env.decoder_order_size).all (env.checkField lf table)

/-- The text that a list looks up, nothing for a field it does not know. -/
def listText (field : ℕ) : Option Bytes :=
  if field = RULE_SRCIP then lf.srcip
  else if field = RULE_SRCPORT then lf.srcport
  else if field = RULE_DSTIP then lf.dstip
  else if field = RULE_DSTPORT then lf.dstport
  else if field = RULE_USER then lf.srcuser.or lf.dstuser
  else if field = RULE_URL then lf.url
  else if field = RULE_ID then lf.id
  else if field = RULE_HOSTNAME then lf.hostname
  else if field = RULE_PROGRAM_NAME then lf.program_name
  else if field = RULE_SYSTEM_NAME then lf.systemname
  else if field = RULE_STATUS then lf.status
  else if field = RULE_ACTION then lf.action
  else none

def checkLists (lists : List ListRule) : Bool :=
  lists.all fun list => (listText lf list.field).any (env.osDBSearch list)

def checkFTS (alert_opts : ℕ) : Bool :=
  !hasFlag alert_opts DO_FTS ||
    (lf.decoder_info.fts != 0 && (hasFlag lf.decoder_info.fts FTS_DONE || env.fts lf))

/-- The function behind `event_search`, if there is one. -/
def eventSearch : Bool :=
  match rule.event_search with
  | none => true
  | some .lastSids =>
    (searchLastSids lf rule (rule.sid_search.map env.sidPrevMatched)).ret.isSome
  | some .lastGroups =>
    (searchLastGroups lf rule (rule.group_search.map env.groupPrevMatched)).ret.isSome
  | some .lastEvents => (searchLastEvents env.osRegexExecute lf rule env.eventList).ret.isSome

/-! ## All of them -/

/-- The tests from `decoded_as` to the fields of the decoder. -/
def checkLog : Bool :=
  (rule.decoded_as == 0 || rule.decoded_as == lf.decoder_info.id) &&
  (checkPattern (env.osMatchExecute · lf.p_name_size ·) lf.program_name rule.program_name &&
    (rule.program_name.isSome ||
      checkPattern env.osPcre2Execute lf.program_name rule.program_name_pcre2)) &&
  env.checkString lf.id rule.id rule.id_pcre2 &&
  (checkPattern (env.osMatchExecute · lf.size ·) (some lf.log) rule.match &&
    (rule.match.isSome || checkPattern env.osPcre2Execute (some lf.log) rule.match_pcre2)) &&
  (checkPattern env.osRegexExecute (some lf.log) rule.regex &&
    (rule.regex.isSome || checkPattern env.osPcre2Execute (some lf.log) rule.pcre2)) &&
  checkPattern (· == ·) lf.action rule.action &&
  checkPattern env.osMatch lf.url rule.url &&
  checkPattern env.osPcre2Execute lf.url rule.url_pcre2 &&
  env.checkFields lf rule.fields

/-- The tests under `DO_PACKETINFO`. -/
def checkPacketInfo : Bool :=
  env.checkIP lf.srcip rule.srcip &&
  env.checkIP lf.dstip rule.dstip &&
  env.checkString lf.srcport rule.srcport rule.srcport_pcre2 &&
  env.checkString lf.dstport rule.dstport rule.dstport_pcre2

/-- The tests under `DO_EXTRAINFO`. -/
def checkExtraInfo : Bool :=
  (rule.compiled_rule.all fun f => env.compiledRule f lf) &&
  env.checkString (lf.dstuser.or lf.srcuser) rule.user rule.user_pcre2 &&
  env.checkString lf.srcgeoip rule.srcgeoip rule.srcgeoip_pcre2 &&
  env.checkString lf.src_country rule.src_country rule.src_country_pcre2 &&
  env.checkString lf.srcasn rule.srcasn rule.srcasn_pcre2 &&
  env.checkString lf.dstgeoip rule.dstgeoip rule.dstgeoip_pcre2 &&
  (rule.maxsize == 0 || rule.maxsize ≤ lf.size) &&
  (rule.day_time.all fun time => env.osIsonTime lf.hour time) &&
  (rule.week_day.all fun days => env.osIsonDay days) &&
  env.checkString lf.data rule.extra_data rule.extra_data_pcre2 &&
  env.checkString lf.hostname rule.hostname rule.hostname_pcre2 &&
  env.checkString lf.agent_name rule.agent_name rule.agent_name_pcre2 &&
  env.checkString lf.location rule.location rule.location_pcre2 &&
  env.checkString lf.status rule.status rule.status_pcre2 &&
  (!hasFlag rule.context_opts SAME_DODIFF || env.doDiff rule.sigid lf)

def checkContext : Bool :=
  rule.context != 1 || hasFlag rule.context_opts SAME_DODIFF || env.eventSearch lf rule

/-- `OS_CheckIfRuleMatch` up to the search for dependent rules: it returns `NULL` at the first test
that fails. -/
def ruleMatches : Bool :=
  env.checkLog lf rule &&
  (!hasFlag rule.alert_opts DO_PACKETINFO || env.checkPacketInfo lf rule) &&
  (!hasFlag rule.alert_opts DO_EXTRAINFO || env.checkExtraInfo lf rule) &&
  env.checkFTS lf rule.alert_opts &&
  env.checkLists lf rule.lists &&
  env.checkContext lf rule

end MatchEnv
