import Mathlib.Data.Nat.Bitwise
import OssecHids.Lib.CString

/-!
# Rules and events

The records of `rules.h`, `lists.h`, `decoder.h` and `eventinfo.h`, with the fields that reading
and matching the rules use. A pointer to an object that several rules share is a reference; a
compiled pattern is the text it was compiled from.
-/

open CString

/-! ## Flags -/

def SAME_USER : ℕ := 0x001
def SAME_SRCIP : ℕ := 0x002
def SAME_ID : ℕ := 0x004
def SAME_LOCATION : ℕ := 0x008
def DIFFERENT_URL : ℕ := 0x010
def DIFFERENT_SRCIP : ℕ := 0x200
def DIFFERENT_SRCGEOIP : ℕ := 0x400
def SAME_SRCPORT : ℕ := 0x020
def SAME_DSTPORT : ℕ := 0x040
def SAME_DODIFF : ℕ := 0x100

def DO_FTS : ℕ := 0x001
def NO_ALERT : ℕ := 0x010
def DO_OVERWRITE : ℕ := 0x020
def DO_PACKETINFO : ℕ := 0x040
def DO_EXTRAINFO : ℕ := 0x100
def SAME_EXTRAINFO : ℕ := 0x200

def RULE_SRCIP : ℕ := 2
def RULE_SRCPORT : ℕ := 4
def RULE_DSTIP : ℕ := 8
def RULE_DSTPORT : ℕ := 16
def RULE_USER : ℕ := 32
def RULE_URL : ℕ := 64
def RULE_ID : ℕ := 128
def RULE_HOSTNAME : ℕ := 256
def RULE_PROGRAM_NAME : ℕ := 512
def RULE_STATUS : ℕ := 1024
def RULE_ACTION : ℕ := 2048
def RULE_SYSTEM_NAME : ℕ := 4096

def FTS_DONE : ℕ := 0o10000

/-- A bit test such as `rule->context_opts & SAME_ID`. -/
def hasFlag (opts flag : ℕ) : Bool := opts &&& flag != 0

theorem hasFlag_or (a b flag : ℕ) : hasFlag (a ||| b) flag = (hasFlag a flag || hasFlag b flag) := by
  rw [hasFlag, hasFlag, hasFlag, Nat.and_or_distrib_right, Bool.eq_iff_iff]
  simp only [bne_iff_ne, ne_eq, Nat.or_eq_zero_iff, Bool.or_eq_true]
  exact not_and_or

theorem hasFlag_of_and {a m flag : ℕ} (h : hasFlag (a &&& m) flag) : hasFlag a flag := by
  rw [hasFlag, bne_iff_ne] at *
  intro hzero
  rw [Nat.and_right_comm, hzero, Nat.zero_and] at h
  exact h rfl

/-- What a `void *` or a `char **` of one rule may share with another rule. -/
abbrev Ref := ℕ

/-- `FieldInfo`: a decoder field by its name, and the `OSRegex` for it. -/
structure FieldInfo where
  name : Bytes
  regex : Bytes
  deriving DecidableEq, Repr

/-- `ListRule` without its `next`: the event's field to look up and how. -/
structure ListRule where
  field : ℕ
  lookup_type : ℕ
  matcher : Option Bytes
  filename : Bytes
  deriving DecidableEq, Repr

/-- The functions that `event_search` points to. -/
inductive EventSearch
  | lastSids
  | lastGroups
  | lastEvents
  deriving DecidableEq, Repr

structure RuleInfo where
  sigid : ℤ
  level : ℕ
  maxsize : ℕ := 0
  frequency : ℕ := 0
  timeframe : ℕ := 0
  context : ℕ := 0
  firedtimes : ℕ := 0
  ignore_time : ℕ := 0
  ignore : ℕ := 0
  ckignore : ℕ := 0
  last_events : Option Ref := none
  alert_opts : ℕ := 0
  context_opts : ℕ := 0
  category : ℕ
  decoded_as : ℕ := 0
  sid_search : Option Ref := none
  group_search : Option Ref := none
  event_search : Option EventSearch := none
  group : Bytes := []
  «match» : Option Bytes := none
  match_pcre2 : Option Bytes := none
  regex : Option Bytes := none
  pcre2 : Option Bytes := none
  day_time : Option Bytes := none
  week_day : Option Bytes := none
  srcip : Option (List Bytes) := none
  dstip : Option (List Bytes) := none
  srcgeoip : Option Bytes := none
  src_country : Option Bytes := none
  srcasn : Option Bytes := none
  dstgeoip : Option Bytes := none
  srcport : Option Bytes := none
  dstport : Option Bytes := none
  user : Option Bytes := none
  url : Option Bytes := none
  id : Option Bytes := none
  status : Option Bytes := none
  hostname : Option Bytes := none
  agent_name : Option Bytes := none
  location : Option Bytes := none
  program_name : Option Bytes := none
  extra_data : Option Bytes := none
  fields : List FieldInfo := []
  srcgeoip_pcre2 : Option Bytes := none
  src_country_pcre2 : Option Bytes := none
  srcasn_pcre2 : Option Bytes := none
  dstgeoip_pcre2 : Option Bytes := none
  srcport_pcre2 : Option Bytes := none
  dstport_pcre2 : Option Bytes := none
  user_pcre2 : Option Bytes := none
  url_pcre2 : Option Bytes := none
  id_pcre2 : Option Bytes := none
  status_pcre2 : Option Bytes := none
  hostname_pcre2 : Option Bytes := none
  agent_name_pcre2 : Option Bytes := none
  location_pcre2 : Option Bytes := none
  program_name_pcre2 : Option Bytes := none
  extra_data_pcre2 : Option Bytes := none
  action : Option Bytes := none
  comment : Option Bytes := none
  info : Option Bytes := none
  cve : Option Bytes := none
  lists : List ListRule := []
  if_sid : Option Bytes := none
  if_level : Option Bytes := none
  if_group : Option Bytes := none
  if_matched_regex : Option Bytes := none
  if_matched_group : Option Bytes := none
  if_matched_sid : ℤ := 0
  compiled_rule : Option Ref := none
  ar : Option Ref := none
  deriving DecidableEq, Repr

/-- `OSDecoderInfo`; without an `<order>` there is no table of fields. -/
structure OSDecoderInfo where
  id : ℕ
  type : ℕ
  fts : ℕ := 0
  fields : Option (List (Option Bytes)) := none
  deriving DecidableEq, Repr

structure Eventinfo where
  log : Bytes
  full_log : Bytes
  location : Option Bytes := none
  hostname : Option Bytes := none
  agent_name : Option Bytes := none
  program_name : Option Bytes := none
  srcip : Option Bytes := none
  srcgeoip : Option Bytes := none
  src_country : Option Bytes := none
  srcasn : Option Bytes := none
  dstip : Option Bytes := none
  dstgeoip : Option Bytes := none
  srcport : Option Bytes := none
  dstport : Option Bytes := none
  action : Option Bytes := none
  srcuser : Option Bytes := none
  dstuser : Option Bytes := none
  id : Option Bytes := none
  status : Option Bytes := none
  url : Option Bytes := none
  data : Option Bytes := none
  systemname : Option Bytes := none
  fields : List (Option Bytes) := []
  decoder_info : OSDecoderInfo
  size : ℕ
  p_name_size : ℕ := 0
  /-- The level of the last rule that counted the event, 0 at first. -/
  «matched» : ℕ := 0
  alert_last_events : Option (List Bytes) := none
  time : ℤ
  hour : Bytes
  deriving DecidableEq, Repr
