import OssecHids.Analysisd.AlertLog
import OssecHids.Analysisd.Exec
import OssecHids.Shared.SearchReplace

/-!
# Alerts in a format of the user

`OS_CustomLog` of `alerts/log.c` puts the values of an event into a format, one token after the other.

- `osCustomLog`: the line that is written;
- `osCustomLog_eq`: the passes over the format;
- `osCustomLog_law`: the line is the format with its tokens replaced at once, where no pass finds its
  token in text of the event.
-/

open CString Substitution List Option

namespace CustomLog

/-- `CustomAlertTokenID` -/
inductive TokenID
  | timestamp
  | ftell
  | ruleAlertOptions
  | hostname
  | location
  | ruleId
  | ruleLevel
  | ruleComment
  | srcIp
  | dstUser
  | fullLog
  | ruleGroup
  deriving DecidableEq

/-- `CustomAlertTokenName` -/
def tokenName : TokenID → Bytes
  | .timestamp => lit "$TIMESTAMP"
  | .ftell => lit "$FTELL"
  | .ruleAlertOptions => lit "$RULEALERT"
  | .hostname => lit "$HOSTNAME"
  | .location => lit "$LOCATION"
  | .ruleId => lit "$RULEID"
  | .ruleLevel => lit "$RULELEVEL"
  | .ruleComment => lit "$RULECOMMENT"
  | .srcIp => lit "$SRCIP"
  | .dstUser => lit "$DSTUSER"
  | .fullLog => lit "$FULLLOG"
  | .ruleGroup => lit "$RULEGROUP"

def tokens : List TokenID :=
  [.timestamp, .ftell, .ruleAlertOptions, .hostname, .location, .ruleId, .ruleLevel, .ruleComment,
    .srcIp, .dstUser, .fullLog, .ruleGroup]

/-- What is read of the rule that generated the alert. -/
structure Rule where
  sigid : Int32
  level : Int32
  alert_opts : ℕ := 0
  comment : Option CStr := none
  group : Option CStr := none

/-- What is read of the event. -/
structure Event where
  time : Int64
  alert_id : Int64 := 0
  hostname : Option CStr := none
  location : Option CStr := none
  generated_rule : Rule
  srcip : Option CStr := none
  dstuser : Option CStr := none
  full_log : CStr

/-- A text, or another one for the null pointer. -/
def orElse (s : Option CStr) (other : Bytes) : Bytes := s.elim other Subtype.val

/-- The string that a pass leaves. -/
def pass (heap : ℕ → UInt8) (k : TokenID) (log value : Bytes) : Option Bytes :=
  (searchAndReplace heap log (tokenName k) value).map str

/-- `OS_CustomLog`: the line that is written. -/
def osCustomLog (heap : ℕ → UInt8) (crt_ftell : Int64) (lf : Event) (format : Bytes) :
    Option Bytes := do
  let alert_id := if lf.alert_id ≠ 0 then lf.alert_id else crt_ftell
  let mail := if hasFlag lf.generated_rule.alert_opts AlertLog.DO_MAILALERT then lit "mail " else []
  let log ← pass heap .timestamp format (snprintf 1024 (fmtD lf.time.toInt))
  let log ← pass heap .ftell log (snprintf 1024 (fmtD alert_id.toInt))
  let log ← pass heap .ruleAlertOptions log (snprintf 1024 mail)
  let log ← pass heap .hostname log (snprintf 1024 (orElse lf.hostname (lit "None")))
  let log ← pass heap .location log (snprintf 1024 (orElse lf.location (lit "None")))
  let log ← pass heap .ruleId log (snprintf 1024 (fmtD lf.generated_rule.sigid.toInt))
  let log ← pass heap .ruleLevel log (snprintf 1024 (fmtD lf.generated_rule.level.toInt))
  let log ← pass heap .srcIp log (snprintf 1024 (orElse lf.srcip (lit "None")))
  let log ← pass heap .dstUser log (snprintf 1024 (orElse lf.dstuser (lit "None")))
  let log ← pass heap .fullLog log (escapeNewlines lf.full_log.1)
  let log ← pass heap .ruleComment log (snprintf 1024 (orElse lf.generated_rule.comment []))
  let log ← pass heap .ruleGroup log (snprintf 1024 (orElse lf.generated_rule.group []))
  some (log ++ [chr '\n'])

/-! ## What is asked of it -/

/-- The value of a token. -/
def value (crt_ftell : Int64) (lf : Event) : TokenID → Bytes
  | .timestamp => fmtD lf.time.toInt
  | .ftell => fmtD (if lf.alert_id ≠ 0 then lf.alert_id else crt_ftell).toInt
  | .ruleAlertOptions =>
    if hasFlag lf.generated_rule.alert_opts AlertLog.DO_MAILALERT then lit "mail " else []
  | .hostname => orElse lf.hostname (lit "None")
  | .location => orElse lf.location (lit "None")
  | .ruleId => fmtD lf.generated_rule.sigid.toInt
  | .ruleLevel => fmtD lf.generated_rule.level.toInt
  | .ruleComment => orElse lf.generated_rule.comment []
  | .srcIp => orElse lf.srcip (lit "None")
  | .dstUser => orElse lf.dstuser (lit "None")
  | .fullLog => escapeNewlines lf.full_log.1
  | .ruleGroup => orElse lf.generated_rule.group []

/-- The format with the values of its tokens. -/
def expected (crt_ftell : Int64) (lf : Event) (format : Bytes) : Bytes :=
  render (value crt_ftell lf) (parse tokenName tokens format) ++ [chr '\n']

/-- The order of the passes. -/
def order : List TokenID :=
  [.timestamp, .ftell, .ruleAlertOptions, .hostname, .location, .ruleId, .ruleLevel, .srcIp,
    .dstUser, .fullLog, .ruleComment, .ruleGroup]

/-- A pass finds the name of its token in the format only, and no value is cut. -/
structure NotExpanded (crt_ftell : Int64) (lf : Event) (format : Bytes) : Prop where
  text : ∀ i (hi : i < order.length),
    ¬(tokenName order[i]).map Sum.inl <:+:
      expand (value crt_ftell lf) (order.take i) (parse tokenName tokens format)
  short : ∀ k, Sum.inr k ∈ parse tokenName tokens format → k ≠ .fullLog →
    (value crt_ftell lf k).length < 1024

variable {heap : ℕ → UInt8} {crt_ftell : Int64} {lf : Event} {format log s : Bytes} {k : TokenID}

theorem marked_tokenName : Marked (chr '$') tokenName where
  exists_eq k := ⟨(tokenName k).tail, by cases k <;> decide⟩
  eq_of_prefix i j := by cases i <;> cases j <;> decide

theorem notMem_escapeNewlines (h : 0 ∉ s) : 0 ∉ escapeNewlines s := by
  induction s with
  | nil => exact h
  | cons b s ih =>
    rw [mem_cons, not_or] at h
    rw [escapeNewlines]
    have hrest := ih h.2
    split_ifs
    · simp [hrest, show (0 : UInt8) ≠ chr '\\' by decide, show (0 : UInt8) ≠ chr 'n' by decide]
    · simp [hrest, show (0 : UInt8) ≠ chr '\\' by decide, show (0 : UInt8) ≠ chr 'n' by decide]
    · simp [hrest, h.1]

theorem notMem_orElse {s : Option CStr} {other : Bytes} (h : 0 ∉ other) : 0 ∉ orElse s other := by
  cases s with
  | none => exact h
  | some s => exact s.2

theorem notMem_fmtD (i : ℤ) : 0 ∉ fmtD i := fun h => ne_zero_fmtD i 0 h rfl

theorem notMem_value (k : TokenID) : 0 ∉ value crt_ftell lf k := by
  cases k with
  | timestamp => exact notMem_fmtD _
  | ftell => exact notMem_fmtD _
  | ruleAlertOptions =>
    rw [value]
    split_ifs <;> decide
  | hostname => exact notMem_orElse (by decide)
  | location => exact notMem_orElse (by decide)
  | ruleId => exact notMem_fmtD _
  | ruleLevel => exact notMem_fmtD _
  | ruleComment => exact notMem_orElse (by decide)
  | srcIp => exact notMem_orElse (by decide)
  | dstUser => exact notMem_orElse (by decide)
  | fullLog => exact notMem_escapeNewlines lf.full_log.2
  | ruleGroup => exact notMem_orElse (by decide)

/-- What is written of a value. -/
def written (crt_ftell : Int64) (lf : Event) (k : TokenID) : Bytes :=
  if k = .fullLog then value crt_ftell lf k else snprintf 1024 (value crt_ftell lf k)

theorem notMem_written (k : TokenID) : 0 ∉ written crt_ftell lf k := by
  rw [written]
  split_ifs
  · exact notMem_value k
  · exact fun h => notMem_value k (mem_of_mem_take h)

theorem pass_eq (hlog : 0 ∉ log) (k : TokenID) :
    pass heap k log (written crt_ftell lf k) =
      some (replaceAll (tokenName k) (written crt_ftell lf k) log) := by
  have hne : tokenName k ≠ [] := by cases k <;> exact cons_ne_nil _ _
  have hz : ∀ b ∈ replaceAll (tokenName k) (written crt_ftell lf k) log, b ≠ 0 := by
    rintro b hb rfl
    exact (mem_of_mem_replaceAll hb).elim (notMem_written k) hlog
  rw [pass, SearchReplace.searchAndReplace_eq hne hlog (notMem_written k), map_some,
    str_append_zero hz]

/-- One token after the other is replaced in what the earlier passes have left. -/
theorem foldlM_pass (hlog : 0 ∉ log) (ks : List TokenID) :
    ks.foldlM (fun log k => pass heap k log (written crt_ftell lf k)) log =
      some (ks.foldl (fun log k => replaceAll (tokenName k) (written crt_ftell lf k) log) log) := by
  induction ks generalizing log with
  | nil => rfl
  | cons k ks ih =>
    have hnext : 0 ∉ replaceAll (tokenName k) (written crt_ftell lf k) log := fun h =>
      (mem_of_mem_replaceAll h).elim (notMem_written k) hlog
    rw [foldlM_cons, pass_eq hlog, bind_eq_bind, bind_some, ih hnext, foldl_cons]

theorem osCustomLog_eq (hformat : 0 ∉ format) :
    osCustomLog heap crt_ftell lf format =
      some (order.foldl (fun log k => replaceAll (tokenName k) (written crt_ftell lf k) log) format ++
        [chr '\n']) := by
  have hpasses : osCustomLog heap crt_ftell lf format =
      (order.foldlM (fun log k => pass heap k log (written crt_ftell lf k)) format).map
        (· ++ [chr '\n']) := by
    simp only [order, foldlM_cons, foldlM_nil, bind_eq_bind, Option.map_bind,
      Function.comp_def, Option.pure_def, map_some]
    rfl
  rw [hpasses, foldlM_pass hformat, map_some]

/-- The line is the format with its tokens replaced all at once. -/
theorem osCustomLog_law (format : CStr) (h : NotExpanded crt_ftell lf format.1) :
    osCustomLog heap crt_ftell lf format.1 = some (expected crt_ftell lf format.1) := by
  have hsame : ∀ k, Sum.inr k ∈ parse tokenName tokens format.1 →
      written crt_ftell lf k = value crt_ftell lf k := fun k hk => by
    rw [written]
    split_ifs with hlog
    · rfl
    · exact take_of_length_le (Nat.le_sub_one_of_lt (h.short k hk hlog))
  have hne : ∀ k, tokenName k ≠ [] := fun k => by cases k <;> exact cons_ne_nil _ _
  have hall : ∀ k, k ∈ order := fun k => by cases k <;> decide
  have hpasses := @foldl_replaceAll _ _ _ _ tokenName (written crt_ftell lf) [] order
    (parse tokenName tokens format.1) (chr '$') marked_tokenName fun i hi => by
      rw [nil_append, expand_congr hsame]
      exact h.text i hi
  rw [expand_nil, render_parse hne, nil_append, expand_congr hsame,
    render_expand_of_forall fun k _ => hall k] at hpasses
  rw [osCustomLog_eq format.2, hpasses, expected]

/-- A login at a place. -/
def login (location : CStr) : Event where
  time := 7
  location := some location
  generated_rule := { sigid := 1, level := 5 }
  full_log := ⟨lit "$A", by decide⟩

theorem osCustomLog_law_login :
    NotExpanded 0 (login ⟨lit "$B", by decide⟩) (lit "$LOCATION $FULLLOG") ∧
      osCustomLog (fun _ => 0) 0 (login ⟨lit "$B", by decide⟩) (lit "$LOCATION $FULLLOG") =
        some (expected 0 (login ⟨lit "$B", by decide⟩) (lit "$LOCATION $FULLLOG")) := by
  have hparse : parse tokenName tokens (lit "$LOCATION $FULLLOG") =
      [Sum.inr .location, Sum.inl (chr ' '), Sum.inr .fullLog] := by decide
  have h : NotExpanded 0 (login ⟨lit "$B", by decide⟩) (lit "$LOCATION $FULLLOG") := by
    constructor
    · rw [hparse]
      decide
    · rw [hparse]
      intro k hk _
      cases k <;> decide
  exact ⟨h, osCustomLog_law ⟨lit "$LOCATION $FULLLOG", by decide⟩ h⟩

/-- The text of the location is expanded. -/
theorem not_osCustomLog_expected :
    ¬∀ heap crt_ftell lf, ∀ format : CStr,
      osCustomLog heap crt_ftell lf format.1 = some (expected crt_ftell lf format.1) := by
  intro h
  have hlog := h (fun _ => 0) 0 (login ⟨lit "$RULEID", by decide⟩) ⟨lit "$LOCATION", by decide⟩
  rw [osCustomLog_eq (by decide)] at hlog
  exact absurd hlog (by decide)

end CustomLog
