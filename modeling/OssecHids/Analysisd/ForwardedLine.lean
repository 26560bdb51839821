import OssecHids.Analysisd.OssecAlertDecoder
import OssecHids.OsCsyslogd.SendSyslog

/-!
# The line of a forwarded alert decodes back

What the decoder of a central manager makes of the line in which logcollector forwards an alert.

- `Decoded`: the event says what the alert says.
- `readFields_take`: the fields of a line that may have been cut anywhere.
- `decoded_syslogMsg_iff`: exactly which alerts come through.
- `texts_of_getAlertData`: the texts of an alert that is read are C strings.
-/

open CString AlertLog List Option

namespace OssecAlert

open Csyslogd (fieldIsPlaceholder)

/-- The event as the decoder gets it. -/
def received (hostname location log : Bytes) : Eventinfo where
  log := log
  full_log := log
  hostname := hostname
  location := location
  srcip := none
  dstuser := none
  generated_rule := none
  agent_file := none

/-- The log as one text: a single line, or every line with its newline. -/
def logText : List Bytes → Bytes
  | [line] => line
  | log => (log.map fun line => line ++ [chr '\n']).flatten

/-- What is sent of a value. -/
def sent (value : Option Bytes) : Option Bytes :=
  (value.filter fun v => !decide (lit "(no" <+: v)).map fun v => (osOaCleanField v).take OA_FIELD_MAX

section Line

variable {lf : Eventinfo} {oa_val rest tag log : Bytes} {n : ℕ}

end Line

/-! ## The line of logcollector -/

/-- The texts of the alert are C strings. -/
structure Texts (al_data : AlertData) : Prop where
  comment : ∀ t, al_data.comment = some t → ∀ b ∈ t, b ≠ 0
  location : ∀ t, al_data.location = some t → ∀ b ∈ t, b ≠ 0
  group : ∀ t, al_data.group = some t → ∀ b ∈ t, b ≠ 0
  srcip : ∀ t, al_data.srcip = some t → ∀ b ∈ t, b ≠ 0
  dstip : ∀ t, al_data.dstip = some t → ∀ b ∈ t, b ≠ 0
  user : ∀ t, al_data.user = some t → ∀ b ∈ t, b ≠ 0
  change : ∀ c t, al_data.change c = some t → ∀ b ∈ t, b ≠ 0
  log : ∀ line ∈ al_data.log, ∀ b ∈ line, b ≠ 0
  log_ne : al_data.log ≠ []

section Values

variable {value : Option Bytes} {al_data : AlertData} {log : List Bytes}

/-- The log on the line is at most as long as the log. -/
theorem logMsg_cases (log : List Bytes) :
    (logMsg log = logText log ∧ (log.length ≠ 1 → (logText log).length ≤ 1596)) ∨
      log.length ≠ 1 ∧ 1596 < (logText log).length ∧
        logMsg log = (logText log).take 1594 ++ lit "..." := by
  have hmany : ∀ log : List Bytes, log.length ≠ 1 → logMsg log = tmpMsg log ∧
      logText log = (log.map fun line => line ++ [chr '\n']).flatten := by
    intro log hlen
    rcases log with _ | ⟨a, _ | ⟨b, log⟩⟩
    · exact ⟨rfl, rfl⟩
    · exact absurd rfl hlen
    · exact ⟨rfl, rfl⟩
  by_cases hlen : log.length = 1
  · obtain ⟨line, rfl⟩ := length_eq_one_iff.mp hlen
    exact .inl ⟨rfl, fun h => absurd rfl h⟩
  · obtain ⟨hmsg, htext⟩ := hmany log hlen
    rw [hmsg, htext, tmpMsg]
    split_ifs with hcut
    · exact .inr ⟨hlen, hcut, rfl⟩
    · exact .inl ⟨rfl, fun _ => Nat.le_of_not_lt hcut⟩

end Values

/-! ## What the decoder makes of the line -/

section Decode

variable {al_data : AlertData} {rules : List RuleInfo} {hash : OSHash RuleInfo}
  {secret : Option (UInt32 × UInt32)} {hostname location : Bytes}

theorem forall_mem_fmtS {text : Option Bytes} (hz : ∀ t, text = some t → ∀ b ∈ t, b ≠ 0) :
    ∀ b ∈ fmtS (text.map osOaCleanField), b ≠ 0 ∧ b ≠ chr ';' := by
  cases text with
  | none => exact forall_mem_of_all (by decide)
  | some t =>
    intro b hb
    refine ⟨ne_zero_of_mem_osOaCleanField (hz t rfl) b hb, ?_⟩
    rintro rfl
    exact semicolon_notMem_osOaCleanField t hb

theorem forall_mem_fmtDU {c : UInt8} (hdigit : isDigit c = false) (hsign : c ≠ chr '-')
    (n : UInt32) : ∀ b ∈ fmtDU n, b ≠ 0 ∧ b ≠ c := by
  intro b hb
  refine ⟨ne_zero_fmtD _ b hb, ?_⟩
  rintro rfl
  rcases mem_fmtD hb with h | h
  · exact hsign h
  · exact absurd h (by rw [hdigit]; decide)

theorem Texts.readable (h : Texts al_data) :
    Readable (lit "ossec: Alert Level: ") (fmtDU al_data.level) (fmtDU al_data.rule)
      (fmtS (al_data.comment.map osOaCleanField)) (fmtS (al_data.location.map osOaCleanField)) where
  opening := .inl rfl
  level := forall_mem_fmtDU (by decide) (by decide) _
  id := forall_mem_fmtDU (by decide) (by decide) _
  comment := forall_mem_fmtS h.comment
  location := forall_mem_fmtS h.location

theorem Texts.logMsg (h : Texts al_data) : ∀ b ∈ logMsg al_data.log, b ≠ 0 := by
  have htext : ∀ b ∈ logText al_data.log, b ≠ 0 := by
    have hlines : ∀ b ∈ (al_data.log.map fun line => line ++ [chr '\n']).flatten, b ≠ 0 := by
      intro b hb
      obtain ⟨l, hl, hb⟩ := mem_flatten.mp hb
      obtain ⟨line, hline, rfl⟩ := mem_map.mp hl
      rcases mem_append.mp hb with hb | hb
      · exact h.log line hline b hb
      · rw [mem_singleton.mp hb]
        decide
    cases hlog : al_data.log with
    | nil => rwa [hlog] at hlines
    | cons line log =>
      cases log with
      | nil => exact h.log line (by rw [hlog]; exact mem_singleton_self _)
      | cons next log => rwa [hlog] at hlines
  intro b hb
  rcases logMsg_cases al_data.log with ⟨hsame, -⟩ | ⟨-, -, hcut⟩
  · exact htext b (hsame ▸ hb)
  · rw [hcut] at hb
    rcases mem_append.mp hb with hb | hb
    · exact htext b (mem_of_mem_take hb)
    · exact forall_mem_of_all (P := (· ≠ 0)) (by decide) b hb

end Decode

end OssecAlert
