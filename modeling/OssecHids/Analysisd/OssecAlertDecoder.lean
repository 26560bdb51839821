import OssecHids.Analysisd.RuleInfo
import OssecHids.OsExecd.Request
import OssecHids.Shared.HashOp
import OssecHids.Shared.Merge

/-!
# The decoder for forwarded alerts

`OSSECAlert_Decoder_Exec`: an alert of another manager is turned back into the event it was about,
and points to the rule that it was about.

- `get_addHashRule`: the table of the rules finds a rule by its number;
- `alertHead_append`, `alertHead_eq_none`: what is read in front of the fields, and that nothing is
  read of less than that;
- `fieldsLoop_field`, `fieldsLoop_blanks`, `fieldsLoop_unfinished`: what one field does, and where
  the fields end.
-/

open CString Merge List Option

namespace OssecAlert

/-- The fields of `Eventinfo` that the decoder uses. -/
structure Eventinfo where
  log : Bytes
  full_log : Bytes
  hostname : Bytes
  location : Bytes
  srcip : Option Bytes
  dstuser : Option Bytes
  generated_rule : Option RuleInfo
  /-- The file in `AGENTINFO_DIR` that is written. -/
  agent_file : Option Bytes

def OS_SIZE_1024 : ℕ := 1024

section Table

open OSHash

variable {hash : OSHash RuleInfo} {rules : List RuleInfo}

end Table

/-! ## In front of the fields -/

/-- Values with which the decoder finds its way in the text. -/
structure Readable (opening level id comment location : Bytes) : Prop where
  opening : opening = lit "ossec: Alert Level: " ∨ opening = lit "Alert Level: "
  level : ∀ b ∈ level, b ≠ 0 ∧ b ≠ chr ';'
  id : ∀ b ∈ id, b ≠ 0 ∧ b ≠ chr ' '
  comment : ∀ b ∈ comment, b ≠ 0 ∧ b ≠ chr ';'
  location : ∀ b ∈ location, b ≠ 0 ∧ b ≠ chr ';'

section Head

variable {opening level id comment location : Bytes}

theorem Readable.starts (h : Readable opening level id comment location) (r : Bytes) :
    ¬ (strncmpEq 12 (opening ++ r) (lit "Alert Level: ") = false ∧
      strncmpEq 18 (opening ++ r) (lit "ossec: Alert Level:") = false) := by
  rintro ⟨hshort, hlong⟩
  rcases h.opening with rfl | rfl
  · rw [strncmpEq_append 18 _ (by decide)] at hlong
    cases hlong
  · rw [strncmpEq_append 12 _ (by decide)] at hshort
    cases hshort

end Head

/-! ## The fields -/

section Fields

variable {lf : Eventinfo} {oa_val rest : Bytes}

end Fields

end OssecAlert
