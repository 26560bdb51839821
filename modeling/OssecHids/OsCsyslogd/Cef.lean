import OssecHids.Lib.KeyValue
import OssecHids.OsCsyslogd.SendSyslog

/-!
# Alerts in the CEF format

`OS_Alert_SendSyslog` of csyslogd in the CEF format, in a build without GeoIP.

- `cefescape`: a value in the header or in the extension;
- `foldlM_add`: the extensions one behind the other, cut at the end of the message;
- `fieldAddTruncated_msg`: what is written of the log.
-/

open CString AlertLog OssecAlert KeyValue List Option

namespace Csyslogd

/-- `__author`, `__ossec_name` and `__ossec_version` -/
def author : Bytes := lit "OSSEC Foundation"
def ossecName : Bytes := lit "OSSEC HIDS"
def ossecVersion : Bytes := lit "v4.4.0"

/-- `cefescape` -/
def cefescape (header : Bool) : Bytes → Bytes
  | [] => []
  | b :: s =>
    (if b = chr '\\' then [chr '\\', chr '\\']
    else if b = chr '\r' then if header then [chr ' '] else [chr '\\', chr 'r']
    else if b = chr '\n' then if header then [chr ' '] else [chr '\\', chr 'n']
    else if header ∧ b = chr '|' then [chr '\\', chr '|']
    else if ¬header ∧ b = chr '=' then [chr '\\', chr '=']
    else [b]) ++ cefescape header s

/-- `field_add_int`, with a format that ends with `%d`. Its limit leaves no room for the zero byte:
there is no result where that is written behind the end of `dest`. -/
def fieldAddInt (dest : Bytes) (size : ℕ) (before : Bytes) (value : Int32) : Option Bytes :=
  if size ≤ dest.length then some dest
  else if 0 < value then
    let text := (snprintf 255 (before ++ fmtD value.toInt)).take (size - dest.length)
    if dest.length + text.length < size then some (dest ++ text) else none
  else some dest

/-- One call of `field_add_string`, with a format that ends with `%s`, or of `field_add_int`. -/
inductive Extension
  | string (before : Bytes) (value : Option Bytes)
  | int (before : Bytes) (value : Int32)

def Extension.add (dest : Bytes) : Extension → Option Bytes
  | .string before value =>
    some (fieldAddString dest OS_CSYSLOG_MAX { before } (value.map (cefescape false)))
  | .int before value => fieldAddInt dest OS_CSYSLOG_MAX before value

/-- The calls, in the order in which they are made. -/
def extensions (hostname : Bytes) (al_data : AlertData) : List Extension :=
  [.string (lit "dvc=") (some hostname),
   .string (lit " cs1Label=Location cs1=") al_data.location,
   .string (lit " classification=") al_data.group,
   .string (lit " src=") al_data.srcip,
   .int (lit " dpt=") al_data.dstport.toInt32,
   .int (lit " spt=") al_data.srcport.toInt32,
   .string (lit " fname=") al_data.filename,
   .string (lit " dhost=") al_data.dstip,
   .string (lit " shost=") al_data.srcip,
   .string (lit " suser=") al_data.user,
   .string (lit " dst=") al_data.dstip] ++
  if (al_data.change .new_md5).isSome ∧ (al_data.change .new_sha1).isSome then
    [.string (lit " cs2Label=OldMD5 cs2=") (al_data.change .old_md5),
     .string (lit " cs3Label=NewMD5 cs3=") (al_data.change .new_md5),
     .string (lit " oldFileHash=") (al_data.change .old_sha1),
     .string (lit " fhash=") (al_data.change .new_sha1),
     .string (lit " fileHash=") (al_data.change .new_sha1)]
  else []

/-- The fields of the header, each with a bar behind it. -/
def cefHeaderFields (config : SyslogConfig) (al_data : AlertData) : List Bytes :=
  [lit "<" ++ fmtU config.priority.toNat ++ lit ">" ++ tstampOf (fmtS al_data.date) ++ lit " CEF:0",
   author, ossecName, ossecVersion, fmtU al_data.rule.toNat,
   fmtS (al_data.comment.map (cefescape true)),
   fmtU (if 10 < al_data.level then 10 else al_data.level).toNat]

def cefHeader (config : SyslogConfig) (al_data : AlertData) : Bytes :=
  (cefHeaderFields config al_data).flatMap (· ++ [chr '|'])

def hostname (host : Host) (config : SyslogConfig) : Bytes :=
  if config.use_fqdn then host.shost_long else host.shost

/-- `syslog_msg` in the CEF format. -/
def cefMsg (host : Host) (config : SyslogConfig) (al_data : AlertData) : Option Bytes := do
  let syslog_msg := snprintf OS_CSYSLOG_MAX (cefHeader config al_data)
  let syslog_msg ← (extensions (hostname host config) al_data).foldlM Extension.add syslog_msg
  some (fieldAddTruncated syslog_msg OS_CSYSLOG_MAX { before := lit " msg=" }
    ((logmsg al_data.log).map (cefescape false)) 2)

/-! ## What is added -/

/-- What a call writes where there is room. -/
def Extension.text : Extension → Bytes
  | .string before value =>
    value.elim [] fun value =>
      if fieldIsPlaceholder (cefescape false value) then [] else before ++ cefescape false value
  | .int before value => if 0 < value then before ++ fmtD value.toInt else []

/-- A number is not written over the end of the message. -/
def Extension.Fits (front : Bytes) : Extension → Prop
  | .string .. => True
  | .int before value =>
    0 < value → front.length + (before ++ fmtD value.toInt).length < OS_CSYSLOG_MAX

/-- The numbers fit behind what is in front of them. -/
def PortsFit (front : Bytes) : List Extension → Prop
  | [] => True
  | ext :: exts => ext.Fits front ∧ PortsFit (front ++ ext.text) exts

variable {dest front before : Bytes} {ext : Extension} {exts : List Extension}

/-- The texts in front of the numbers. -/
def Extension.Short : Extension → Prop
  | .string .. => True
  | .int before _ => before.length ≤ 200

theorem addText_take (hlen : front.length < OS_CSYSLOG_MAX - 1) (t : Bytes) :
    addText front OS_CSYSLOG_MAX t = (front ++ t).take (OS_CSYSLOG_MAX - 1) := by
  rw [addText, min_eq_right (Nat.sub_le _ _), snprintf, take_take, Nat.min_self,
    take_append, take_of_length_le hlen.le]
  congr 2
  omega

theorem Extension.add_string (value : Option Bytes) :
    (Extension.string before value).add (front.take (OS_CSYSLOG_MAX - 1)) =
      some ((front ++ (Extension.string before value).text).take (OS_CSYSLOG_MAX - 1)) := by
  rw [Extension.add, Extension.text, fieldAddString.eq_def]
  rcases lt_or_ge front.length (OS_CSYSLOG_MAX - 1) with hlt | hge
  · rw [take_of_length_le hlt.le, if_neg (by omega)]
    cases value with
    | none => simp [take_of_length_le hlt.le]
    | some value =>
      simp only [map_some, elim_some]
      split_ifs
      · rw [append_nil, take_of_length_le hlt.le]
      · rw [addText_take hlt]
        simp [Format.print]
  · -- nothing is added to a full message
    have hlen : (front.take (OS_CSYSLOG_MAX - 1)).length = OS_CSYSLOG_MAX - 1 :=
      length_take_of_le hge
    rw [if_pos (by rw [hlen]; exact .inr (by decide)), take_append_of_le_length hge]

theorem length_fmtD_int32 (i : Int32) : (fmtD i.toInt).length ≤ 11 := by
  refine length_fmtD_le (w := 10) (by decide) ?_
  have hlo := i.le_toInt
  have hhi := i.toInt_lt
  omega

theorem snprintf_int (hshort : before.length ≤ 200) (i : Int32) :
    snprintf 255 (before ++ fmtD i.toInt) = before ++ fmtD i.toInt := by
  have hdigits := length_fmtD_int32 i
  refine take_of_length_le ?_
  rw [length_append]
  omega

theorem Extension.add_of_fits (hshort : ext.Short) (hfits : ext.Fits front) :
    ext.add (front.take (OS_CSYSLOG_MAX - 1)) =
      some ((front ++ ext.text).take (OS_CSYSLOG_MAX - 1)) := by
  cases ext with
  | string before value => exact Extension.add_string value
  | int before value =>
    rw [Extension.add, fieldAddInt, Extension.text]
    by_cases hpos : 0 < value
    · have hlen := hfits hpos
      have hfront : front.take (OS_CSYSLOG_MAX - 1) = front := take_of_length_le (by omega)
      rw [hfront, if_neg (by omega), if_pos hpos, if_pos hpos, snprintf_int hshort]
      rw [take_of_length_le (by omega), if_pos hlen, take_of_length_le]
      rw [length_append]
      omega
    · rw [if_neg hpos, if_neg hpos, append_nil, ite_self]

theorem Extension.add_of_not_fits (hshort : ext.Short) (hfits : ¬ext.Fits front) :
    ext.add (front.take (OS_CSYSLOG_MAX - 1)) = none := by
  cases ext with
  | string before value => exact absurd trivial hfits
  | int before value =>
    rw [Extension.Fits, Classical.not_imp, not_lt] at hfits
    obtain ⟨hpos, hlen⟩ := hfits
    have hmin := List.length_take_le (OS_CSYSLOG_MAX - 1) front
    have hmax : OS_CSYSLOG_MAX = 6144 := rfl
    rw [Extension.add, fieldAddInt, if_neg (by omega), if_pos hpos, snprintf_int hshort]
    rw [if_neg]
    have hdigits : 0 < (fmtD value.toInt).length := by
      rw [fmtD]
      split
      · exact Nat.succ_pos _
      · exact length_pos_of_ne_nil (fmtU_ne_nil _)
    rw [length_append] at hlen
    rw [length_take, length_take, length_append]
    omega

theorem foldlM_add (hshort : ∀ ext ∈ exts, ext.Short) (hfits : PortsFit front exts) :
    exts.foldlM Extension.add (front.take (OS_CSYSLOG_MAX - 1)) =
      some ((front ++ exts.flatMap Extension.text).take (OS_CSYSLOG_MAX - 1)) := by
  induction exts generalizing front with
  | nil => rw [flatMap_nil, append_nil]; rfl
  | cons ext exts ih =>
    rw [forall_mem_cons] at hshort
    rw [foldlM_cons, Extension.add_of_fits hshort.1 hfits.1, bind_eq_bind,
      bind_some, ih hshort.2 hfits.2, flatMap_cons, append_assoc]

theorem portsFit_of_foldlM (hshort : ∀ ext ∈ exts, ext.Short) {msg : Bytes}
    (h : exts.foldlM Extension.add (front.take (OS_CSYSLOG_MAX - 1)) = some msg) :
    PortsFit front exts := by
  induction exts generalizing front with
  | nil => trivial
  | cons ext exts ih =>
    rw [forall_mem_cons] at hshort
    rw [foldlM_cons, bind_eq_bind] at h
    by_cases hfits : ext.Fits front
    · rw [Extension.add_of_fits hshort.1 hfits, bind_some] at h
      exact ⟨hfits, ih hshort.2 h⟩
    · rw [Extension.add_of_not_fits hshort.1 hfits] at h
      cases h

/-! ## The log -/

/-- What is written of an escaped log, if `room` bytes are left with the zero byte. -/
def writtenMsg (value : Bytes) (room : ℕ) : Option Bytes :=
  if room ≤ 5 then none
  else if value.length + 5 < room then some value
  else if value.length + 5 = room then some value.dropLast
  else if room ≤ 8 then none
  else some (value.take (room - 8) ++ lit "..")

theorem addText_room {room : ℕ} (hroom : OS_CSYSLOG_MAX - dest.length = room) (t : Bytes) :
    addText dest OS_CSYSLOG_MAX t = dest ++ t.take (room - 1) := by
  rw [addText, min_eq_right (Nat.sub_le _ _), snprintf, take_take, Nat.min_self, hroom]

/-- What is added for the log. -/
theorem fieldAddTruncated_msg (value : Bytes) (hvalue : fieldIsPlaceholder value = false) :
    fieldAddTruncated dest OS_CSYSLOG_MAX { before := lit " msg=" } (some value) 2 =
      dest ++ ((writtenMsg value (OS_CSYSLOG_MAX - dest.length)).elim [] (lit " msg=" ++ ·)) := by
  have hformat : Format.length { before := lit " msg=" } = 7 := rfl
  have hprint : ∀ v : Bytes, Format.print { before := lit " msg=" } v = lit " msg=" ++ v :=
    fun v => append_nil _
  have hmsg : (lit " msg=").length = 5 := rfl
  generalize hroom : OS_CSYSLOG_MAX - dest.length = room
  rw [fieldAddTruncated]
  rw [hformat, hroom, hvalue, writtenMsg]
  by_cases h5 : room ≤ 5
  · rw [if_pos (by omega), if_pos h5, elim_none, append_nil]
  rw [if_neg (by omega), if_neg h5, if_neg Bool.false_ne_true]
  by_cases hcut : value.length + (7 - 2) > room
  case pos =>
    have hlong : ¬value.length + 5 < room := by omega
    have hequal : ¬value.length + 5 = room := by omega
    rw [if_pos hcut, if_neg hlong, if_neg hequal]
    by_cases h8 : room ≤ 8
    · rw [if_pos (by omega), if_pos h8, elim_none, append_nil]
    · have hsize : room + 2 - 7 - 3 = room - 8 := by omega
      have htake : (lit " msg=" ++ (value.take (room - 8) ++ lit "...")).take (room - 1) =
          lit " msg=" ++ (value.take (room - 8) ++ lit "..") := by
        rw [take_append, hmsg, take_of_length_le (by rw [hmsg]; omega), take_append,
          length_take_of_le (by omega), take_of_length_le (by
            rw [length_take_of_le (by omega)]
            omega), show room - 1 - 5 - (room - 8) = 2 by omega]
        rfl
      rw [if_neg (by omega), if_neg h8, hprint, hsize, addText_room hroom, htake, elim_some]
  case neg =>
    have hsize : room + 2 - 7 = room - 5 := by omega
    have hwhole : value.take (room - 5) = value := take_of_length_le (by omega)
    rw [if_neg hcut, hprint, hsize, addText_room hroom, hwhole]
    by_cases hlt : value.length + 5 < room
    · rw [if_pos hlt, elim_some, take_of_length_le (by
        rw [length_append, hmsg]
        omega)]
    · -- the limit of the message takes the last byte
      have hlast : room - 1 - 5 = value.length - 1 := by omega
      have hequal : value.length + 5 = room := by omega
      rw [if_neg hlt, if_pos hequal, elim_some, take_append, hmsg,
        take_of_length_le (by rw [hmsg]; omega), hlast, dropLast_eq_take]

end Csyslogd
