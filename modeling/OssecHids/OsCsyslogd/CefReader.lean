import OssecHids.OsCsyslogd.Cef

/-!
# What a reader of the CEF format finds

A reader takes the fields of the header at the bars, and the keys of the extension at the equals signs,
where no backslash stands in front of them.

- `cefescape_false`, `cefescape_true`: how values are escaped;
- `text_extensions`: the extensions as keys and values;
- `exists_reads_iff`: when the extension can be read;
- `cefMsg_law`: when the message can be read.
-/

open CString AlertLog OssecAlert KeyValue Escape List Option

namespace Csyslogd

/-- The escaped letters of the extension. -/
def extCoding : Coding UInt8 where
  e := chr '\\'
  enc b :=
    if b = chr '\\' then some (chr '\\')
    else if b = chr '\r' then some (chr 'r')
    else if b = chr '\n' then some (chr 'n')
    else if b = chr '=' then some (chr '=')
    else none
  dec x :=
    if x = chr '\\' then some (chr '\\')
    else if x = chr 'r' then some (chr '\r')
    else if x = chr 'n' then some (chr '\n')
    else if x = chr '=' then some (chr '=')
    else none
  enc_e := by decide
  dec_enc a x h := by
    split_ifs at h with h₁ h₂ h₃ h₄ <;> obtain rfl := Option.some.inj h
    · rw [h₁]; rfl
    · rw [h₂]; rfl
    · rw [h₃]; rfl
    · rw [h₄]; rfl

/-- The escaped letters of the header. -/
def headerCoding : Coding UInt8 where
  e := chr '\\'
  enc b :=
    if b = chr '\\' then some (chr '\\') else if b = chr '|' then some (chr '|') else none
  dec x :=
    if x = chr '\\' then some (chr '\\') else if x = chr '|' then some (chr '|') else none
  enc_e := by decide
  dec_enc a x h := by
    split_ifs at h with h₁ h₂ <;> obtain rfl := Option.some.inj h
    · rw [h₁]; rfl
    · rw [h₂]; rfl

/-- A line end becomes a blank in the header. -/
def blanked (b : UInt8) : UInt8 := if b = chr '\r' ∨ b = chr '\n' then chr ' ' else b

/-- A key and its value, with a label of the key in front. There is a blank in front of each key but
the first one. -/
structure Field where
  labels : List (Bytes × Bytes) := []
  key : Bytes
  value : Option Bytes

/-- Nothing is written for a value that is not there. -/
def Field.entries (field : Field) : List (Bytes × Bytes) :=
  field.value.elim [] fun value =>
    if fieldIsPlaceholder value then [] else field.labels ++ [(field.key, value)]

def port (value : Int32) : Option Bytes := if 0 < value then some (fmtD value.toInt) else none

/-- The keys and values of an alert. -/
def cefFields (hostname : Bytes) (al_data : AlertData) : List Field :=
  [{ key := lit "dvc", value := some hostname },
   { labels := [(lit " cs1Label", lit "Location")], key := lit " cs1", value := al_data.location },
   { key := lit " classification", value := al_data.group },
   { key := lit " src", value := al_data.srcip },
   { key := lit " dpt", value := port al_data.dstport.toInt32 },
   { key := lit " spt", value := port al_data.srcport.toInt32 },
   { key := lit " fname", value := al_data.filename },
   { key := lit " dhost", value := al_data.dstip },
   { key := lit " shost", value := al_data.srcip },
   { key := lit " suser", value := al_data.user },
   { key := lit " dst", value := al_data.dstip }] ++
  if (al_data.change .new_md5).isSome ∧ (al_data.change .new_sha1).isSome then
    [{ labels := [(lit " cs2Label", lit "OldMD5")], key := lit " cs2",
       value := al_data.change .old_md5 },
     { labels := [(lit " cs3Label", lit "NewMD5")], key := lit " cs3",
       value := al_data.change .new_md5 },
     { key := lit " oldFileHash", value := al_data.change .old_sha1 },
     { key := lit " fhash", value := al_data.change .new_sha1 },
     { key := lit " fileHash", value := al_data.change .new_sha1 }]
  else []

def fieldEntries (hostname : Bytes) (al_data : AlertData) : List (Bytes × Bytes) :=
  (cefFields hostname al_data).flatMap Field.entries

def msgEntries (al_data : AlertData) : List (Bytes × Bytes) :=
  Field.entries { key := lit " msg", value := logmsg al_data.log }

def entries (hostname : Bytes) (al_data : AlertData) : List (Bytes × Bytes) :=
  fieldEntries hostname al_data ++ msgEntries al_data

/-- The text of keys and values. -/
abbrev extText (es : List (Bytes × Bytes)) : Bytes := text extCoding (chr '=') es

/-- The first `n` fields, and what is behind the bar of the last one. -/
def readHeader (n : ℕ) (line : Bytes) : Option (List Bytes × Bytes) :=
  let pieces := split (chr '\\') (chr '|') line
  if n < pieces.length then some (pieces.take n, [chr '|'].intercalate (pieces.drop n)) else none

/-- The line has the fields of the header, and the keys of the extension with values that mean the ones
of the alert. The last ones may be missing where the message is too long, and the last value may be cut
there, with dots behind the log. -/
def InjectionFree (host : Host) (config : SyslogConfig) (al_data : AlertData) (line : Bytes) : Prop :=
  ∃ ext es, readHeader 7 line = some (cefHeaderFields config al_data, ext) ∧
    Shortened (lit "..") es (entries (hostname host config) al_data) ∧
    ((cefHeader config al_data ++ extText (entries (hostname host config) al_data)).length <
      OS_CSYSLOG_MAX → es = entries (hostname host config) al_data) ∧
    Reads extCoding (chr '=') ext es

/-- The log is cut between two of its letters. The place is in front of its last byte when just the zero
byte has no room, and in front of the dots when there is less room. -/
def MsgOk (al_data : AlertData) (room : ℕ) : Prop :=
  ∀ value, logmsg al_data.log = some value → fieldIsPlaceholder value = false →
    ((extCoding.escape value).length + 5 = room →
      ∃ j, (extCoding.escape (value.take j)).length = (extCoding.escape value).length - 1) ∧
    (room < (extCoding.escape value).length + 5 → 8 < room →
      ∃ j, (extCoding.escape (value.take j)).length = room - 8)

/-- The date has no bar, the header and the numbers have room, and the end of the message is between two
letters of a value. -/
structure Readable (host : Host) (config : SyslogConfig) (al_data : AlertData) : Prop where
  date : Protected (chr '\\') (chr '|') (tstampOf (fmtS al_data.date) ++ [chr ' '])
  header : (cefHeader config al_data).length < OS_CSYSLOG_MAX
  ports : PortsFit (cefHeader config al_data) (extensions (hostname host config) al_data)
  limit : OS_CSYSLOG_MAX ≤ (cefHeader config al_data).length +
      (extText (fieldEntries (hostname host config) al_data)).length →
    CutOk extCoding (chr '=') (entries (hostname host config) al_data)
      (OS_CSYSLOG_MAX - 1 - (cefHeader config al_data).length)
  msg : MsgOk al_data (OS_CSYSLOG_MAX - (cefHeader config al_data).length -
    (extText (fieldEntries (hostname host config) al_data)).length)

/-! ## Escaping -/

variable {s value before : Bytes} {al_data : AlertData} {config : SyslogConfig} {host : Host}
  {line : Bytes} {room n : ℕ}

theorem cefescape_false (s : Bytes) : cefescape false s = extCoding.escape s := by
  induction s with
  | nil => rfl
  | cons b s ih =>
    rw [cefescape, ih, Coding.escape_cons]
    congr 1
    rw [Coding.letter, extCoding]
    split_ifs with h₁ h₂ h₃ h₄ h₅ h₆ <;> simp_all

theorem cefescape_true (s : Bytes) : cefescape true s = headerCoding.escape (s.map blanked) := by
  induction s with
  | nil => rfl
  | cons b s ih =>
    rw [cefescape, ih, map_cons, Coding.escape_cons]
    congr 1
    by_cases hb : b = chr '\\' ∨ b = chr '\r' ∨ b = chr '\n' ∨ b = chr '|'
    · rcases hb with rfl | rfl | rfl | rfl <;> rfl
    · rw [not_or, not_or, not_or] at hb
      obtain ⟨h₁, h₂, h₃, h₄⟩ := hb
      have hblank : blanked b = b := if_neg fun h => h.elim h₂ h₃
      have henc : headerCoding.enc b = none := by
        change (if b = chr '\\' then _ else if b = chr '|' then _ else none) = none
        rw [if_neg h₁, if_neg h₄]
      rw [hblank, Coding.letter, henc, elim_none, if_neg h₁, if_neg h₂, if_neg h₃,
        if_neg fun h => h₄ h.2, if_neg fun h => h.1 rfl]

theorem fieldIsPlaceholder_cefescape (value : Bytes) :
    fieldIsPlaceholder (cefescape false value) = fieldIsPlaceholder value := by
  have hiff : ∀ t, extCoding.escape t = t → (cefescape false value = t ↔ value = t) := by
    intro t ht
    rw [cefescape_false]
    constructor
    · intro h
      have hback := extCoding.unescape_escape value
      rw [h, ← ht, extCoding.unescape_escape] at hback
      exact (some.inj hback).symm
    · rintro rfl
      exact ht
  have hnone := hiff (lit "(none)") (by decide)
  have huser := hiff (lit "(no user)") (by decide)
  rw [Bool.eq_iff_iff, fieldIsPlaceholder, fieldIsPlaceholder, Bool.or_eq_true, Bool.or_eq_true,
    beq_iff_eq, beq_iff_eq, beq_iff_eq, beq_iff_eq, hnone, huser]

/-! ## The extensions as keys and values -/

theorem escape_fmtD (i : ℤ) : extCoding.escape (fmtD i) = fmtD i := by
  apply Coding.escape_of_forall
  intro b hb
  have hne : b ≠ chr '\\' ∧ b ≠ chr '\r' ∧ b ≠ chr '\n' ∧ b ≠ chr '=' := by
    rcases mem_fmtD hb with rfl | hdigit
    · decide
    · refine ⟨?_, ?_, ?_, ?_⟩ <;>
        · rintro rfl
          cases hdigit
  change (if b = chr '\\' then _ else if b = chr '\r' then _ else if b = chr '\n' then _ else
    if b = chr '=' then _ else none) = none
  rw [if_neg hne.1, if_neg hne.2.1, if_neg hne.2.2.1, if_neg hne.2.2.2]

theorem fieldIsPlaceholder_fmtD (i : ℤ) : fieldIsPlaceholder (fmtD i) = false := by
  have hparen : chr '(' ∉ fmtD i := fun h => by
    rcases mem_fmtD h with h | h <;> cases h
  rw [fieldIsPlaceholder, Bool.or_eq_false_iff, beq_eq_false_iff_ne, beq_eq_false_iff_ne]
  constructor <;>
    · intro h
      rw [h] at hparen
      exact hparen (by decide)

/-- A text without letters that a reader of the extension knows. -/
def Plain (t : Bytes) : Prop := chr '\\' ∉ t ∧ chr '=' ∉ t

instance (t : Bytes) : Decidable (Plain t) := inferInstanceAs (Decidable (_ ∧ _))

/-- A call and the keys and values that it writes. -/
inductive Matches : Extension → Field → Prop
  | string (before labels key value) (hbefore : before = extText labels ++ key ++ lit "=")
      (hlabels : ∀ p ∈ labels, Plain p.1) (hkey : Plain key) :
      Matches (.string before value) { labels, key, value }
  | int (before key value) (hbefore : before = key ++ lit "=") (hshort : before.length ≤ 200)
      (hkey : Plain key) : Matches (.int before value) { key, value := port value }

theorem matches_extensions (hostname : Bytes) (al_data : AlertData) :
    List.Forall₂ Matches (extensions hostname al_data) (cefFields hostname al_data) := by
  have hnone : ∀ p ∈ ([] : List (Bytes × Bytes)), Plain p.1 := fun _ h => nomatch h
  have hone : ∀ k v : Bytes, Plain k → ∀ p ∈ [(k, v)], Plain p.1 := fun k v hk p hp => by
    rw [mem_singleton.mp hp]
    exact hk
  have hstring : ∀ before key value, before = key ++ lit "=" → Plain key →
      Matches (.string before value) { key, value } := fun before key value h hkey =>
    .string _ _ _ _ h hnone hkey
  rw [extensions, cefFields]
  apply rel_append
  · refine .cons (hstring _ _ _ (by decide) (by decide)) ?_
    refine .cons (.string _ _ _ _ (by decide) (hone _ _ (by decide)) (by decide)) ?_
    iterate 2 refine .cons (hstring _ _ _ (by decide) (by decide)) ?_
    iterate 2 refine .cons (.int _ _ _ (by decide) (by decide) (by decide)) ?_
    iterate 5 refine .cons (hstring _ _ _ (by decide) (by decide)) ?_
    exact .nil
  · split_ifs
    · refine .cons (.string _ _ _ _ (by decide) (hone _ _ (by decide)) (by decide)) ?_
      refine .cons (.string _ _ _ _ (by decide) (hone _ _ (by decide)) (by decide)) ?_
      iterate 3 refine .cons (hstring _ _ _ (by decide) (by decide)) ?_
      exact .nil
    · exact .nil

theorem Matches.text_eq {ext : Extension} {field : Field} (h : Matches ext field) :
    ext.text = extText field.entries := by
  cases h with
  | string before labels key value hbefore =>
    rw [Extension.text, Field.entries]
    cases value with
    | none => rfl
    | some value =>
      rw [elim_some, elim_some, fieldIsPlaceholder_cefescape]
      split_ifs
      · rfl
      · rw [hbefore, extText, extText, text_append, text_singleton, cefescape_false,
          append_assoc, append_assoc]
        rfl
  | int before key value hbefore =>
    rw [Extension.text, Field.entries, port]
    split_ifs
    · rw [elim_some, fieldIsPlaceholder_fmtD, if_neg Bool.false_ne_true, extText, text_append,
        text_singleton, escape_fmtD, hbefore, append_assoc]
      rfl
    · rfl

theorem Matches.short {ext : Extension} {field : Field} (h : Matches ext field) : ext.Short := by
  cases h with
  | string => trivial
  | int before key value _ hshort => exact hshort

theorem protected_of_plain {t : Bytes} (h : Plain t) : Protected (chr '\\') (chr '=') t :=
  .of_notMem h.1 h.2

theorem Matches.keysOk {ext : Extension} {field : Field} (h : Matches ext field) :
    KeysOk extCoding (chr '=') field.entries := by
  intro p hp
  rw [Field.entries] at hp
  cases hvalue : field.value with
  | none =>
    rw [hvalue] at hp
    cases hp
  | some value =>
    rw [hvalue, elim_some] at hp
    split_ifs at hp
    · cases hp
    · rcases mem_append.mp hp with hp | hp
      · cases h with
        | string _ _ _ _ _ hlabels => exact protected_of_plain (hlabels p hp)
        | int => cases hp
      · rw [mem_singleton.mp hp]
        cases h with
        | string _ _ _ _ _ _ hkey => exact protected_of_plain hkey
        | int _ _ _ _ _ hkey => exact protected_of_plain hkey

section

variable {exts : List Extension} {fields : List Field}

theorem flatMap_text (h : List.Forall₂ Matches exts fields) :
    exts.flatMap Extension.text = extText (fields.flatMap Field.entries) := by
  induction h with
  | nil => rfl
  | cons hmatch _ ih =>
    rw [flatMap_cons, flatMap_cons, extText, text_append, ih, hmatch.text_eq]

theorem short_of_matches (h : List.Forall₂ Matches exts fields) : ∀ ext ∈ exts, ext.Short := by
  induction h with
  | nil => exact forall_mem_nil _
  | cons hmatch _ ih => exact forall_mem_cons.mpr ⟨hmatch.short, ih⟩

theorem keysOk_of_matches (h : List.Forall₂ Matches exts fields) :
    KeysOk extCoding (chr '=') (fields.flatMap Field.entries) := by
  induction h with
  | nil => exact forall_mem_nil _
  | cons hmatch _ ih =>
    intro p hp
    rw [flatMap_cons, mem_append] at hp
    exact hp.elim (hmatch.keysOk p) (ih p)

end

theorem keysOk_entries (hostname : Bytes) (al_data : AlertData) :
    KeysOk extCoding (chr '=') (entries hostname al_data) := by
  intro p hp
  rcases mem_append.mp hp with hp | hp
  · exact keysOk_of_matches (matches_extensions hostname al_data) p hp
  · have hmsg : Matches (.string (lit " msg=") (logmsg al_data.log))
        { key := lit " msg", value := logmsg al_data.log } :=
      .string _ _ _ _ (by decide) (fun _ h => nomatch h) (by decide)
    exact hmsg.keysOk p hp

/-! ## The extension -/

/-- What is added for the log, where `room` bytes are left. -/
def msgText (al_data : AlertData) (room : ℕ) : Bytes :=
  (logmsg al_data.log).elim [] fun value =>
    if fieldIsPlaceholder value then []
    else (writtenMsg (extCoding.escape value) room).elim [] (lit " msg=" ++ ·)

theorem fieldAddTruncated_logmsg (dest : Bytes) (al_data : AlertData) :
    fieldAddTruncated dest OS_CSYSLOG_MAX { before := lit " msg=" }
        ((logmsg al_data.log).map (cefescape false)) 2 =
      dest ++ msgText al_data (OS_CSYSLOG_MAX - dest.length) := by
  rw [msgText]
  cases logmsg al_data.log with
  | none => exact (append_nil dest).symm
  | some value =>
    rw [map_some, elim_some]
    split_ifs with hplaceholder
    · rw [← fieldIsPlaceholder_cefescape] at hplaceholder
      rw [fieldAddTruncated]
      rw [if_pos hplaceholder, ite_self, append_nil]
    · rw [← fieldIsPlaceholder_cefescape, Bool.not_eq_true] at hplaceholder
      rw [fieldAddTruncated_msg _ hplaceholder, cefescape_false]

theorem msgText_of_le (h : room ≤ 5) : msgText al_data room = [] := by
  rw [msgText]
  cases logmsg al_data.log with
  | none => rfl
  | some value =>
    rw [elim_some, writtenMsg, if_pos h, elim_none, ite_self]

theorem length_extText_log (fs : List (Bytes × Bytes)) (value : Bytes) :
    (extText (fs ++ [(lit " msg", value)])).length =
      (extText fs).length + 5 + (extCoding.escape value).length := by
  rw [extText, extText, text_append, text_singleton, length_append, length_append,
    length_cons, show (lit " msg").length = 4 from rfl]
  omega

theorem exists_reads_value_iff {fs : List (Bytes × Bytes)} (hfs : KeysOk extCoding (chr '=') fs)
    (hge : (extText fs).length ≤ n) (hroom : n + 1 - (extText fs).length = room) :
    (∃ es, Shortened (lit "..") es (fs ++ [(lit " msg", value)]) ∧
        ((extText fs).length + 5 + (extCoding.escape value).length ≤ n →
          es = fs ++ [(lit " msg", value)]) ∧
        Reads extCoding (chr '=') (extText fs ++
          (writtenMsg (extCoding.escape value) room).elim [] (lit " msg=" ++ ·)) es) ↔
      ((extCoding.escape value).length + 5 = room →
        ∃ j, (extCoding.escape (value.take j)).length = (extCoding.escape value).length - 1) ∧
      (room < (extCoding.escape value).length + 5 → 8 < room →
        ∃ j, (extCoding.escape (value.take j)).length = room - 8) := by
  have hec : extCoding.e ≠ chr '=' := by decide
  have hc : extCoding.enc (chr '=') ≠ none := by decide
  have hk : Protected extCoding.e (chr '=') (lit " msg") := protected_of_plain (by decide)
  have hkey : ∀ raw : Bytes, lit " msg=" ++ raw = lit " msg" ++ chr '=' :: raw := fun _ => rfl
  have hreads : Reads extCoding (chr '=') (extText fs ++ []) fs := by
    rw [append_nil]
    exact reads_text hec hc hfs
  rw [writtenMsg]
  split_ifs with h5 hlt hequal h8
  · refine iff_of_true ⟨fs, .append fs _, fun hle => by omega, hreads⟩ ⟨fun hequal => ⟨0, ?_⟩,
      fun _ h8 => by omega⟩
    rw [take_zero]
    change 0 = _
    omega
  · refine iff_of_true ⟨_, .whole _, fun _ => rfl, ?_⟩ ⟨fun hequal => by omega, fun h => by omega⟩
    rw [elim_some, hkey]
    exact reads_last hec hc hfs hk (split_protected hec (extCoding.protected_escape hc value))
      (extCoding.unescape_escape value)
  · -- the last byte is missing
    rw [elim_some, hkey, dropLast_eq_take]
    have hraw : (extCoding.escape value).take ((extCoding.escape value).length - 1) =
        (extCoding.escape value).take ((extCoding.escape value).length - 1) ++ [] :=
      (append_nil _).symm
    rw [hraw]
    constructor
    · rintro ⟨es, hshort, -, hes⟩
      refine ⟨fun _ => ?_, fun h => by omega⟩
      exact exists_of_reads_cut hec hc hfs hk (by decide) (by decide) (Nat.sub_le _ _) hshort hes
    · rintro ⟨h, -⟩
      obtain ⟨j, hj⟩ := h hequal
      refine ⟨_, .cut fs (lit " msg") value [] j, fun hle => by omega, ?_⟩
      have hes := reads_cut hec hc hfs hk .nil rfl hj
      rwa [append_nil (value.take j)] at hes
  · refine iff_of_true ⟨fs, .append fs _, fun hle => by omega, hreads⟩ ⟨fun h => absurd h hequal,
      fun _ h => absurd h (not_lt.mpr h8)⟩
  · -- dots stand behind the place
    rw [elim_some, hkey]
    constructor
    · rintro ⟨es, hshort, -, hes⟩
      refine ⟨fun h => absurd h hequal, fun _ _ => ?_⟩
      exact exists_of_reads_cut hec hc hfs hk (by decide) (by decide) (by omega) hshort hes
    · rintro ⟨-, h⟩
      obtain ⟨j, hj⟩ := h (by omega) (not_le.mp h8)
      refine ⟨_, .trailed fs (lit " msg") value j, fun hle => by omega, ?_⟩
      exact reads_cut hec hc hfs hk (.of_notMem (by decide) (by decide)) (by decide) hj

/-- When the log is read, behind extensions that have room. -/
theorem exists_reads_log_iff {fs : List (Bytes × Bytes)} (hfs : KeysOk extCoding (chr '=') fs)
    (hge : (extText fs).length ≤ n) :
    (∃ es, Shortened (lit "..") es (fs ++ msgEntries al_data) ∧
        ((extText (fs ++ msgEntries al_data)).length ≤ n → es = fs ++ msgEntries al_data) ∧
        Reads extCoding (chr '=')
          (extText fs ++ msgText al_data (n + 1 - (extText fs).length)) es) ↔
      MsgOk al_data (n + 1 - (extText fs).length) := by
  have hec : extCoding.e ≠ chr '=' := by decide
  have hc : extCoding.enc (chr '=') ≠ none := by decide
  have hreads : Reads extCoding (chr '=') (extText fs ++ []) fs := by
    rw [append_nil]
    exact reads_text hec hc hfs
  generalize hroom : n + 1 - (extText fs).length = room
  -- without a log there is nothing to be cut
  have hnone : msgEntries al_data = [] → msgText al_data room = [] → MsgOk al_data room →
      ((∃ es, Shortened (lit "..") es (fs ++ msgEntries al_data) ∧
        ((extText (fs ++ msgEntries al_data)).length ≤ n → es = fs ++ msgEntries al_data) ∧
        Reads extCoding (chr '=') (extText fs ++ msgText al_data room) es) ↔
      MsgOk al_data room) := by
    intro hentries htext hmsg
    rw [hentries, htext, append_nil, iff_true_right hmsg]
    exact ⟨fs, .whole fs, fun _ => rfl, hreads⟩
  cases hlog : logmsg al_data.log with
  | none =>
    apply hnone
    · rw [msgEntries, hlog]; rfl
    · rw [msgText, hlog]; rfl
    · intro value hvalue
      rw [hlog] at hvalue
      cases hvalue
  | some value =>
    by_cases hplaceholder : fieldIsPlaceholder value = true
    · apply hnone
      · rw [msgEntries, hlog, Field.entries, elim_some, if_pos hplaceholder]
      · rw [msgText, hlog, elim_some, if_pos hplaceholder]
      · intro value' hvalue hplaceholder'
        obtain rfl := some.inj (hlog.symm.trans hvalue)
        exact absurd (hplaceholder.symm.trans hplaceholder') (by decide)
    · have hentries : msgEntries al_data = [(lit " msg", value)] := by
        rw [msgEntries, hlog, Field.entries, elim_some, if_neg hplaceholder]
        rfl
      have htext : msgText al_data room =
          (writtenMsg (extCoding.escape value) room).elim [] (lit " msg=" ++ ·) := by
        rw [msgText, hlog, elim_some, if_neg hplaceholder]
      have hok : MsgOk al_data room ↔
          ((extCoding.escape value).length + 5 = room →
            ∃ j, (extCoding.escape (value.take j)).length = (extCoding.escape value).length - 1) ∧
          (room < (extCoding.escape value).length + 5 → 8 < room →
            ∃ j, (extCoding.escape (value.take j)).length = room - 8) := by
        constructor
        · exact fun h => h value hlog (Bool.not_eq_true _ |>.mp hplaceholder)
        · intro h value' hvalue _
          obtain rfl := some.inj (hlog.symm.trans hvalue)
          exact h
      rw [hentries, htext, hok, length_extText_log]
      exact exists_reads_value_iff hfs hge hroom

/-- When the extension is read as the keys and values of the alert, in `n` bytes. -/
theorem exists_reads_iff (hostname : Bytes) (al_data : AlertData) (n : ℕ) :
    (∃ es, Shortened (lit "..") es (entries hostname al_data) ∧
        ((extText (entries hostname al_data)).length ≤ n → es = entries hostname al_data) ∧
        Reads extCoding (chr '=') ((extText (fieldEntries hostname al_data)).take n ++
          msgText al_data (n + 1 - (extText (fieldEntries hostname al_data)).length)) es) ↔
      (n < (extText (fieldEntries hostname al_data)).length →
        CutOk extCoding (chr '=') (entries hostname al_data) n) ∧
      MsgOk al_data (n + 1 - (extText (fieldEntries hostname al_data)).length) := by
  have hkeys := keysOk_entries hostname al_data
  have hec : extCoding.e ≠ chr '=' := by decide
  have hc : extCoding.enc (chr '=') ≠ none := by decide
  have hlen : (extText (entries hostname al_data)).length =
      (extText (fieldEntries hostname al_data)).length + (extText (msgEntries al_data)).length := by
    rw [entries, extText, text_append, length_append]
  rcases lt_or_ge n (extText (fieldEntries hostname al_data)).length with hlt | hge
  case inl =>
    -- the log has no room
    have hroom : n + 1 - (extText (fieldEntries hostname al_data)).length = 0 := by omega
    have htake : (extText (fieldEntries hostname al_data)).take n =
        (extText (entries hostname al_data)).take n := by
      rw [entries, extText, extText, text_append, take_append_of_le_length hlt.le]
    have hmsg : MsgOk al_data 0 := fun value _ _ =>
      ⟨fun h => absurd h (by omega), fun _ h => absurd h (by omega)⟩
    have hcut := @exists_reads_take_iff _ _ extCoding (chr '=') (entries hostname al_data) (lit "..")
      n hec hc hkeys
    rw [hroom, msgText_of_le (Nat.zero_le 5), append_nil, htake, and_iff_left hmsg]
    constructor
    · rintro ⟨es, hshort, -, hreads⟩ -
      exact hcut.mp ⟨es, hshort, hreads⟩
    · intro h
      obtain ⟨es, hshort, hreads⟩ := hcut.mpr (h hlt)
      exact ⟨es, hshort, fun hle => by omega, hreads⟩
  case inr =>
    have hfs : KeysOk extCoding (chr '=') (fieldEntries hostname al_data) := fun p hp =>
      hkeys p (mem_append_left _ hp)
    have hroom : n < (extText (fieldEntries hostname al_data)).length →
        CutOk extCoding (chr '=') (entries hostname al_data) n := fun h =>
      absurd h (not_lt.mpr hge)
    rw [take_of_length_le hge, and_iff_right hroom]
    exact exists_reads_log_iff hfs hge

/-! ## The header -/

theorem protected_fmtU (n : ℕ) : Protected (chr '\\') (chr '|') (fmtU n) :=
  .of_notMem (notMem_fmtU (by decide)) (notMem_fmtU (by decide))

theorem protected_firstField_iff :
    Protected (chr '\\') (chr '|') (lit "<" ++ fmtU config.priority.toNat ++ lit ">" ++
        tstampOf (fmtS al_data.date) ++ lit " CEF:0") ↔
      Protected (chr '\\') (chr '|') (tstampOf (fmtS al_data.date) ++ [chr ' ']) := by
  have hnum : chr '\\' ∉ fmtU config.priority.toNat ∧ chr '|' ∉ fmtU config.priority.toNat :=
    ⟨notMem_fmtU (by decide), notMem_fmtU (by decide)⟩
  have he : chr '\\' ∉ lit "<" ++ fmtU config.priority.toNat ++ lit ">" := by
    rw [mem_append, mem_append, not_or, not_or]
    exact ⟨⟨by decide, hnum.1⟩, by decide⟩
  have hc : chr '|' ∉ lit "<" ++ fmtU config.priority.toNat ++ lit ">" := by
    rw [mem_append, mem_append, not_or, not_or]
    exact ⟨⟨by decide, hnum.2⟩, by decide⟩
  have hsplit : tstampOf (fmtS al_data.date) ++ lit " CEF:0" =
      (tstampOf (fmtS al_data.date) ++ [chr ' ']) ++ lit "CEF:0" := by
    rw [append_assoc]
    rfl
  rw [append_assoc, hsplit]
  constructor
  · intro h
    have htake := protected_take (protected_of_append he h)
      (tstampOf (fmtS al_data.date) ++ [chr ' ']).length
    rw [take_left] at htake
    refine htake.resolve_right fun ⟨z, hz⟩ => ?_
    exact absurd (append_inj' hz rfl).2 (by decide)
  · intro h
    exact protected_append (.of_notMem he hc)
      (protected_append h (.of_notMem (by decide) (by decide)))

theorem protected_cefHeaderFields
    (hdate : Protected (chr '\\') (chr '|') (tstampOf (fmtS al_data.date) ++ [chr ' '])) :
    ∀ t ∈ cefHeaderFields config al_data, Protected (chr '\\') (chr '|') t := by
  have hcomment : Protected (chr '\\') (chr '|') (fmtS (al_data.comment.map (cefescape true))) := by
    cases al_data.comment with
    | none => exact .of_notMem (by decide) (by decide)
    | some comment =>
      rw [map_some, fmtS, getD_some, cefescape_true]
      exact headerCoding.protected_escape (by decide) _
  rw [cefHeaderFields]
  simp only [forall_mem_cons]
  refine ⟨protected_firstField_iff.mpr hdate, ?_, ?_, ?_, protected_fmtU _, hcomment,
    protected_fmtU _, forall_mem_nil _⟩
  · exact .of_notMem (by decide) (by decide)
  · exact .of_notMem (by decide) (by decide)
  · exact .of_notMem (by decide) (by decide)

theorem readHeader_append (hfields : ∀ t ∈ cefHeaderFields config al_data,
      Protected (chr '\\') (chr '|') t) (ext : Bytes) :
    readHeader 7 (cefHeader config al_data ++ ext) = some (cefHeaderFields config al_data, ext) := by
  have hlen : (cefHeaderFields config al_data).length = 7 := rfl
  have hpos := length_pos_of_ne_nil (@split_ne_nil _ (chr '\\') (chr '|') _ ext)
  rw [readHeader, cefHeader, split_fields (by decide) hfields]
  rw [if_pos (by rw [length_append, hlen]; omega), take_left' hlen, drop_left' hlen,
    intercalate_split]

theorem readHeader_take (hfields : ∀ t ∈ cefHeaderFields config al_data,
      Protected (chr '\\') (chr '|') t) (hn : n < (cefHeader config al_data).length) :
    readHeader 7 ((cefHeader config al_data).take n) = none := by
  exact if_neg (not_lt.mpr (length_split_take (by decide) hfields hn))

theorem protected_of_readHeader {t ext : Bytes} {ts : List Bytes}
    (h : readHeader 7 line = some (t :: ts, ext)) : Protected (chr '\\') (chr '|') t := by
  rw [readHeader] at h
  split_ifs at h with hlen
  obtain ⟨hfields, -⟩ := Prod.mk.inj (some.inj h)
  cases hsplit : split (chr '\\') (chr '|') line with
  | nil => exact absurd hsplit (split_ne_nil _)
  | cons u ps =>
    rw [hsplit] at hfields hlen
    cases ps with
    | nil => exact absurd hlen (not_lt.mpr (by rw [length_singleton]; decide))
    | cons p ps =>
      obtain rfl : u = t := (List.cons.inj hfields).1
      exact protected_of_split hsplit

/-! ## The message -/

theorem cefMsg_eq (hports : PortsFit (cefHeader config al_data)
      (extensions (hostname host config) al_data)) :
    cefMsg host config al_data =
      some ((cefHeader config al_data ++
            extText (fieldEntries (hostname host config) al_data)).take (OS_CSYSLOG_MAX - 1) ++
        msgText al_data (OS_CSYSLOG_MAX - (cefHeader config al_data).length -
            (extText (fieldEntries (hostname host config) al_data)).length)) := by
  have hmatch := matches_extensions (hostname host config) al_data
  have hadd := foldlM_add (short_of_matches hmatch) hports
  rw [flatMap_text hmatch] at hadd
  rw [cefMsg, snprintf, hadd, bind_eq_bind, bind_some, fieldAddTruncated_logmsg,
    length_take, length_append, ← fieldEntries]
  rcases lt_or_ge (OS_CSYSLOG_MAX - 1) ((cefHeader config al_data).length +
    (extText (fieldEntries (hostname host config) al_data)).length) with hfull | hroom
  · -- a full message has no room for the log, either way
    rw [msgText_of_le (by omega), msgText_of_le (by omega)]
  · rw [min_eq_right hroom, Nat.sub_sub]

theorem cefMsg_of_header (hports : PortsFit (cefHeader config al_data)
      (extensions (hostname host config) al_data))
    (hheader : (cefHeader config al_data).length < OS_CSYSLOG_MAX) {n : ℕ}
    (hn : n = OS_CSYSLOG_MAX - 1 - (cefHeader config al_data).length) :
    cefMsg host config al_data =
      some (cefHeader config al_data ++
        ((extText (fieldEntries (hostname host config) al_data)).take n ++
          msgText al_data (n + 1 -
            (extText (fieldEntries (hostname host config) al_data)).length))) := by
  have hroom : OS_CSYSLOG_MAX - (cefHeader config al_data).length = n + 1 := by omega
  rw [cefMsg_eq hports, hroom, take_append, ← hn,
    take_of_length_le (Nat.le_sub_one_of_lt hheader), append_assoc]

theorem length_le_iff (hheader : (cefHeader config al_data).length < OS_CSYSLOG_MAX)
    (hn : OS_CSYSLOG_MAX - 1 - (cefHeader config al_data).length = n) :
    (cefHeader config al_data ++ extText (entries (hostname host config) al_data)).length <
      OS_CSYSLOG_MAX ↔ (extText (entries (hostname host config) al_data)).length ≤ n := by
  rw [length_append]
  omega

theorem InjectionFree.readable (hmsg : cefMsg host config al_data = some line)
    (h : InjectionFree host config al_data line) : Readable host config al_data := by
  obtain ⟨ext, es, hread, hshort, hwhole, hreads⟩ := h
  generalize hn : OS_CSYSLOG_MAX - 1 - (cefHeader config al_data).length = n
  have hports : PortsFit (cefHeader config al_data)
      (extensions (hostname host config) al_data) := by
    rw [cefMsg, snprintf] at hmsg
    obtain ⟨msg, hfold, -⟩ := bind_eq_some_iff.mp hmsg
    exact portsFit_of_foldlM (short_of_matches (matches_extensions _ _)) hfold
  have hdate : Protected (chr '\\') (chr '|') (tstampOf (fmtS al_data.date) ++ [chr ' ']) :=
    protected_firstField_iff.mp (protected_of_readHeader hread)
  have hfields := @protected_cefHeaderFields al_data config hdate
  have hheader : (cefHeader config al_data).length < OS_CSYSLOG_MAX := by
    by_contra hlong
    -- a header that is cut has too few bars
    have hmax : OS_CSYSLOG_MAX - 1 < (cefHeader config al_data).length := by
      have hpos : OS_CSYSLOG_MAX = 6144 := rfl
      omega
    rw [cefMsg_eq hports, msgText_of_le (by omega), append_nil,
      take_append_of_le_length hmax.le] at hmsg
    cases hmsg
    rw [readHeader_take hfields hmax] at hread
    cases hread
  rw [cefMsg_of_header hports hheader hn.symm] at hmsg
  cases hmsg
  rw [readHeader_append hfields] at hread
  obtain ⟨-, rfl⟩ := Prod.mk.inj (some.inj hread)
  obtain ⟨hlimit, hlog⟩ := (exists_reads_iff (hostname host config) al_data n).mp
    ⟨es, hshort, fun hle => hwhole ((length_le_iff hheader hn).mpr hle), hreads⟩
  refine ⟨hdate, hheader, hports, fun hfull => ?_, ?_⟩
  · rw [hn]
    exact hlimit (by omega)
  · have hroom : OS_CSYSLOG_MAX - (cefHeader config al_data).length = n + 1 := by omega
    rw [hroom]
    exact hlog

theorem Readable.injectionFree (h : Readable host config al_data) :
    ∃ line, cefMsg host config al_data = some line ∧ InjectionFree host config al_data line := by
  obtain ⟨hdate, hheader, hports, hlimit, hlog⟩ := h
  generalize hn : OS_CSYSLOG_MAX - 1 - (cefHeader config al_data).length = n at hlimit
  have hroom : OS_CSYSLOG_MAX - (cefHeader config al_data).length = n + 1 := by omega
  rw [hroom] at hlog
  obtain ⟨es, hshort, hwhole, hreads⟩ := (exists_reads_iff (hostname host config) al_data n).mpr
    ⟨fun hlt => hlimit (by omega), hlog⟩
  exact ⟨_, cefMsg_of_header hports hheader hn.symm, _, es,
    readHeader_append (protected_cefHeaderFields hdate) _, hshort,
    fun hlt => hwhole ((length_le_iff hheader hn).mp hlt), hreads⟩

/-- There is a message, and what is read from it is what the alert says, if and only if the alert is
readable. -/
theorem cefMsg_law (host : Host) (config : SyslogConfig) (al_data : AlertData) :
    (∃ line, cefMsg host config al_data = some line ∧ InjectionFree host config al_data line) ↔
      Readable host config al_data :=
  ⟨fun ⟨_, hmsg, h⟩ => h.readable hmsg, fun h => h.injectionFree⟩

/-- An alert about a log. -/
def logAlert (log : Bytes) : AlertData where
  rule := 1
  level := 5
  alertid := none
  date := some (lit "Jul 10")
  location := some (lit "h->/l")
  comment := some (lit "c")
  group := none
  srcip := none
  srcport := 0
  dstip := none
  dstport := 0
  user := none
  filename := none
  change := fun _ => none
  log := [log]

theorem length_escape_backslashes (k : ℕ) :
    (extCoding.escape (List.replicate k (chr '\\'))).length = 2 * k := by
  induction k with
  | zero => rfl
  | succ k ih =>
    rw [replicate_succ, Coding.escape_cons, length_append, ih]
    change 2 + 2 * k = _
    omega

/-- The dots stand behind the first half of an escaped backslash. -/
theorem not_cefMsg_injectionFree :
    ¬∀ host config al_data, ∃ line,
      cefMsg host config al_data = some line ∧ InjectionFree host config al_data line := by
  intro h
  -- the log is in neither of them
  have hheader : ∀ log, (cefHeader { priority := 132 } (logAlert log)).length = 59 := fun log => by
    change (cefHeader { priority := 132 } (logAlert [])).length = 59
    decide
  have hext : ∀ log, (extText (fieldEntries (lit "hh") (logAlert log))).length = 34 := fun log => by
    change (extText (fieldEntries (lit "hh") (logAlert []))).length = 34
    decide
  obtain ⟨line, hmsg, hline⟩ := h ⟨lit "hh", lit "hh"⟩ { priority := 132 }
    (logAlert (List.replicate 4000 (chr '\\')))
  have hvalue : fieldIsPlaceholder (List.replicate 4000 (chr '\\')) = false := by
    rw [fieldIsPlaceholder, Bool.or_eq_false_iff, beq_eq_false_iff_ne, beq_eq_false_iff_ne]
    constructor <;>
      · intro heq
        have hlen := congrArg List.length heq
        rw [length_replicate] at hlen
        exact absurd hlen (by decide)
  have hlog := (hline.readable hmsg).msg (List.replicate 4000 (chr '\\')) rfl hvalue
  rw [hheader, show hostname ⟨lit "hh", lit "hh"⟩ { priority := 132 } = lit "hh" from rfl, hext,
    length_escape_backslashes] at hlog
  obtain ⟨j, hj⟩ := hlog.2 (by decide) (by decide)
  rw [take_replicate, length_escape_backslashes, show OS_CSYSLOG_MAX - 59 - 34 - 8 = 6043 from rfl]
    at hj
  omega

end Csyslogd
