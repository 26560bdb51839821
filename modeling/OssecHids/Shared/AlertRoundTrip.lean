import OssecHids.Analysisd.AlertLog
import OssecHids.Shared.EventLines

/-!
# What is written of an alert is read back

`OS_Log` of analysisd writes the alert that `GetAlertData` of the output daemons reads.
-/

open CString List

namespace AlertLog

namespace Event

/-- The optional headers of an event. -/
def header (lf : Event) : Header → Option Bytes
  | .srcip => lf.srcip
  | .srcport => lf.srcport
  | .dstip => lf.dstip
  | .dstport => lf.dstport
  | .user => lf.dstuser

/-- The lines of the optional headers. -/
def optionalLines (lf : Event) (hs : List Header) : List Bytes :=
  hs.flatMap fun h => optionalLine h.begins (lf.header h)

/-- The lines of the header. -/
def headLines (crt_ftell : ℤ) (lf : Event) : List Bytes :=
  lf.alertText crt_ftell :: lf.dateText :: lf.ruleText :: lf.optionalLines Header.all

end Event

section Text

theorem lit_newline : lit "\n" = [chr '\n'] := rfl

theorem lit_rule (t : Bytes) : lit "\nRule: " ++ t = chr '\n' :: (lit "Rule: " ++ t) := rfl

theorem optional_header (lf : Event) :
    optional (lit "\nSrc IP: ") lf.srcip = optional (chr '\n' :: Header.begins .srcip) lf.srcip ∧
      optional (lit "\nSrc Port: ") lf.srcport =
        optional (chr '\n' :: Header.begins .srcport) lf.srcport ∧
      optional (lit "\nDst IP: ") lf.dstip = optional (chr '\n' :: Header.begins .dstip) lf.dstip ∧
      optional (lit "\nDst Port: ") lf.dstport =
        optional (chr '\n' :: Header.begins .dstport) lf.dstport ∧
      optional (lit "\nUser: ") lf.dstuser = optional (chr '\n' :: Header.begins .user) lf.dstuser :=
  ⟨rfl, rfl, rfl, rfl, rfl⟩

theorem unlines_log (lf : Event) :
    unlines lf.logLines =
      printed (lf.full_log.getD []) ++ lit "\n" ++ lf.lasts.flatMap fun s => printed s ++ lit "\n" := by
  rw [Event.logLines, unlines_logLines, Event.logTexts, flatMap_cons, flatMap_map, lit_newline]

theorem osLog_eq (crt_ftell : ℤ) (lf : Event) :
    osLog crt_ftell lf = unlines (lf.headLines crt_ftell) ++ (unlines lf.logLines ++ [chr '\n']) := by
  obtain ⟨hsrcip, hsrcport, hdstip, hdstport, huser⟩ := optional_header lf
  unfold osLog
  simp only [hsrcip, hsrcport, hdstip, hdstport, huser, unlines_log, Event.headLines, Event.alertText, Event.dateText, Event.ruleText,
    Event.optionalLines, Header.all, flatMap_cons, flatMap_nil, append_nil,
    unlines_cons, unlines_append, append_assoc, cons_append, unlines_optionalLine,
    lit_rule, lit_newline, Event.header, nil_append]

end Text

open Reader

variable {flag : ℕ} {crt_ftell : ℤ} {lf : Event} {r : Reader}

/-! ## The lines of the header -/

theorem plain_fmtD (i : ℤ) : Plain (fmtD i) := by
  refine ⟨fun h => ?_, fun b h => ?_⟩
  · exact (mem_fmtD h).elim (by decide) (by decide)
  · obtain rfl | h := mem_fmtD h
    · decide
    · rintro rfl
      cases h

theorem plain_fmtU0 (w n : ℕ) : Plain (fmtU0 w n) := by
  refine ⟨fun h => absurd (isDigit_of_mem_fmtU0 h) (by decide), fun b h => ?_⟩
  rintro rfl
  exact absurd (isDigit_of_mem_fmtU0 h) (by decide)

theorem mem_alertid {b : UInt8} (h : b ∈ lf.alertid crt_ftell) :
    b = chr '-' ∨ b = chr '.' ∨ isDigit b := by
  rw [Event.alertid, mem_append, mem_append] at h
  obtain (h | h) | h := h
  · exact (mem_fmtD h).imp_right .inr
  · exact .inr (.inl (mem_singleton.mp h))
  · exact (mem_fmtD h).imp_right .inr

theorem notMem_alertid {b : UInt8} (h : ¬ (b = chr '-' ∨ b = chr '.' ∨ isDigit b)) :
    b ∉ lf.alertid crt_ftell := fun hmem => h (mem_alertid hmem)

theorem strstr_singleton {c : UInt8} {l r : Bytes} (h : c ∉ l) :
    strstr [c] (l ++ c :: r) = some (c :: r) := by
  induction l with
  | nil =>
    rw [nil_append, strstr, if_pos]
    simp
  | cons b l ih =>
    rw [mem_cons, not_or] at h
    rw [cons_append, strstr, if_neg, ih h.2]
    simpa using h.1

theorem take_length_sub (l m : Bytes) : (l ++ m).take ((l ++ m).length - m.length) = l := by
  rw [length_append, Nat.add_sub_cancel, take_left]

namespace Event

/-- The group of the rule makes the alert one of syscheck. -/
def syscheck (lf : Event) : Bool := (strstr (lit "syscheck") (chr ' ' :: lf.generated_rule.group)).isSome

/-- The reader behind the first line. -/
def named (crt_ftell : ℤ) (lf : Event) : Reader where
  stage := .date
  issyscheck := lf.syscheck
  syscheck_alert := lf.syscheck
  alertid := some (lf.alertid crt_ftell)
  group := some (chr ' ' :: lf.generated_rule.group)

/-- The reader behind the second line. -/
def dated (crt_ftell : ℤ) (lf : Event) : Reader :=
  { lf.named crt_ftell with
    stage := .event
    date := some lf.date
    location := some lf.place }

/-- The reader behind the rule. -/
def begun (crt_ftell : ℤ) (lf : Event) : Reader :=
  { lf.dated crt_ftell with
    rule := lf.generated_rule.sigid.toInt
    level := lf.generated_rule.level.toInt
    comment := some lf.generated_rule.comment }

/-- The flag asks for this alert. -/
def Wanted (flag : ℕ) (lf : Event) : Prop := flag &&& CRALERT_MAIL_SET ≠ 0 → lf.mail = true

end Event

theorem alertLine_alertText (hflag : lf.Wanted flag) (hplain : Plain (lf.alertText crt_ftell)) :
    alertLine flag {} (lf.alertText crt_ftell ++ [chr '\n']) = lf.named crt_ftell := by
  have hcolon : chr ':' ∉ lf.alertid crt_ftell := notMem_alertid (by decide)
  have hblank : chr ' ' ∉ lf.alertid crt_ftell ++ [chr ':'] := by
    rw [mem_append, not_or]
    exact ⟨notMem_alertid (by decide), by decide⟩
  have hzero : ∀ b ∈ lf.alertid crt_ftell ++ [chr ':'], b ≠ 0 := by
    rintro b hb rfl
    obtain hb | hb := mem_append.mp hb
    · exact notMem_alertid (by decide) hb
    · exact absurd hb (by decide)
  -- behind the blank stands the mail flag, or the hyphen
  obtain ⟨q, hq, hmail, hgroup⟩ : ∃ q,
      lf.alertText crt_ftell ++ [chr '\n'] =
        lit "** Alert " ++ (lf.alertid crt_ftell ++ chr ':' :: chr ' ' :: q) ∧
      ¬ (flag &&& CRALERT_MAIL_SET ≠ 0 ∧ strncmpEq 4 ALERT_MAIL q = false) ∧
      strchr (chr '-') q =
        some (chr '-' :: chr ' ' :: (lf.generated_rule.group ++ [chr '\n'])) := by
    cases hm : lf.mail with
    | true =>
      refine ⟨lit "mail  - " ++ (lf.generated_rule.group ++ [chr '\n']), ?_, ?_, rfl⟩
      · rw [Event.alertText, hm]
        simp only [append_assoc]
        rfl
      · exact fun h => Bool.noConfusion h.2
    | false =>
      refine ⟨lit "- " ++ (lf.generated_rule.group ++ [chr '\n']), ?_, ?_, rfl⟩
      · rw [Event.alertText, hm]
        simp only [append_assoc]
        rfl
      · rintro ⟨h, -⟩
        rw [Event.Wanted, hm] at hflag
        exact Bool.noConfusion (hflag h)
  have hdrop : (lit "** Alert " ++ (lf.alertid crt_ftell ++ chr ':' :: chr ' ' :: q)).drop
      (ALERT_BEGIN.length + 1) = lf.alertid crt_ftell ++ chr ':' :: chr ' ' :: q := rfl
  have hid : strstr (lit ":") (lf.alertid crt_ftell ++ chr ':' :: chr ' ' :: q) =
      some (chr ':' :: chr ' ' :: q) := strstr_singleton hcolon
  have hflags : strchr (chr ' ') (lf.alertid crt_ftell ++ chr ':' :: chr ' ' :: q) =
      some (chr ' ' :: q) := by
    rw [← strchr_append (r := q) hblank hzero, append_assoc]
    rfl
  have hclear : clearNl (chr ' ' :: (lf.generated_rule.group ++ [chr '\n'])) =
      chr ' ' :: lf.generated_rule.group := clearNl_concat (chr ' ' :: lf.generated_rule.group)
  -- the line has no zero byte, so that what is behind its beginning is a string to its end
  have hstr : str (lf.alertid crt_ftell ++ chr ':' :: chr ' ' :: q) =
      lf.alertid crt_ftell ++ chr ':' :: chr ' ' :: q := by
    apply str_eq_self
    intro b hb
    have hmem : b ∈ lf.alertText crt_ftell ++ [chr '\n'] := by
      rw [hq]
      exact mem_append_right _ hb
    rcases mem_append.mp hmem with hmem | hmem
    · exact hplain.2 b hmem
    · rw [mem_singleton.mp hmem]
      decide
  rw [hq, alertLine]
  simp only [hdrop, hstr, hid, hflags, take_length_sub, tail_cons, if_neg hmail, hgroup, hclear]
  have hsys : (strstr (lit "syscheck") (chr ' ' :: lf.generated_rule.group)).isSome =
      lf.syscheck := rfl
  rw [hsys, Event.named]
  cases lf.syscheck <;> rfl

theorem dateLine_dateText (hdate : IsDate lf.date) (hnul : ∀ b ∈ lf.date, b ≠ 0) :
    dateLine (lf.named crt_ftell) (lf.dateText ++ [chr '\n']) = lf.dated crt_ftell := by
  obtain ⟨d, e, hde, hcolon, hblank⟩ := hdate
  have htext : lf.dateText = d ++ chr ':' :: (e ++ chr ' ' :: lf.place) := by
    rw [Event.dateText, hde]
    simp only [append_assoc]
    rfl
  have hd : ∀ b ∈ d, b ≠ 0 := fun b hb => hnul b (by rw [hde]; exact mem_append_left _ hb)
  have he : ∀ b ∈ chr ':' :: e, b ≠ 0 :=
    fun b hb => hnul b (by rw [hde]; exact mem_append_right _ hb)
  have hblank' : chr ' ' ∉ chr ':' :: e := by
    rw [mem_cons, not_or]
    exact ⟨by decide, hblank⟩
  have hfirst : strchr (chr ':') lf.dateText = some (chr ':' :: (e ++ chr ' ' :: lf.place)) := by
    rw [htext, strchr_append hcolon hd]
  have hsecond : strchr (chr ' ') (chr ':' :: (e ++ chr ' ' :: lf.place)) =
      some (chr ' ' :: lf.place) :=
    strchr_append (l := chr ':' :: e) (r := lf.place) hblank' he
  have htake : lf.dateText.take (lf.dateText.length - (chr ' ' :: lf.place).length) = lf.date := by
    have hsplit : lf.dateText = lf.date ++ chr ' ' :: lf.place := by
      rw [Event.dateText, append_assoc]
      rfl
    rw [hsplit, take_length_sub]
  rw [dateLine, clearNl_concat]
  simp only [hfirst, hsecond, htake, tail_cons]
  rfl

theorem ruleLine_ruleText :
    ruleLine (lf.dated crt_ftell) (lf.ruleText ++ [chr '\n']) = lf.begun crt_ftell := by
  -- what stands behind the level, behind the id, and the numbers in front of it
  generalize hlevel : lit ") -> " ++ chr '\'' :: (lf.generated_rule.comment ++ [chr '\'']) = level
  generalize hsid : lit "(level" ++ chr ' ' :: (fmtD lf.generated_rule.level.toInt ++ level) = sid
  have hdrop : lf.ruleText.drop RULE_BEGIN.length =
      fmtD lf.generated_rule.sigid.toInt ++ chr ' ' :: sid := by
    rw [← hsid, ← hlevel, Event.ruleText]
    simp only [append_assoc]
    rfl
  have hfmt : ∀ (i : ℤ) {c : UInt8}, ¬ (c = chr '-' ∨ isDigit c) → c ∉ fmtD i :=
    fun i c hc hmem => hc (mem_fmtD hmem)
  have hfirst : strchr (chr ' ') (fmtD lf.generated_rule.sigid.toInt ++ chr ' ' :: sid) =
      some (chr ' ' :: sid) := strchr_append (hfmt _ (by decide)) (plain_fmtD _).2
  have hsecond : strchr (chr ' ') sid =
      some (chr ' ' :: (fmtD lf.generated_rule.level.toInt ++ level)) := by
    rw [← hsid]
    exact strchr_append (by decide) (by decide)
  have hquote : strchr (chr '\'') (fmtD lf.generated_rule.level.toInt ++ level) =
      some (chr '\'' :: (lf.generated_rule.comment ++ [chr '\''])) := by
    have hno : chr '\'' ∉ fmtD lf.generated_rule.level.toInt ++ lit ") -> " := by
      rw [mem_append, not_or]
      exact ⟨hfmt _ (by decide), by decide⟩
    rw [← hlevel, ← append_assoc]
    exact strchr_append hno ((plain_fmtD _).append (by decide)).2
  have hrule : atoi (fmtD lf.generated_rule.sigid.toInt ++ chr ' ' :: sid) =
      lf.generated_rule.sigid.toInt := atoi_fmtD_append _ rfl
  have hlevel' : atoi (fmtD lf.generated_rule.level.toInt ++ level) =
      lf.generated_rule.level.toInt := by
    rw [← hlevel]
    exact atoi_fmtD_append _ rfl
  rw [ruleLine, clearNl_concat, hdrop]
  simp only [hfirst, hsecond, hquote, hrule, hlevel', tail_cons, beforeLast_append not_mem_nil]
  rfl

/-- The optional headers are taken one after the other. -/
theorem readLog_optionalLines {hs : List Header} (hnodup : hs.Nodup) {s : Reader}
    (hcomment : s.comment.isSome) (hlog : s.log = []) (hnone : ∀ h ∈ hs, s.header h = none)
    (hline : ∀ h ∈ hs, ∀ t, lf.header h = some t →
      chr '\n' ∉ t ∧ (h.begins ++ t).length < lineLimit) :
    readLog s (lf.optionalLines hs) =
      { s with header := fun h => if h ∈ hs then lf.header h else s.header h } := by
  induction hs generalizing s with
  | nil => simp [Event.optionalLines, readLog]
  | cons h hs ih =>
    rw [nodup_cons] at hnodup
    rw [forall_mem_cons] at hnone hline
    rw [Event.optionalLines, flatMap_cons]
    cases ht : lf.header h with
    | none =>
      have hrest := ih hnodup.2 hcomment hlog hnone.2 hline.2
      rw [Event.optionalLines] at hrest
      rw [optionalLine, Option.elim_none, nil_append, hrest]
      congr 1
      funext h'
      by_cases hh : h' = h
      · rw [hh, if_neg hnodup.1, if_pos mem_cons_self, ht, hnone.1]
      · simp [hh]
    | some t =>
      obtain ⟨hnl, hlen⟩ := hline.1 t ht
      have hplain : chr '\n' ∉ h.begins ++ t := by
        rw [mem_append, not_or]
        exact ⟨by cases h <;> decide, hnl⟩
      have htaken : headerOf s (h.begins ++ t) = some h :=
        headerOf_eq_some_iff.mpr ⟨hlog, hnone.1, prefix_append _ _⟩
      have hnext : eventLine s (h.begins ++ t) =
          { s with header := Function.update s.header h (some t) } := by
        rw [eventLine_of_comment hcomment, htaken, clearNl_of_notMem hplain]
        dsimp only
        rw [drop_left]
      have hnone' : ∀ h' ∈ hs, Function.update s.header h (some t) h' = none := by
        intro h' hh'
        have hne : h' ≠ h := fun he => hnodup.1 (he ▸ hh')
        rw [Function.update_of_ne hne, hnone.2 h' hh']
      have hrest := ih (s := { s with header := Function.update s.header h (some t) }) hnodup.2
        hcomment hlog hnone' hline.2
      rw [Event.optionalLines] at hrest
      rw [optionalLine, Option.elim_some, cons_append, nil_append, readLog,
        take_of_length_le hlen.le, hnext, hrest]
      congr 1
      funext h'
      by_cases hh : h' = h
      · rw [hh, if_neg hnodup.1, if_pos mem_cons_self, ht]
        exact Function.update_self _ _ _
      · simp [hh]

/-! ## The strings of an event -/

/-- No byte of the string is zero. -/
def NoNul (s : Bytes) : Prop := ∀ b ∈ s, b ≠ 0

theorem NoNul.append {s t : Bytes} (hs : NoNul s) (ht : NoNul t) : NoNul (s ++ t) := fun b hb =>
  (mem_append.mp hb).elim (hs b) (ht b)

/-- The string fields that are written. -/
def Event.strings (lf : Event) : List Bytes :=
  [lf.mon, lf.hour, lf.location, lf.generated_rule.group, lf.generated_rule.comment] ++
    lf.hostname.toList ++ Header.all.flatMap (fun h => (lf.header h).toList) ++
    lf.full_log.toList ++ lf.lasts

/-- They are C strings. -/
def Event.CStrings (lf : Event) : Prop := ∀ s ∈ lf.strings, NoNul s

namespace Event.CStrings

variable (hlf : lf.CStrings)
include hlf

theorem group : NoNul lf.generated_rule.group := hlf _ (by simp [Event.strings])

theorem comment : NoNul lf.generated_rule.comment := hlf _ (by simp [Event.strings])

theorem header {h : Header} {t : Bytes} (ht : lf.header h = some t) : NoNul t := by
  apply hlf
  have hmem : t ∈ Header.all.flatMap fun h => (lf.header h).toList :=
    mem_flatMap.mpr ⟨h, h.mem_all, by rw [ht]; exact mem_singleton_self _⟩
  simp only [Event.strings, mem_append]
  exact .inl (.inl (.inr hmem))

theorem date : NoNul lf.date := by
  have hmon : NoNul lf.mon := hlf _ (by simp [Event.strings])
  have hhour : NoNul lf.hour := hlf _ (by simp [Event.strings])
  have hblank : NoNul (lit " ") := by unfold NoNul; decide
  have hyear : NoNul (fmtD lf.year) := (plain_fmtD _).2
  have hday : NoNul (fmtU0 2 lf.day) := (plain_fmtU0 _ _).2
  exact (((((hyear.append hblank).append hmon).append hblank).append hday).append hblank).append
    hhour

theorem place : NoNul lf.place := by
  have hlocation : NoNul lf.location := hlf _ (by simp [Event.strings])
  have harrow : NoNul (lit "->") := by unfold NoNul; decide
  refine NoNul.append ?_ hlocation
  cases hhost : lf.hostname with
  | none => exact fun _ hb => absurd hb not_mem_nil
  | some host => exact NoNul.append (hlf _ (by simp [Event.strings, hhost])) harrow

theorem logLines {l : Bytes} (hl : l ∈ lf.logLines) : Plain l := by
  refine ⟨newline_notMem_logLines hl, ?_⟩
  obtain ⟨s, hs, hl⟩ := mem_flatMap.mp hl
  have hprinted : ∀ s, NoNul s → NoNul (printed s) := by
    intro s hs
    rw [printed]
    split
    · unfold NoNul
      decide
    · exact hs
  have htext : NoNul s := by
    obtain rfl | hs := mem_cons.mp hs
    · apply hprinted
      cases hlog : lf.full_log with
      | none => exact fun _ hb => absurd hb not_mem_nil
      | some log => exact hlf _ (by simp [Event.strings, hlog])
    · obtain ⟨last, hlast, rfl⟩ := mem_map.mp hs
      exact hprinted _ (hlf _ (by simp [Event.strings, hlast]))
  -- the lines of a text, with their newlines, are the text
  intro b hb
  have hmem : b ∈ s ++ [chr '\n'] := by
    rw [← unlines_splitOn]
    exact mem_flatten.mpr ⟨_, mem_map.mpr ⟨l, hl, rfl⟩, mem_append_left _ hb⟩
  obtain hmem | hmem := mem_append.mp hmem
  · exact htext b hmem
  · rw [mem_singleton.mp hmem]
    decide

end Event.CStrings

/-! ## Reading the header -/

/-- The header lines fit in the buffer of the reader. -/
def HeadFits (crt_ftell : ℤ) (lf : Event) : Prop :=
  ∀ l ∈ lf.headLines crt_ftell, l.length < lineLimit

/-- No text of the header has a newline. -/
structure PlainHead (lf : Event) : Prop where
  group : chr '\n' ∉ lf.generated_rule.group
  date : chr '\n' ∉ lf.date
  place : chr '\n' ∉ lf.place
  comment : chr '\n' ∉ lf.generated_rule.comment
  header : ∀ h t, lf.header h = some t → chr '\n' ∉ t

section Head

variable (hnul : lf.CStrings) (hplain : PlainHead lf)
include hnul hplain

theorem plain_alertText : Plain (lf.alertText crt_ftell) := by
  have hid : Plain (lf.alertid crt_ftell) :=
    ((plain_fmtD _).append (by decide)).append (plain_fmtD _)
  have hmail : Plain (if lf.mail then lit " mail " else []) := by
    cases lf.mail <;> decide
  have hbegin : Plain (lit "** Alert ") := by decide
  exact ((((hbegin.append hid).append (by decide)).append hmail).append (by decide)).append
    ⟨hplain.group, hnul.group⟩

theorem plain_dateText : Plain lf.dateText :=
  (Plain.append ⟨hplain.date, hnul.date⟩ (by decide)).append ⟨hplain.place, hnul.place⟩

theorem plain_ruleText : Plain lf.ruleText := by
  have hbegin : Plain (lit "Rule: ") := by decide
  exact (((((hbegin.append (plain_fmtD _)).append (by decide)).append (plain_fmtD _)).append
    (by decide)).append ⟨hplain.comment, hnul.comment⟩).append (by decide)

theorem plain_optionalLines {l : Bytes} (hl : l ∈ lf.optionalLines Header.all) :
    Plain l ∧ 0 < l.length := by
  obtain ⟨h, -, hl⟩ := mem_flatMap.mp hl
  cases ht : lf.header h with
  | none =>
    rw [ht] at hl
    cases hl
  | some t =>
    rw [ht] at hl
    obtain rfl := mem_singleton.mp hl
    have hbegins : Plain h.begins ∧ 0 < h.begins.length := by cases h <;> decide
    refine ⟨hbegins.1.append ⟨hplain.header h t ht, hnul.header ht⟩, ?_⟩
    rw [length_append]
    omega

/-- The reader goes through the header of an event. -/
theorem getRecord_osLog (hflag : lf.Wanted flag) (hdate : IsDate lf.date)
    (hfits : HeadFits crt_ftell lf) :
    getRecord flag {} (readLines bufferSize (osLog crt_ftell lf)) =
      getRecord flag (lf.begun crt_ftell)
        (readLines bufferSize
          (unlines (lf.optionalLines Header.all ++ lf.logLines) ++ [chr '\n'])) := by
  have hfits' : (lf.alertText crt_ftell).length < lineLimit ∧ lf.dateText.length < lineLimit ∧
      lf.ruleText.length < lineLimit :=
    ⟨hfits _ (by simp [Event.headLines]), hfits _ (by simp [Event.headLines]),
      hfits _ (by simp [Event.headLines])⟩
  -- a date begins with a digit or a sign
  have hyear : ALERT_BEGIN.isPrefixOf (lf.dateText ++ [chr '\n']) = false := by
    obtain ⟨b, t, hb⟩ : ∃ b t, fmtD lf.year = b :: t := by
      apply exists_cons_of_ne_nil
      rw [fmtD]
      split
      · exact cons_ne_nil _ _
      · exact fmtU_ne_nil _
    have hne : chr '*' ≠ b := by
      rintro rfl
      exact absurd (mem_fmtD (i := lf.year) (b := chr '*') (by rw [hb]; exact mem_cons_self))
        (by decide)
    obtain ⟨t', ht'⟩ : ∃ t', lf.dateText ++ [chr '\n'] = b :: t' := by
      rw [Event.dateText, Event.date, hb]
      simp only [cons_append]
      exact ⟨_, rfl⟩
    rw [ht', ← Bool.not_eq_true, List.isPrefixOf_iff_prefix]
    exact fun hbegins => hne (cons_prefix_cons.mp hbegins).1
  have halert : textLine flag {} (lf.alertText crt_ftell ++ [chr '\n']) = lf.named crt_ftell := by
    have hbegins : ALERT_BEGIN.isPrefixOf (lf.alertText crt_ftell ++ [chr '\n']) = true := by
      rw [Event.alertText]
      simp only [append_assoc]
      rfl
    have hplain' : Plain (lf.alertText crt_ftell) := plain_alertText hnul hplain
    rw [textLine, hplain'.str_concat, if_pos ⟨by decide, hbegins⟩, alertLine_alertText hflag hplain']
  have hdated : textLine flag (lf.named crt_ftell) (lf.dateText ++ [chr '\n']) =
      lf.dated crt_ftell := by
    rw [textLine, (plain_dateText hnul hplain).str_concat,
      if_neg (by rw [hyear]; exact fun h => Bool.noConfusion h.2)]
    exact dateLine_dateText hdate hnul.date
  have hbegun : textLine flag (lf.dated crt_ftell) (lf.ruleText ++ [chr '\n']) =
      lf.begun crt_ftell := by
    have hbegins : RULE_BEGIN.isPrefixOf (lf.ruleText ++ [chr '\n']) = true := by
      rw [Event.ruleText]
      simp only [append_assoc]
      rfl
    rw [textLine, (plain_ruleText hnul hplain).str_concat, if_neg fun h => h.1 rfl]
    exact (if_pos ⟨rfl, rfl, hbegins⟩).trans ruleLine_ruleText
  rw [osLog_eq, Event.headLines, unlines_cons, unlines_cons, unlines_cons]
  simp only [append_assoc, cons_append]
  rw [getRecord_short rfl (plain_alertText hnul hplain) (by simp [Event.alertText, lit]) hfits'.1,
    halert,
    getRecord_short rfl (plain_dateText hnul hplain) (by simp [Event.dateText, lit]) hfits'.2.1,
    hdated,
    getRecord_short rfl (plain_ruleText hnul hplain) (by simp [Event.ruleText, lit]) hfits'.2.2,
    hbegun, unlines_append, append_assoc]

end Head

/-! ## The round trip -/

/-- The reader has the fields of the event, each optional header exactly if the event has it, and the
lines of its log, cut to what a read takes and to the first twenty. In an alert of syscheck the lines
that report a change are kept as such. -/
structure ReadsBack (crt_ftell : ℤ) (lf : Event) (r : Reader) : Prop where
  alertid : r.alertid = some (lf.alertid crt_ftell)
  rule : r.rule = lf.generated_rule.sigid.toInt
  level : r.level = lf.generated_rule.level.toInt
  comment : r.comment = some lf.generated_rule.comment
  -- the blank that is written in front of the group is read with it
  group : r.group = some (chr ' ' :: lf.generated_rule.group)
  location : r.location = some lf.place
  date : r.date = some lf.date
  header : r.header = lf.header
  log : r.log = (logOf lf.syscheck lf.logLines).take 20
  change : ∀ c, r.change c = if lf.syscheck then reported c lf.logLines else none

/-- The text of the event is read back as one alert: the reader that begins with it has read all of
it when it returns, with the fields of the event, and so it does between other alerts. -/
def RoundTrip (flag : ℕ) (crt_ftell : ℤ) (lf : Event) : Prop :=
  ∃ r, ReadsBack crt_ftell lf r ∧
    getRecord flag {} (readLines bufferSize (osLog crt_ftell lf)) = some (r, []) ∧
    ∀ pre post, EndsBlank pre →
      readAlerts flag (pre ++ osLog crt_ftell lf ++ post) =
        readAlerts flag pre ++ r.alertData :: readAlerts flag post

/-- The events whose alerts can be read: the header lines are whole lines of the file that fit in
the buffer, no line of the log counts as blank, and the log does not begin like a header that the
event does not have. -/
structure Readable (crt_ftell : ℤ) (lf : Event) : Prop where
  fits : HeadFits crt_ftell lf
  plain : PlainHead lf
  date : IsDate lf.date
  log : ∀ l ∈ lf.logLines, ¬ lineLimit ∣ l.length
  first : ∀ l ∈ (logOf lf.syscheck lf.logLines).head?, ∀ h, lf.header h = none → ¬ h.begins <+: l

theorem endsBlank_osLog (crt_ftell : ℤ) (lf : Event) : EndsBlank (osLog crt_ftell lf) := by
  have hlog : unlines lf.logLines ≠ [] := by
    rw [unlines_log]
    simp [lit_newline]
  obtain hnil | ⟨t, ht⟩ := wholeLines_unlines lf.logLines
  · exact absurd hnil hlog
  · refine .inr ⟨unlines (lf.headLines crt_ftell) ++ t, ?_⟩
    rw [osLog_eq, ht]
    simp

theorem readLog_begun (hplain : PlainHead lf) (hfits : HeadFits crt_ftell lf) (ls : List Bytes) :
    readLog (lf.begun crt_ftell) (lf.optionalLines Header.all ++ ls) =
      readLog { lf.begun crt_ftell with header := lf.header } ls := by
  have hline : ∀ h ∈ Header.all, ∀ t, lf.header h = some t →
      chr '\n' ∉ t ∧ (h.begins ++ t).length < lineLimit := by
    intro h hh t ht
    refine ⟨hplain.header h t ht, hfits _ ?_⟩
    have hmem : h.begins ++ t ∈ lf.optionalLines Header.all :=
      mem_flatMap.mpr ⟨h, hh, by rw [ht]; exact mem_singleton_self _⟩
    exact mem_cons_of_mem _ (mem_cons_of_mem _ (mem_cons_of_mem _ hmem))
  rw [readLog_append, readLog_optionalLines (by decide) rfl rfl (fun _ _ => rfl) hline]
  simp only [Header.mem_all, if_true]

theorem inEvent_begun : InEvent (lf.begun crt_ftell) := ⟨rfl, rfl, rfl, rfl⟩

/-- A readable event is read back. -/
theorem roundTrip_of_readable (hnul : lf.CStrings) (hflag : lf.Wanted flag)
    (h : Readable crt_ftell lf) : RoundTrip flag crt_ftell lf := by
  have hlines : ∀ l ∈ lf.optionalLines Header.all ++ lf.logLines,
      Plain l ∧ ¬ lineLimit ∣ l.length := by
    intro l hl
    obtain hl | hl := mem_append.mp hl
    · obtain ⟨hplain, hpos⟩ := plain_optionalLines hnul h.plain hl
      refine ⟨hplain, Nat.not_dvd_of_pos_of_lt hpos (h.fits l ?_)⟩
      exact mem_cons_of_mem _ (mem_cons_of_mem _ (mem_cons_of_mem _ hl))
    · exact ⟨hnul.logLines hl, h.log l hl⟩
  have hnl : ∀ l ∈ lf.logLines, chr '\n' ∉ l := fun l hl => (hnul.logLines hl).1
  have hread : getRecord flag {} (readLines bufferSize (osLog crt_ftell lf)) =
      some (readLog { lf.begun crt_ftell with header := lf.header } lf.logLines, []) := by
    rw [getRecord_osLog hnul h.plain hflag h.date h.fits, getRecord_readLog inEvent_begun hlines,
      readLog_begun h.plain h.fits]
  have hsame : SameHead { lf.begun crt_ftell with header := lf.header } _ :=
    readLog_sameHead rfl lf.logLines
  obtain ⟨hlog, hheader⟩ := readLog_log (s := { lf.begun crt_ftell with header := lf.header }) rfl hnl
    (fun _ => h.first) (Nat.zero_le _)
  refine ⟨_, ?_, hread, fun pre post hpre => ?_⟩
  · exact
      { alertid := hsame.alertid
        rule := hsame.rule
        level := hsame.level
        comment := hsame.comment
        group := hsame.group
        location := hsame.location
        date := hsame.date
        header := hheader
        log := hlog
        change := fun c => by
          rw [readLog_change rfl hnl]
          cases hsys : lf.syscheck <;> simp [Event.begun, Event.dated, Event.named, hsys] }
  · exact readAlerts_of_getRecord (endsBlank_osLog _ _).wholeLines hread hpre post

/-- An event that is read back, with header lines that fit, is readable. -/
theorem readable_of_roundTrip (hnul : lf.CStrings) (hflag : lf.Wanted flag)
    (hfits : HeadFits crt_ftell lf) (h : RoundTrip flag crt_ftell lf) : Readable crt_ftell lf := by
  obtain ⟨r, hback, hread, -⟩ := h
  -- what the reader returns has no newlines, so the header of the event has none
  have hwell : WellRead r := getRecord_wellRead
    (fun _ hline => newline_notMem_dropLast (by decide) hline) hread
  have hplain : PlainHead lf :=
    { group := fun hmem => hwell.group _ hback.group (mem_cons_of_mem _ hmem)
      date := (hwell.date _ hback.date).1
      place := hwell.location _ hback.location
      comment := hwell.comment _ hback.comment
      header := fun h t ht => hwell.header h t (by rw [hback.header, ht]) }
  have hdate : IsDate lf.date := (hwell.date _ hback.date).2
  rw [getRecord_osLog hnul hplain hflag hdate hfits] at hread
  have hlines : ∀ l ∈ lf.optionalLines Header.all ++ lf.logLines, Plain l := by
    intro l hl
    obtain hl | hl := mem_append.mp hl
    · exact (plain_optionalLines hnul hplain hl).1
    · exact hnul.logLines hl
  have hlen := not_dvd_of_getRecord inEvent_begun hlines hread
  have hr : r = readLog { lf.begun crt_ftell with header := lf.header } lf.logLines := by
    rw [getRecord_readLog inEvent_begun fun l hl => ⟨hlines l hl, hlen l hl⟩,
      readLog_begun hplain hfits] at hread
    exact (Prod.mk.inj (Option.some.inj hread)).1.symm
  refine ⟨hfits, hplain, hdate, fun l hl => hlen l (mem_append_right _ hl), ?_⟩
  -- a header that the log were taken for would be one of the event
  by_contra hfirst
  obtain ⟨h, hnone, htaken⟩ := header_ne_none_of_not_noHeader
    (s := { lf.begun crt_ftell with header := lf.header }) rfl
    (fun l hl => (hnul.logLines hl).1) rfl hfirst
  rw [← hr, hback.header] at htaken
  exact htaken hnone

/-- A file of readable alerts is read as these alerts, in their order. -/
theorem readAlerts_flatMap {lfs : List (ℤ × Event)}
    (h : ∀ e ∈ lfs, e.2.CStrings ∧ e.2.Wanted flag ∧ Readable e.1 e.2) :
    ∃ rs, List.Forall₂ (fun e r => ReadsBack e.1 e.2 r) lfs rs ∧
      readAlerts flag (lfs.flatMap fun e => osLog e.1 e.2) = rs.map alertData := by
  induction lfs with
  | nil => exact ⟨[], List.Forall₂.nil, rfl⟩
  | cons e lfs ih =>
    rw [forall_mem_cons] at h
    obtain ⟨hnul, hflag, hreadable⟩ := h.1
    obtain ⟨r, hback, -, hread⟩ := roundTrip_of_readable hnul hflag hreadable
    obtain ⟨rs, hrs, hrest⟩ := ih h.2
    refine ⟨r :: rs, List.Forall₂.cons hback hrs, ?_⟩
    have hcons := hread [] (lfs.flatMap fun e => osLog e.1 e.2) (.inl rfl)
    rw [nil_append, hrest] at hcons
    rw [flatMap_cons, hcons]
    rfl

/-- An event is read back if it is readable, and, where its header lines fit in the buffer of the
reader, only then. -/
theorem roundTrip_iff_readable (hnul : lf.CStrings) (hflag : lf.Wanted flag) :
    (Readable crt_ftell lf → RoundTrip flag crt_ftell lf) ∧
      (HeadFits crt_ftell lf → RoundTrip flag crt_ftell lf → Readable crt_ftell lf) :=
  ⟨roundTrip_of_readable hnul hflag, readable_of_roundTrip hnul hflag⟩

/-- A failed login from a known address, mailed, with a log that looks like a header. -/
def failedLogin : Event where
  time := 1704448800
  alert_id := 4711
  year := 2024
  mon := lit "Jan"
  day := 5
  hour := lit "10:00:00"
  hostname := some (lit "web")
  location := lit "/var/log/auth.log"
  generated_rule :=
    { sigid := 5716
      level := 5
      group := lit "syslog,sshd,authentication_failed,"
      comment := lit "SSHD authentication failed."
      alert_opts := DO_MAILALERT }
  srcip := some (lit "192.0.2.7")
  dstuser := some (lit "root")
  full_log := some (lit "Src IP: 192.0.2.99")

theorem cStrings_failedLogin : failedLogin.CStrings := by
  unfold Event.CStrings NoNul
  decide +kernel

/-- The address is known, so that the log is not taken for it. -/
theorem readable_failedLogin : Readable 0 failedLogin where
  fits := by
    unfold HeadFits
    decide +kernel
  plain :=
    { group := by decide +kernel
      date := by decide +kernel
      place := by decide +kernel
      comment := by decide +kernel
      header := fun h t ht => by
        cases h <;> cases ht <;> decide +kernel }
  date := ⟨lit "2024 Jan 05 10", lit "00:00", by decide +kernel, by decide, by decide⟩
  log := by decide +kernel
  first := by
    have hhead : (logOf failedLogin.syscheck failedLogin.logLines).head? =
        some (lit "Src IP: 192.0.2.99") := by decide +kernel
    rw [hhead]
    rintro l ⟨⟩ h hnone
    cases h with
    | srcip => cases hnone
    | user => cases hnone
    | _ => decide

theorem roundTrip_iff_readable_failedLogin : RoundTrip CRALERT_MAIL_SET 0 failedLogin :=
  (roundTrip_iff_readable cStrings_failedLogin fun _ => rfl).1 readable_failedLogin

theorem readAlerts_flatMap_two : ∃ rs,
    List.Forall₂ (fun e r => ReadsBack e.1 e.2 r) [(0, failedLogin), (0, failedLogin)] rs ∧
      readAlerts CRALERT_MAIL_SET ([(0, failedLogin), (0, failedLogin)].flatMap fun e =>
        osLog e.1 e.2) = rs.map alertData :=
  readAlerts_flatMap (by simpa using ⟨cStrings_failedLogin, fun _ => rfl, readable_failedLogin⟩)

/-- The same event, where no decoder has found an address. -/
def unknownSource : Event := { failedLogin with srcip := none }

/-- The same event, with a log of three lines, one of which is empty. -/
def emptyLine : Event := { failedLogin with full_log := some (lit "Failed password\n\nfor root") }

/-- The log is taken for the address of the source, and an empty line of the log ends the alert. -/
theorem not_roundTrip_unknownSource :
    (unknownSource.CStrings ∧
      (readAlerts 0 (osLog 0 unknownSource)).map (fun a => (a.srcip, a.log)) =
        [(some (lit "192.0.2.99"), [[]])] ∧
      ¬ RoundTrip 0 0 unknownSource) ∧
    emptyLine.CStrings ∧
      (readAlerts 0 (osLog 0 emptyLine)).map (fun a => a.log) = [[lit "Failed password"]] ∧
      ¬ RoundTrip 0 0 emptyLine := by
  have hunknown : unknownSource.CStrings := by
    unfold Event.CStrings NoNul
    decide +kernel
  have hempty : emptyLine.CStrings := by
    unfold Event.CStrings NoNul
    decide +kernel
  refine ⟨⟨hunknown, by decide +kernel, fun h => ?_⟩, hempty, by decide +kernel, fun h => ?_⟩
  · have hfits : HeadFits 0 unknownSource := by
      unfold HeadFits
      decide +kernel
    have hreadable := readable_of_roundTrip hunknown (fun _ => rfl) hfits h
    have hhead : lit "Src IP: 192.0.2.99" ∈
        (logOf unknownSource.syscheck unknownSource.logLines).head? := by decide +kernel
    exact hreadable.first _ hhead .srcip rfl (by decide)
  · have hfits : HeadFits 0 emptyLine := by
      unfold HeadFits
      decide +kernel
    have hreadable := readable_of_roundTrip hempty (fun _ => rfl) hfits h
    exact hreadable.log [] (by decide +kernel) (dvd_zero _)

end AlertLog
