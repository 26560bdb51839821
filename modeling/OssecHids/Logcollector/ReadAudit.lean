import OssecHids.Lib.Search
import OssecHids.Logcollector.ReadModsecAudit

/-!
# Audit logs of Linux

`read_audit` collects the records of an event, which are the lines with one id, and sends them as one
message. The id of the last record is kept in a buffer that is not cleared.

- `readAudit`: a visit;
- `Audit.record_append`, `Audit.record_cons`: what a record does, with an id that the buffer can tell;
- `readAuditLoop_spec`: the lines of a visit;
- `readAudit_law`: every line is read by one visit, which sends the events in it.
-/

open CString Transition Framing List Option

namespace Logcollector

def MAX_CACHE : ℕ := 16
def MAX_HEADER : ℕ := 64

/-- The text between `msg=audit(` and `): `, in a line that begins with `type=`. -/
def auditId (buffer : Bytes) : Option Bytes :=
  if !strncmpEq 5 buffer (lit "type=") then none
  else
    match strstr (lit "msg=audit(") (buffer.drop 5) with
    | none => none
    | some id =>
      let id := id.drop 10
      (strstr (lit "): ") id).map fun p => id.take (ptrDiff p id)

/-- The text that `audit_send_msg` makes of a cache, in the same form as `modsec_send_msg`. -/
def auditMessage (cache : List Bytes) : Bytes := modsecMessage cache

/-- The local variables of `read_audit`, and what is sent. -/
structure Audit where
  cache : List Bytes := []
  header : Bytes := List.replicate MAX_HEADER 0
  sent : List Bytes := []

namespace Audit

/-- `audit_send_msg`, if there is something in the cache. -/
def flush (v : Visit) (st : Audit) : Audit :=
  if st.cache = [] then st
  else
    { st with
      cache := []
      sent := if !v.drop_it ∧ auditMessage st.cache ≠ [] then st.sent ++ [auditMessage st.cache]
        else st.sent }

/-- What a record does. -/
def record (v : Visit) (st : Audit) (id buffer : Bytes) : Audit :=
  let z := id.length
  if !strncmpEq z id st.header then
    { st.flush v with
      cache := [buffer]
      header := overwrite (id.take (if z < MAX_HEADER then z else MAX_HEADER - 1)) st.header }
  else if st.cache.length = MAX_CACHE then st
  else { st with cache := st.cache ++ [buffer] }

/-- A record with the id in it. -/
def feed (v : Visit) (st : Audit) (line : Bytes) : Audit :=
  (auditId line).elim st fun id => st.record v id line

end Audit

/-- The loop of `read_audit`: what is collected, the position, and whether the rest of a line is still
to be discarded. -/
def readAuditLoop (v : Visit) :
    ℕ → ℕ → Tail → Audit → Tail → Option (Audit × Tail × Bool)
  | 0, _, _, _, _ => none
  | fuel + 1, lines_read, offset, st, fp =>
    match logrConsumeLine v lines_read with
    | none => some (st, fp, false)
    | some lines_read =>
      let (buffer, fp) := fgetsNoNul OS_MAXSTR fp
      if buffer = [] then some (st, fp, false)
      else if chr '\n' ∈ buffer then
        let buffer := buffer.dropLast
        match auditId buffer with
        | none => some (st, fp, false)
        | some id => readAuditLoop v fuel lines_read fp (st.record v id buffer) fp
      else if buffer.length = OS_MAXSTR - 1 then
        match drainLoop v OS_MAXSTR (fp.unread.length + 1) lines_read fp with
        | none => none
        | some (.newline, _, fp) => some (st, fp, false)
        | some (_, _, fp) => some (st, fp, true)
      else some (st, offset, false)

/-- A monitored file, and what was sent of it. -/
structure AuditFile where
  fp : Tail := {}
  skip_to_nl : Bool := false
  sent : List Bytes := []

/-- The end of a visit: what is cached is sent. -/
def AuditFile.finish (v : Visit) : Audit × Tail × Bool → AuditFile
  | (st, fp, skip_to_nl) => { fp, skip_to_nl, sent := (st.flush v).sent }

/-- `read_audit` -/
def readAudit (v : Visit) (s : AuditFile) : Option AuditFile :=
  -- the position is taken before the rest of a line is discarded
  let offset := s.fp
  if s.skip_to_nl then
    match drainLoop v (OS_MAXSTR - OS_LOG_HEADER) (s.fp.unread.length + 1) 0 s.fp with
    | none => none
    | some (.newline, lines_read, fp) =>
      (readAuditLoop v (fp.unread.length + 1) lines_read offset { sent := s.sent } fp).map
        (AuditFile.finish v)
    | some (_, _, fp) => some { s with fp }
  else
    (readAuditLoop v (s.fp.unread.length + 1) 0 offset { sent := s.sent } s.fp).map
      (AuditFile.finish v)

/-- The writer adds a piece, or the file is visited, with a budget of lines or, for 0, without. -/
inductive AuditEvent
  | append (piece : Bytes)
  | poll (max_lines : ℕ)

def AuditFile.Step (s : AuditFile) : AuditEvent → AuditFile → Prop
  | .append piece, s' => s' = { s with fp := s.fp.append piece }
  | .poll max_lines, s' => readAudit ⟨max_lines, false⟩ s = some s'

/-! ## Events -/

/-- The id of a line of the file. -/
def lineId (line : Bytes) : Option Bytes := auditId (line.map noNul)

/-- The line fits in the buffer and has an id. -/
def isRecord (line : Bytes) : Bool := line.length < OS_MAXSTR - 1 && (lineId line).isSome

/-- Records with one id. -/
structure AuditRecords where
  id : Bytes
  records : List Bytes
  ne_nil : records ≠ []
  same : ∀ line ∈ records, isRecord line = true ∧ lineId line = some id

/-- One message, of the first records as far as they fit. -/
def AuditRecords.message (event : AuditRecords) : Bytes :=
  auditMessage ((event.records.map fun line => line.map noNul).take MAX_CACHE)

/-- What a visit reads: the records of some events, and a line at the end that cannot be used. -/
structure Reading where
  events : List AuditRecords
  apart : events.IsChain fun event next => event.id ≠ next.id
  dropped : Option Bytes
  unusable : ∀ line ∈ dropped, isRecord line = false

namespace Reading

def records (r : Reading) : List Bytes := r.events.flatMap AuditRecords.records

def lines (r : Reading) : List Bytes := r.records ++ r.dropped.toList

def messages (r : Reading) : List Bytes := r.events.map AuditRecords.message

end Reading

/-- The buffer tells every id from the one in front of it: an id has room, and a new one is not what the
buffer begins with. -/
def Told (header : Bytes) (prev : Option Bytes) : List Bytes → Prop
  | [] => True
  | line :: lines => ∀ id, lineId line = some id →
    id.length < MAX_HEADER ∧ (∀ p, prev = some p → p ≠ id → ¬id <+: header) ∧
      Told (overwrite id header) (some id) lines

/-- The records in front of the reader. -/
def AuditFile.pending (s : AuditFile) : List Bytes :=
  (frames (chr '\n') s.fp.unread).takeWhile isRecord

/-- The visits whose ids the buffer can tell, and that do not stop inside a line that is too long. -/
def AuditFile.GoodStep (s : AuditFile) (e : AuditEvent) (s' : AuditFile) : Prop :=
  s.Step e s' ∧ s'.skip_to_nl = false ∧
    ∀ max_lines, e = .poll max_lines → Told (List.replicate MAX_HEADER 0) none s.pending

variable {v : Visit} {st : Audit} {id header line buffer : Bytes} {lines : List Bytes}
  {prev : Option Bytes} {n : ℕ} {fp fp' : Tail}

/-! ## Records -/

theorem notMem_auditId (hbuffer : 0 ∉ buffer) (h : auditId buffer = some id) : 0 ∉ id := by
  rw [auditId] at h
  split at h
  · cases h
  · cases hfind : strstr (lit "msg=audit(") (buffer.drop 5) with
    | none =>
      rw [hfind] at h
      cases h
    | some q =>
      rw [hfind] at h
      obtain ⟨p, -, rfl⟩ := map_eq_some_iff.mp h
      intro hmem
      have hq := isSuffix_of_strstr hfind
      exact hbuffer (mem_of_mem_drop (hq.subset (mem_of_mem_drop (mem_of_mem_take hmem))))

theorem overwrite_of_isPrefix (h : id <+: header) : overwrite id header = header := by
  obtain ⟨rest, rfl⟩ := h
  rw [overwrite, drop_left]

theorem isPrefix_overwrite (id header : Bytes) : id <+: overwrite id header :=
  prefix_append _ _

/-- A record that the buffer takes for one of the same event. -/
theorem Audit.record_append (hid : 0 ∉ id) (hpre : id <+: st.header) {g : List Bytes}
    (hcache : st.cache = g.take MAX_CACHE) (buffer : Bytes) :
    st.record v id buffer = { st with cache := (g ++ [buffer]).take MAX_CACHE } := by
  have hsame : ¬(!strncmpEq id.length id st.header) = true := by
    rw [(strncmpEq_iff_isPrefix (ne_zero_of_notMem hid)).mpr hpre]
    decide
  have hlen := congrArg List.length hcache
  rw [length_take] at hlen
  rw [Audit.record, if_neg hsame]
  split_ifs with hfull
  · have hle : MAX_CACHE ≤ g.length := by omega
    rw [take_append_of_le_length hle, ← hcache]
  · have hle : g.length < MAX_CACHE := by omega
    rw [hcache, take_of_length_le hle.le, take_of_length_le]
    rw [length_append, length_singleton]
    exact hle

theorem Audit.record_cons (hid : 0 ∉ id) (hlen : id.length < MAX_HEADER) (hpre : ¬id <+: st.header)
    (buffer : Bytes) : st.record v id buffer =
      { cache := [buffer], header := overwrite id st.header, sent := (st.flush v).sent } := by
  have hother : (!strncmpEq id.length id st.header) = true := by
    rw [Bool.not_eq_true', Bool.eq_false_iff]
    exact fun h => hpre ((strncmpEq_iff_isPrefix (ne_zero_of_notMem hid)).mp h)
  rw [Audit.record, if_pos hother, if_pos hlen, take_length]

theorem exists_id (h : isRecord line = true) : ∃ id, lineId line = some id ∧ 0 ∉ id := by
  rw [isRecord, Bool.and_eq_true, isSome_iff_exists] at h
  obtain ⟨-, id, hid⟩ := h
  exact ⟨id, hid, notMem_auditId zero_notMem_map_noNul hid⟩

theorem ne_nil_of_isRecord (h : isRecord line = true) : line ≠ [] := by
  rintro rfl
  cases h

theorem AuditRecords.message_ne_nil (event : AuditRecords) : event.message ≠ [] := by
  obtain ⟨line, rest, hrecords⟩ := exists_cons_of_ne_nil event.ne_nil
  have hrecord := (event.same line (by rw [hrecords]; exact mem_cons_self)).1
  have hlen : line.length < OS_MAXSTR - 1 := by
    rw [isRecord, Bool.and_eq_true] at hrecord
    exact of_decide_eq_true hrecord.1
  rw [AuditRecords.message, hrecords, map_cons, MAX_CACHE, take_succ_cons]
  apply modsecMessage_ne_nil
  · exact fun h => ne_nil_of_isRecord hrecord (map_eq_nil_iff.mp h)
  · rw [length_map]
    omega

theorem flush_event (hdrop : v.drop_it = false) (event : AuditRecords)
    (hcache : st.cache = (event.records.map fun line => line.map noNul).take MAX_CACHE) :
    (st.flush v).sent = st.sent ++ [event.message] := by
  have hne := event.message_ne_nil
  have hmessage : auditMessage st.cache = event.message := by rw [hcache]; rfl
  have hcached : st.cache ≠ [] := fun h => by
    rw [← hmessage, h] at hne
    exact hne rfl
  rw [Audit.flush, if_neg hcached]
  rw [hmessage, if_pos ⟨by rw [hdrop]; rfl, hne⟩]

/-- The records behind the ones of an event that are in the cache. -/
theorem exists_events (hdrop : v.drop_it = false) (hlines : ∀ line ∈ lines, isRecord line = true)
    (st : Audit) (event : AuditRecords)
    (hcache : st.cache = (event.records.map fun line => line.map noNul).take MAX_CACHE)
    (hheader : event.id <+: st.header) (htold : Told st.header (some event.id) lines) :
    ∃ (next : AuditRecords) (events : List AuditRecords), next.id = event.id ∧
      (next :: events).IsChain (fun event next => event.id ≠ next.id) ∧
      (next :: events).flatMap AuditRecords.records = event.records ++ lines ∧
      ((lines.foldl (fun (st : Audit) line => st.feed v (line.map noNul)) st).flush v).sent =
        st.sent ++ (next :: events).map AuditRecords.message := by
  induction lines generalizing st event with
  | nil =>
    refine ⟨event, [], rfl, .singleton _, ?_, flush_event hdrop event hcache⟩
    rw [flatMap_cons, flatMap_nil]
  | cons line lines ih =>
    rw [forall_mem_cons] at hlines
    obtain ⟨id, hid, hz⟩ := exists_id hlines.1
    obtain ⟨hlen, hnew, hrest⟩ := htold id hid
    have hfeed : st.feed v (line.map noNul) = st.record v id (line.map noNul) := by
      rw [Audit.feed, show auditId (line.map noNul) = some id from hid, elim_some]
    rw [foldl_cons, hfeed]
    by_cases hsame : event.id = id
    case pos =>
      -- another record of the event
      rw [← hsame] at hz hrest hid ⊢
      rw [overwrite_of_isPrefix hheader] at hrest
      rw [Audit.record_append hz hheader hcache]
      obtain ⟨next, events, hnext, hchain, hflat, hsent⟩ := ih hlines.2
        { st with cache := ((event.records.map fun line => line.map noNul) ++
          [line.map noNul]).take MAX_CACHE }
        { id := event.id
          records := event.records ++ [line]
          ne_nil := append_ne_nil_of_left_ne_nil event.ne_nil _
          same := by
            intro l hl
            rcases mem_append.mp hl with hl | hl
            · exact event.same l hl
            · rw [mem_singleton.mp hl]
              exact ⟨hlines.1, hid⟩ }
        (by rw [map_append, map_singleton]) hheader hrest
      refine ⟨next, events, hnext, hchain, ?_, hsent⟩
      rw [hflat, append_assoc, singleton_append]
    case neg =>
      -- the first record of the next event
      rw [Audit.record_cons hz hlen (hnew _ rfl hsame)]
      obtain ⟨next, events, hnext, hchain, hflat, hsent⟩ := ih hlines.2
        { cache := [line.map noNul], header := overwrite id st.header, sent := (st.flush v).sent }
        { id := id
          records := [line]
          ne_nil := cons_ne_nil _ _
          same := fun l hl => by
            rw [mem_singleton.mp hl]
            exact ⟨hlines.1, hid⟩ }
        rfl (isPrefix_overwrite id st.header) hrest
      refine ⟨event, next :: events, rfl, ?_, ?_, ?_⟩
      · refine isChain_cons_cons.mpr ⟨?_, hchain⟩
        rw [hnext]
        exact hsame
      · rw [flatMap_cons, hflat]
        rfl
      · rw [hsent, flush_event hdrop event hcache, append_assoc]
        rfl

/-- What a visit sends of the records that it reads. -/
theorem exists_reading (hdrop : v.drop_it = false) (hlines : ∀ line ∈ lines, isRecord line = true)
    (htold : Told (List.replicate MAX_HEADER 0) none lines) (sent : List Bytes) :
    ∃ events : List AuditRecords, events.IsChain (fun event next => event.id ≠ next.id) ∧
      events.flatMap AuditRecords.records = lines ∧
      ((lines.foldl (fun (st : Audit) line => st.feed v (line.map noNul)) { sent }).flush v).sent =
        sent ++ events.map AuditRecords.message := by
  cases lines with
  | nil => exact ⟨[], .nil, rfl, (append_nil _).symm⟩
  | cons line lines =>
    rw [forall_mem_cons] at hlines
    obtain ⟨id, hid, hz⟩ := exists_id hlines.1
    obtain ⟨hlen, -, hrest⟩ := htold id hid
    have hfeed : ({ sent } : Audit).feed v (line.map noNul) =
        { cache := [line.map noNul], header := overwrite id (List.replicate MAX_HEADER 0), sent } := by
      rw [Audit.feed, show auditId (line.map noNul) = some id from hid, elim_some]
      by_cases hpre : id <+: List.replicate MAX_HEADER 0
      · rw [Audit.record_append (g := []) hz hpre rfl, overwrite_of_isPrefix hpre]
        rfl
      · rw [Audit.record_cons hz hlen hpre]
        rfl
    rw [foldl_cons, hfeed]
    obtain ⟨next, events, -, hchain, hflat, hsent⟩ := exists_events hdrop hlines.2
      { cache := [line.map noNul], header := overwrite id (List.replicate MAX_HEADER 0), sent }
      { id := id
        records := [line]
        ne_nil := cons_ne_nil _ _
        same := fun l hl => by
          rw [mem_singleton.mp hl]
          exact ⟨hlines.1, hid⟩ }
      rfl (isPrefix_overwrite id _) hrest
    exact ⟨next :: events, hchain, hflat, hsent⟩

/-! ## Messages -/

/-- Records that fit are joined by spaces. -/
theorem auditMessage_eq {cache : List Bytes} (hne : ∀ record ∈ cache, record ≠ [])
    (hfits : ([chr ' '].intercalate cache).length + 1 < OS_MAXSTR) :
    auditMessage cache = [chr ' '].intercalate cache := by
  have hjoin : ∀ (message : Bytes) (cache : List Bytes), message ≠ [] →
      (message ++ cache.flatMap (chr ' ' :: ·)).length + 1 < OS_MAXSTR →
      cache.foldl
        (fun message line =>
          if message.length + line.length + 1 < OS_MAXSTR then
            if message = [] then line else message ++ chr ' ' :: line
          else message) message = message ++ cache.flatMap (chr ' ' :: ·) := by
    intro message cache hmessage hfits
    induction cache generalizing message with
    | nil => exact (append_nil _).symm
    | cons record cache ih =>
      rw [flatMap_cons, ← append_assoc] at hfits ⊢
      have hroom : message.length + record.length + 1 < OS_MAXSTR := by
        rw [length_append, length_append, length_cons] at hfits
        omega
      rw [foldl_cons, if_pos hroom, if_neg hmessage]
      exact ih _ (append_ne_nil_of_left_ne_nil hmessage _) hfits
  cases cache with
  | nil => rfl
  | cons record cache =>
    have hflat : [chr ' '].intercalate (record :: cache) =
        record ++ cache.flatMap (chr ' ' :: ·) := by
      clear hfits hne
      induction cache generalizing record with
      | nil => simp
      | cons next cache ih =>
        rw [intercalate_cons_cons, ih, flatMap_cons, append_assoc]
        rfl
    rw [hflat] at hfits ⊢
    have hroom : ([] : Bytes).length + record.length + 1 < OS_MAXSTR := by
      rw [length_append] at hfits
      rw [length_nil]
      omega
    rw [auditMessage, modsecMessage, foldl_cons, if_pos hroom, if_pos rfl]
    exact hjoin record cache (hne record mem_cons_self) hfits

theorem AuditRecords.message_eq (event : AuditRecords) (hlen : event.records.length ≤ MAX_CACHE)
    (hfits : ([chr ' '].intercalate (event.records.map (·.map noNul))).length + 1 < OS_MAXSTR) :
    event.message = [chr ' '].intercalate (event.records.map (·.map noNul)) := by
  have htake : (event.records.map (·.map noNul)).take MAX_CACHE =
      event.records.map (·.map noNul) := by
    apply take_of_length_le
    rw [length_map]
    exact hlen
  rw [AuditRecords.message, htake]
  refine auditMessage_eq (fun record hrecord => ?_) hfits
  obtain ⟨line, hline, rfl⟩ := mem_map.mp hrecord
  exact fun h => ne_nil_of_isRecord (event.same line hline).1 (map_eq_nil_iff.mp h)

/-! ## A visit -/

/-- What the loop reads when it does not stop inside a line: records, a line that cannot be used, and
what is left. -/
structure AuditVisit (v : Visit) (n : ℕ) (fp : Tail) (st : Audit) (fp' : Tail) (st' : Audit)
    (lines : List Bytes) (dropped : Option Bytes) : Prop where
  records : ∀ line ∈ lines, isRecord line = true
  ends : ∀ line ∈ lines ++ dropped.toList, chr '\n' ∉ line
  unusable : ∀ line ∈ dropped, isRecord line = false
  unread : fp.unread = unlines (lines ++ dropped.toList) ++ fp'.unread
  read : fp'.read = fp.read ++ unlines (lines ++ dropped.toList)
  state : st' = lines.foldl (fun (st : Audit) line => st.feed v (line.map noNul)) st
  stops : dropped ≠ none ∨ chr '\n' ∉ fp'.unread ∨ v.max_lines ≠ 0 ∧ v.max_lines ≤ n + lines.length

/-- Another record in front. -/
theorem AuditVisit.cons {st' : Audit} {dropped : Option Bytes} {l r : Bytes}
    (hl : chr '\n' ∉ l) (hrecord : isRecord l = true) (hunread : fp.unread = l ++ chr '\n' :: r)
    {k : ℕ} (hk : v.max_lines = 0 ∨ k = n + 1)
    (h : AuditVisit v k ⟨fp.read ++ (l ++ [chr '\n']), r⟩ (st.feed v (l.map noNul)) fp' st' lines
      dropped) :
    AuditVisit v n fp st fp' st' (l :: lines) dropped where
  records := forall_mem_cons.mpr ⟨hrecord, h.records⟩
  ends := forall_mem_cons.mpr ⟨hl, h.ends⟩
  unusable := h.unusable
  unread := by
    have hr : r = _ := h.unread
    rw [hunread, hr, cons_append, unlines_cons, append_assoc, cons_append]
  read := by
    rw [h.read, cons_append, unlines_cons]
    simp only [append_assoc, cons_append, nil_append]
  state := h.state
  stops := by
    refine h.stops.imp_right (Or.imp_right fun hstop => ⟨hstop.1, ?_⟩)
    have hk := hk.resolve_left hstop.1
    rw [length_cons]
    omega

/-- **A visit** ends, and reads records up to a line that cannot be used. -/
theorem readAuditLoop_spec {fuel : ℕ} (hdrop : v.drop_it = false) (hfuel : fp.unread.length < fuel) :
    ∃ st' fp' skip, readAuditLoop v fuel n fp st fp = some (st', fp', skip) ∧
      (skip = false → ∃ lines dropped, AuditVisit v n fp st fp' st' lines dropped) := by
  induction fuel generalizing n fp st with
  | zero => cases hfuel
  | succ fuel ih =>
    have hstart : ∀ hstops, AuditVisit v n fp st fp st [] none := fun hstops => {
      records := fun _ h => absurd h not_mem_nil
      ends := fun _ h => absurd h not_mem_nil
      unusable := fun _ h => by cases h
      unread := rfl
      read := (append_nil _).symm
      state := rfl
      stops := hstops }
    rw [readAuditLoop]
    cases hconsume : logrConsumeLine v n with
    | none =>
      -- the budget is spent
      refine ⟨_, _, _, rfl, fun _ => ⟨[], none, hstart (.inr (.inr ?_))⟩⟩
      have hlim := limited_of_consume hconsume
      refine ⟨hlim.2, ?_⟩
      by_contra hlt
      obtain ⟨k, hk, -⟩ := exists_consume v (.inr (not_le.mp hlt))
      rw [length_nil, add_zero, hconsume] at hk
      cases hk
    | some k =>
      have hk : v.max_lines = 0 ∨ k = n + 1 := by
        by_cases hzero : v.max_lines = 0
        · exact .inl hzero
        · exact .inr (consume_limited hconsume ⟨hdrop, hzero⟩).2
      have hgot := Tail.got (show 0 < OS_MAXSTR - 1 by decide) fp
      rw [fgetsNoNul]
      generalize hline : fp.getLine (OS_MAXSTR - 1) = res at hgot ⊢
      obtain ⟨str, fp₁⟩ := res
      dsimp only at hgot ⊢
      cases hgot with
      | eof h =>
        rw [if_pos map_nil]
        refine ⟨_, _, _, rfl, fun _ => ⟨[], none, hstart (.inr (.inl ?_))⟩⟩
        rw [h]
        exact not_mem_nil
      | unfinished hl hlen hne h =>
        -- the line is read again when it is complete
        rw [if_neg (by simpa using hne), if_neg fun hmem => hl (newline_mem_map_noNul.mp hmem),
          if_neg (by rw [length_map]; exact ne_of_lt hlen)]
        refine ⟨_, _, _, rfl, fun _ => ⟨[], none, hstart (.inr (.inl ?_))⟩⟩
        rw [h]
        exact hl
      | line hl hlen h =>
        rename_i l r
        have hmem := @newline_mem_line l
        have hdropLast : ((l ++ [chr '\n']).map noNul).dropLast = l.map noNul := by
          rw [map_append, map_singleton, dropLast_concat]
        rw [if_neg (ne_nil_of_mem hmem), if_pos hmem, hdropLast]
        cases hid : auditId (l.map noNul) with
        | none =>
          refine ⟨_, _, _, rfl, fun _ => ⟨[], some l, ?_⟩⟩
          exact {
            records := fun _ h => absurd h not_mem_nil
            ends := forall_mem_singleton.mpr hl
            unusable := fun line hline => by
              obtain rfl := mem_some.mp hline
              rw [isRecord, lineId, hid]
              exact Bool.and_false _
            unread := by
              rw [h]
              simp
            read := by simp
            state := rfl
            stops := .inl (some_ne_none _) }
        | some id =>
          rw [h, length_append, length_cons] at hfuel
          obtain ⟨st', fp', skip, hloop, hvisit⟩ := @ih (st.record v id (l.map noNul)) k
            ⟨fp.read ++ (l ++ [chr '\n']), r⟩ (by dsimp only; omega)
          refine ⟨st', fp', skip, hloop, fun hskip => ?_⟩
          obtain ⟨lines, dropped, hvisit⟩ := hvisit hskip
          refine ⟨l :: lines, dropped, .cons hl ?_ h hk ?_⟩
          · rw [isRecord, lineId, hid, isSome_some, Bool.and_true]
            exact decide_eq_true hlen
          · rw [Audit.feed, hid]
            exact hvisit
      | full hl hlen h =>
        rename_i r
        have hne : str ≠ [] := ne_nil_of_length_pos (by rw [hlen]; decide)
        rw [if_neg (by simpa using hne), if_neg fun hmem => hl (newline_mem_map_noNul.mp hmem),
          if_pos (by rw [length_map]; exact hlen)]
        obtain ⟨d, k', fp', hdrain, hdrains⟩ := @drainLoop_spec v OS_MAXSTR k
          ⟨fp.read ++ str, r⟩ lt_buffer (r.length + 1) (Nat.lt_succ_self _)
        rw [hdrain]
        cases hdrains with
        | eof => exact ⟨_, _, _, rfl, by rintro ⟨⟩⟩
        | budget => exact ⟨_, _, _, rfl, by rintro ⟨⟩⟩
        | newline hm hr =>
          rename_i m r'
          have hr : r = m ++ chr '\n' :: r' := hr
          have hnot : chr '\n' ∉ str ++ m := not_mem_append hl hm
          refine ⟨_, _, _, rfl, fun _ => ⟨[], some (str ++ m), ?_⟩⟩
          exact {
            records := fun _ h => absurd h not_mem_nil
            ends := forall_mem_singleton.mpr hnot
            unusable := fun line hline => by
              obtain rfl := mem_some.mp hline
              have hlong : ¬(str ++ m).length < OS_MAXSTR - 1 := by
                rw [length_append, hlen]
                omega
              rw [isRecord, decide_eq_false hlong, Bool.false_and]
            unread := by
              rw [h, hr]
              simp
            read := by simp
            state := rfl
            stops := .inl (some_ne_none _) }

/-! ## Runs -/

theorem Told.of_isPrefix {lines' : List Bytes} (h : Told header prev lines')
    (hpre : lines <+: lines') : Told header prev lines := by
  induction lines generalizing header prev lines' with
  | nil => exact trivial
  | cons line lines ih =>
    obtain ⟨lines', rfl⟩ := hpre
    intro id hid
    obtain ⟨hlen, hnew, hrest⟩ := h id hid
    exact ⟨hlen, hnew, ih hrest (prefix_append _ _)⟩

theorem told_cons (hid : lineId line = some id) (hlen : id.length < MAX_HEADER)
    (hnew : ∀ p, prev = some p → p ≠ id → ¬id <+: header)
    (hrest : Told (overwrite id header) (some id) lines) : Told header prev (line :: lines) := by
  intro id' hid'
  obtain rfl := some.inj (hid.symm.trans hid')
  exact ⟨hlen, hnew, hrest⟩

/-- A visit reads a part of the records that are in front of the reader. -/
theorem AuditVisit.isPrefix {s : AuditFile} {st' : Audit} {dropped : Option Bytes}
    (h : AuditVisit v n s.fp st fp' st' lines dropped) : lines <+: s.pending := by
  have hframes : lines <+: frames (chr '\n') s.fp.unread := by
    rw [h.unread]
    refine List.IsPrefix.trans ?_ (frames_isPrefix (prefix_append _ _))
    rw [frames_unlines h.ends]
    exact prefix_append _ _
  obtain ⟨others, hothers⟩ := hframes
  rw [AuditFile.pending, ← hothers, takeWhile_append_of_pos h.records]
  exact prefix_append _ _

/-- What is written in a run. -/
def writtenAudit (es : List AuditEvent) : Bytes :=
  (es.map fun
    | .append piece => piece
    | .poll _ => []).flatten

/-- What a visit does to the file. -/
structure AuditReads (max_lines : ℕ) (s s' : AuditFile) (r : Reading) : Prop where
  sent : s'.sent = s.sent ++ r.messages
  read : s'.fp.read = s.fp.read ++ unlines r.lines
  bytes : s'.fp.bytes = s.fp.bytes
  stops : r.dropped ≠ none ∨ chr '\n' ∉ s'.fp.unread ∨ max_lines ≠ 0 ∧ max_lines ≤ r.records.length

/-- A visit to a file whose lines are not cut. -/
theorem readAudit_spec {s : AuditFile} (hskip : s.skip_to_nl = false) (max_lines : ℕ) :
    ∃ s', readAudit ⟨max_lines, false⟩ s = some s' ∧
      (s'.skip_to_nl = false → Told (List.replicate MAX_HEADER 0) none s.pending →
        ∃ r, AuditReads max_lines s s' r) := by
  obtain ⟨st', fp', skip, hloop, hvisit⟩ := @readAuditLoop_spec ⟨max_lines, false⟩
    { sent := s.sent } 0 s.fp (s.fp.unread.length + 1) rfl (Nat.lt_succ_self _)
  refine ⟨AuditFile.finish ⟨max_lines, false⟩ (st', fp', skip), ?_, fun hskip htold => ?_⟩
  · have hnot : ¬ s.skip_to_nl = true := by rw [hskip]; decide
    rw [readAudit, if_neg hnot, hloop]
    rfl
  · obtain ⟨lines, dropped, hvisit⟩ := hvisit hskip
    obtain ⟨events, hchain, hflat, hsent⟩ := @exists_reading ⟨max_lines, false⟩ lines rfl
      hvisit.records (htold.of_isPrefix hvisit.isPrefix) s.sent
    refine ⟨⟨events, hchain, dropped, hvisit.unusable⟩, ?_, ?_, ?_, ?_⟩
    · rw [← hvisit.state] at hsent
      exact hsent
    · rw [Reading.lines, Reading.records, hflat]
      exact hvisit.read
    · show fp'.bytes = s.fp.bytes
      rw [Tail.bytes, Tail.bytes, hvisit.read, hvisit.unread, append_assoc]
    · have hstops := hvisit.stops
      rw [zero_add] at hstops
      rw [Reading.records, hflat]
      exact hstops

/-- **Audit logs**: along every run that writes a log in any pieces, with visits in between whose ids
the buffer can tell, every line is read by one visit, and a visit sends a message for each event of the
lines that it reads, in their order: the records that follow each other with one id. A visit goes on to
a line without an id, to the last complete line, or until its budget is spent. The message of an event
is its records, as far as they fit. -/
theorem readAudit_law {es : List AuditEvent} {s : AuditFile} (h : Run AuditFile.GoodStep {} es s) :
    (∃ visits : List Reading, s.fp.read = unlines (visits.flatMap Reading.lines) ∧
      s.sent = visits.flatMap Reading.messages ∧ s.fp.bytes = writtenAudit es) ∧
    (∀ max_lines, ∃ s', readAudit ⟨max_lines, false⟩ s = some s' ∧
      (s.GoodStep (.poll max_lines) s' → ∃ r, AuditReads max_lines s s' r)) ∧
    ∀ event : AuditRecords, event.records.length ≤ MAX_CACHE →
      ([chr ' '].intercalate (event.records.map (·.map noNul))).length + 1 < OS_MAXSTR →
        event.message = [chr ' '].intercalate (event.records.map (·.map noNul)) := by
  have hinv : ∀ (pre : List AuditEvent) (s : AuditFile) (e : AuditEvent) (s' : AuditFile),
      (s.skip_to_nl = false ∧ ∃ visits : List Reading,
        s.fp.read = unlines (visits.flatMap Reading.lines) ∧
        s.sent = visits.flatMap Reading.messages ∧ s.fp.bytes = writtenAudit pre) →
      s.GoodStep e s' →
      (s'.skip_to_nl = false ∧ ∃ visits : List Reading,
        s'.fp.read = unlines (visits.flatMap Reading.lines) ∧
        s'.sent = visits.flatMap Reading.messages ∧
        s'.fp.bytes = writtenAudit (pre ++ [e])) := by
    rintro pre s e s' ⟨hskip, visits, hread, hsent, hbytes⟩ ⟨hstep, hskip', htold⟩
    refine ⟨hskip', ?_⟩
    rw [writtenAudit, map_append, flatten_append]
    cases e with
    | append piece =>
      obtain rfl : s' = _ := hstep
      refine ⟨visits, hread, hsent, ?_⟩
      show (s.fp.append piece).bytes = _
      rw [Tail.bytes_append, hbytes]
      exact congrArg _ (append_nil _).symm
    | poll max_lines =>
      obtain ⟨s₁, hs₁, hreads⟩ := readAudit_spec hskip max_lines
      obtain rfl := some.inj (hs₁.symm.trans hstep)
      obtain ⟨r, hr⟩ := hreads hskip' (htold max_lines rfl)
      refine ⟨visits ++ [r], ?_, ?_, ?_⟩
      · rw [hr.read, hread, flatMap_append, flatMap_singleton, unlines_append]
      · rw [hr.sent, hsent, flatMap_append, flatMap_singleton]
      · rw [hr.bytes, hbytes]
        exact (append_nil _).symm
  obtain ⟨hskip, hvisits⟩ := h.history hinv ⟨rfl, [], rfl, rfl, rfl⟩
  refine ⟨hvisits, fun max_lines => ?_, AuditRecords.message_eq⟩
  obtain ⟨s', hread, hreads⟩ := readAudit_spec hskip max_lines
  exact ⟨s', hread, fun hgood => hreads hgood.2.1 (hgood.2.2 max_lines rfl)⟩

/-- Two events with a line between them that has no id; the last line is written in two pieces. -/
theorem readAudit_law_pieces : ∃ (s : AuditFile) (visits : List Reading),
    s.sent = [lit "type=A msg=audit(12): a type=B msg=audit(12): b", lit "type=A msg=audit(7): c"] ∧
      s.sent = visits.flatMap Reading.messages ∧ s.fp.read = unlines (visits.flatMap Reading.lines) := by
  have hfirst : Told (List.replicate MAX_HEADER 0) none
      [lit "type=A msg=audit(12): a", lit "type=B msg=audit(12): b"] := by
    refine @told_cons (lit "12") _ _ _ _ (by decide) (by decide) nofun ?_
    refine @told_cons (lit "12") _ _ _ _ (by decide) (by decide) ?_ trivial
    exact fun p hp hne => absurd (some.inj hp).symm hne
  have hsecond : Told (List.replicate MAX_HEADER 0) none [lit "type=A msg=audit(7): c"] :=
    @told_cons (lit "7") _ _ _ _ (by decide) (by decide) nofun trivial
  have hrun : ∃ s, Run AuditFile.GoodStep {}
      [.append (lit "type=A msg=audit(12): a\ntype=B msg=audit(12): b\nx\ntype=A msg=a"), .poll 0,
        .append (lit "udit(7): c\n"), .poll 0] s ∧
      s.sent =
        [lit "type=A msg=audit(12): a type=B msg=audit(12): b", lit "type=A msg=audit(7): c"] := by
    refine ⟨_, .cons ⟨rfl, rfl, nofun⟩ (.cons ⟨rfl, rfl, fun _ _ => ?_⟩
      (.cons ⟨rfl, rfl, nofun⟩ (.cons ⟨rfl, rfl, fun _ _ => ?_⟩ (.nil _)))), rfl⟩
    · exact hfirst
    · exact hsecond
  obtain ⟨s, hrun, hsent⟩ := hrun
  obtain ⟨⟨visits, hread, hsends, -⟩, -⟩ := readAudit_law hrun
  exact ⟨s, visits, hsent, hsends, hread⟩

/-- An event that is read by two visits is sent in two messages. -/
theorem not_readAudit : ¬ ∀ (events : List AuditRecords) (es : List AuditEvent) (s : AuditFile),
    (events.map AuditRecords.id).Nodup → (∀ event ∈ events, event.records.length ≤ MAX_CACHE) →
      Run AuditFile.Step {} es s → writtenAudit es = unlines (events.flatMap AuditRecords.records) →
        s.fp.unread = [] → s.sent = events.map AuditRecords.message := by
  intro h
  have hsame : ∀ line ∈ [lit "type=A msg=audit(1): a", lit "type=B msg=audit(1): b"],
      isRecord line = true ∧ lineId line = some (lit "1") := by
    intro line hline
    rcases mem_pair.mp hline with rfl | rfl
    · exact ⟨by decide, by decide⟩
    · exact ⟨by decide, by decide⟩
  have hrun : ∃ s, Run AuditFile.Step {} [.append (lit "type=A msg=audit(1): a\n"), .poll 0,
      .append (lit "type=B msg=audit(1): b\n"), .poll 0] s ∧ s.fp.unread = [] ∧
        s.sent = [lit "type=A msg=audit(1): a", lit "type=B msg=audit(1): b"] :=
    ⟨_, .cons rfl (.cons rfl (.cons rfl (.cons rfl (.nil _)))), rfl, rfl⟩
  obtain ⟨s, hrun, hunread, hsent⟩ := hrun
  have hone := h [⟨lit "1", _, cons_ne_nil _ _, hsame⟩] _ s (by simp)
    (forall_mem_singleton.mpr (show 2 ≤ MAX_CACHE by decide)) hrun
    (show _ = unlines [lit "type=A msg=audit(1): a", lit "type=B msg=audit(1): b"] by decide) hunread
  rw [hsent] at hone
  exact absurd (congrArg List.length hone) (show ¬2 = 1 by decide)

/-- An id that the last one begins with is not told from it. -/
example : (readAudit ⟨0, false⟩
    { fp := ⟨[], unlines [lit "type=A msg=audit(12): a", lit "type=A msg=audit(1): b"]⟩ }).map
      AuditFile.sent = some [lit "type=A msg=audit(12): a type=A msg=audit(1): b"] := by
  decide

end Logcollector
