import OssecHids.Logcollector.ReadModsecAudit

/-!
# Transactions of an audit log

A log is a concatenation of transactions. `readModsecAudit` recognises them by lines that are also
in reach of whoever writes the bodies.

- `Transaction.Fits`: the transactions that the cache has room for;
- `feedAll_log`: what the lines of a log do, up to any one of them;
- `readModsecAudit_law`: the messages are the transactions exactly when all of them fit; along every
  run that does not stop in a line that is too long, they are those in front of the position.
-/

open CString Transition Framing List

namespace Logcollector

/-- The line `--id-X--`. -/
def marker (id : Bytes) (sect : UInt8) : Bytes := lit "--" ++ (id ++ chr '-' :: sect :: lit "--")

/-- A line that begins with a line `--id-X--`: nothing or a carriage return follows. -/
def IsMarker (id : Bytes) (sect : UInt8) (line : Bytes) : Prop :=
  ∃ p, line = marker id sect ++ p ∧ (p = [] ∨ p.head? = some (chr '\r'))

/-- The lines from `--id-A--` to `--id-Z--`. -/
structure Transaction where
  id : Bytes
  body : List Bytes

namespace Transaction

def opening (t : Transaction) : Bytes := marker t.id (chr 'A')

def trailer (t : Transaction) : Bytes := marker t.id (chr 'Z')

def lines (t : Transaction) : List Bytes := t.opening :: (t.body ++ [t.trailer])

/-- The trailer is not in the body. -/
structure Formed (t : Transaction) : Prop where
  id : chr '\n' ∉ t.id
  body : ∀ l ∈ t.body, chr '\n' ∉ l
  trailer : ∀ l ∈ t.body, ¬ IsMarker t.id (chr 'Z') l

/-- The lines of a body that fit in the buffer. -/
def kept (body : List Bytes) : List Bytes :=
  (body.filter fun line => line.length < MODSEC_LINE).map (List.map noNul)

/-- The message of a transaction: its lines, but for those of the body that do not fit in the
buffer. -/
def message (t : Transaction) : List Bytes :=
  t.opening.map noNul :: (kept t.body ++ [t.trailer.map noNul])

/-- The id is made of 1 to 63 letters and digits, and the cache has room for the lines. -/
structure Fits (t : Transaction) : Prop where
  id_ne : t.id ≠ []
  alnum : ∀ b ∈ t.id, isAlnum b = true
  short : t.id.length < MODSEC_ID_MAX
  room : (kept t.body).length + 2 ≤ MODSEC_MAX_CACHE

end Transaction

/-- The text of a log. -/
def logText (ts : List Transaction) : Bytes := unlines (ts.flatMap Transaction.lines)

/-- The bytes that the writer has added. -/
def writtenModsec (es : List ModsecEvent) : Bytes :=
  (es.map fun
    | .append piece => piece
    | .poll _ => []).flatten

variable {v : Visit} {id bid line l p : Bytes} {sect b c : UInt8} {t : Transaction}
  {ts : List Transaction}

/-! ## Markers -/

theorem takeWhile_isAlnum {r : Bytes} (hid : ∀ b ∈ id, isAlnum b = true)
    (hr : isAlnum (r.headD 0) = false) : (id ++ r).takeWhile isAlnum = id := by
  rw [takeWhile_append_of_pos hid]
  cases r with
  | nil => exact append_nil _
  | cons b r => rw [takeWhile_cons_of_neg (by rw [show isAlnum b = false from hr]; decide),
      append_nil]

theorem parseModsecBoundary_marker (hne : id ≠ []) (hid : ∀ b ∈ id, isAlnum b = true)
    (hlen : id.length < MODSEC_ID_MAX) (hsect : sect ≠ 0) :
    parseModsecBoundary (marker id sect) = some (id, sect) := by
  have hword : (id ++ chr '-' :: sect :: lit "--").takeWhile isAlnum = id :=
    takeWhile_isAlnum hid rfl
  have htake : id.take (MODSEC_ID_MAX - 1) = id := take_of_length_le (by omega)
  have hdrop : (marker id sect).drop 2 = id ++ chr '-' :: sect :: lit "--" := rfl
  have hstart : ¬ ((marker id sect).headD 0 ≠ chr '-' ∨ (marker id sect).tail.headD 0 ≠ chr '-') :=
    fun h => h.elim (fun h => h rfl) fun h => h rfl
  rw [parseModsecBoundary, if_neg hstart, hdrop]
  dsimp only
  rw [hword, htake, if_neg hne, drop_left,
    headD_cons, if_neg (show ¬ isAlnum (chr '-') = true from by decide)]
  exact if_pos ⟨rfl, hsect, rfl, rfl, .inl rfl⟩

/-- What is recognised is a marker. -/
theorem marker_of_parse (h : parseModsecBoundary line = some (id, sect)) :
    (id ≠ [] ∧ (∀ b ∈ id, isAlnum b = true) ∧ id.length < MODSEC_ID_MAX) ∧
      ∃ p, line = marker id sect ++ p ∧ (p.headD 0 = 0 ∨ p.headD 0 = chr '\r') := by
  by_cases hstart : line.headD 0 ≠ chr '-' ∨ line.tail.headD 0 ≠ chr '-'
  case pos =>
    rw [parseModsecBoundary, if_pos hstart] at h
    cases h
  case neg =>
    rw [not_or, not_not, not_not] at hstart
    obtain ⟨b, line, rfl⟩ : ∃ b line', line = b :: line' := by
      cases line with
      | nil => exact absurd hstart.1 (by decide)
      | cons b line => exact ⟨b, line, rfl⟩
    obtain ⟨c, line, rfl⟩ : ∃ c line', line = c :: line' := by
      cases line with
      | nil => exact absurd hstart.2 (show ¬ (0 : UInt8) = chr '-' from by decide)
      | cons c line => exact ⟨c, line, rfl⟩
    obtain ⟨rfl, rfl⟩ : b = chr '-' ∧ c = chr '-' := hstart
    rw [parseModsecBoundary, if_neg fun h => h.elim (fun h => h rfl) fun h => h rfl,
      show (chr '-' :: chr '-' :: line).drop 2 = line from rfl] at h
    dsimp only at h
    -- the word, and what is behind it
    generalize hword : (line.takeWhile isAlnum).take (MODSEC_ID_MAX - 1) = word at h
    have hbegins : word <+: line.takeWhile isAlnum := hword ▸ List.take_prefix ..
    have hsplit : line = word ++ line.drop word.length :=
      prefix_iff_eq_append.mp (hbegins.trans (List.takeWhile_prefix _)) |>.symm
    split_ifs at h with hne hmore
    generalize line.drop word.length = r at h hsplit
    split at h
    case h_1 c₀ sect' c₂ c₃ p =>
      split_ifs at h with hform
      cases h
      obtain ⟨rfl, -, rfl, rfl, hp⟩ := hform
      refine ⟨⟨hne, fun b hb => mem_takeWhile_imp (hbegins.subset hb), ?_⟩, p, ?_, hp⟩
      · rw [← hword, length_take]
        exact lt_of_le_of_lt (min_le_left _ _) (by decide)
      · rw [hsplit, marker]
        simp only [append_assoc, cons_append]
        rfl
    case h_2 => cases h

/-! ## Embedded NULs -/

theorem eq_of_noNul (h : noNul b = c) (hc : c ≠ chr ' ') : b = c := by
  rw [noNul] at h
  split_ifs at h with hb
  · exact absurd h.symm hc
  · exact h

theorem eq_of_map_noNul {m : Bytes} (h : l.map noNul = m) (hm : chr ' ' ∉ m) : l = m := by
  induction l generalizing m with
  | nil => exact h
  | cons b l ih =>
    rw [map_cons] at h
    obtain rfl := h
    rw [mem_cons, not_or] at hm
    have hb := eq_of_noNul rfl (Ne.symm hm.1)
    have hl := ih rfl hm.2
    rw [← hb, ← hl]

theorem map_noNul (h : 0 ∉ l) : l.map noNul = l := by
  have hsame : ∀ b ∈ l, noNul b = id b := by
    intro b hb
    refine if_neg fun hz : b = 0 => h ?_
    rwa [← hz]
  rw [map_congr_left hsame, List.map_id]

theorem isAlnum_ne (hid : ∀ b ∈ id, isAlnum b = true) (hc : isAlnum c = false) : c ∉ id := by
  intro hmem
  rw [hid c hmem] at hc
  cases hc

/-- A marker with an id of letters and digits has no other letters. -/
theorem notMem_marker (hid : ∀ b ∈ id, isAlnum b = true) (hc : isAlnum c = false)
    (hdash : c ≠ chr '-') (hsect : c ≠ sect) : c ∉ marker id sect := by
  intro hmem
  rw [marker] at hmem
  simp only [mem_append, mem_cons] at hmem
  have hdashes : c ∉ lit "--" := by
    intro hmem
    rcases mem_cons.mp hmem with h | hmem
    · exact hdash h
    · exact hdash (mem_singleton.mp hmem)
  rcases hmem with h | h | h | h | h
  · exact hdashes h
  · exact isAlnum_ne hid hc h
  · exact hdash h
  · exact hsect h
  · exact hdashes h

theorem isMarker_of_parse (hsect : sect ≠ chr ' ')
    (h : parseModsecBoundary (l.map noNul) = some (id, sect)) : IsMarker id sect l := by
  obtain ⟨⟨-, hid, -⟩, p, hline, hp⟩ := marker_of_parse h
  obtain ⟨m, q, rfl, hm, hq⟩ := map_eq_append_iff.mp hline
  have hmarker : m = marker id sect :=
    eq_of_map_noNul hm (notMem_marker hid (by decide) (by decide) (Ne.symm hsect))
  refine ⟨q, by rw [hmarker], ?_⟩
  cases q with
  | nil => exact .inl rfl
  | cons b q =>
    rw [← hq, map_cons, headD_cons] at hp
    rcases hp with hzero | hcr
    · exact absurd (hzero ▸ mem_cons_self) (@zero_notMem_map_noNul (b :: q))
    · exact .inr (congrArg some (eq_of_noNul hcr (by decide)))

/-! ## A transaction -/

namespace Transaction

theorem newline_notMem_lines (h : t.Formed) : ∀ l ∈ t.lines, chr '\n' ∉ l := by
  have hmarker : ∀ sect, chr '\n' ≠ sect → chr '\n' ∉ marker t.id sect := by
    intro sect hsect hmem
    rw [marker] at hmem
    simp only [mem_append, mem_cons] at hmem
    rcases hmem with hmem | hmem | hmem | hmem | hmem
    · exact absurd hmem (by decide)
    · exact h.id hmem
    · cases hmem
    · exact hsect hmem
    · exact absurd hmem (by decide)
  intro l hl
  rcases mem_cons.mp hl with rfl | hl
  · exact hmarker _ (by decide)
  · rcases mem_append.mp hl with hl | hl
    · exact h.body l hl
    · obtain rfl := mem_singleton.mp hl
      exact hmarker _ (by decide)

theorem kept_cons (line : Bytes) (body : List Bytes) :
    kept (line :: body) =
      if line.length < MODSEC_LINE then line.map noNul :: kept body else kept body := by
  rw [kept, filter_cons]
  simp only [decide_eq_true_eq]
  split_ifs
  · rfl
  · rfl

theorem length_marker (id : Bytes) (sect : UInt8) : (marker id sect).length = id.length + 6 := by
  rw [marker]
  simp only [length_append, length_cons]
  show 2 + (id.length + (2 + 1 + 1)) = _
  omega

theorem Fits.marker (h : t.Fits) (hsect : sect ≠ 0) :
    (marker t.id sect).map noNul = marker t.id sect ∧
      (Logcollector.marker t.id sect).length < MODSEC_LINE ∧
      parseModsecBoundary (Logcollector.marker t.id sect) = some (t.id, sect) := by
  refine ⟨map_noNul (notMem_marker h.alnum rfl (by decide) (Ne.symm hsect)), ?_,
    parseModsecBoundary_marker h.id_ne h.alnum h.short hsect⟩
  rw [length_marker]
  have hshort := h.short
  have hroom : MODSEC_ID_MAX + 6 < MODSEC_LINE := by decide
  omega

end Transaction

/-- The lines that are collected of a transaction. -/
def Modsec.ofOpen (id : Bytes) (start : ℕ) (sent : List (List Bytes)) (cache : List Bytes) :
    Modsec ℕ :=
  { cache, txn := id, txn_start := some start, sent }

variable {i start : ℕ} {sent : List (List Bytes)} {cache body : List Bytes}

theorem addLine_ofOpen (hroom : cache.length < MODSEC_MAX_CACHE) :
    (Modsec.ofOpen id start sent cache).addLine l =
      Modsec.ofOpen id start sent (cache ++ [l]) :=
  if_neg (not_le.mpr hroom)

theorem feed_opening (v : Visit) (i : ℕ) (h : t.Fits) :
    feed v i { sent } t.opening = Modsec.ofOpen t.id i sent [t.opening] := by
  obtain ⟨hsame, hlen, hparse⟩ := h.marker (show chr 'A' ≠ 0 by decide)
  rw [Transaction.opening, feed, if_neg (not_le.mpr hlen), hsame,
    if_neg fun h => absurd h.1 (cons_ne_nil _ _), Modsec.processLine, hparse]
  exact if_pos ⟨rfl, rfl⟩

/-- A line of the body joins it, whatever it looks like. -/
theorem feed_body (v : Visit) (i : ℕ) (hid : id ≠ []) (hcache : cache ≠ [])
    (hroom : cache.length < MODSEC_MAX_CACHE) (hline : ¬ IsMarker id (chr 'Z') l)
    (hlen : l.length < MODSEC_LINE) :
    feed v i (Modsec.ofOpen id start sent cache) l =
      Modsec.ofOpen id start sent (cache ++ [l.map noNul]) := by
  have hnot : ∀ p : Prop, ¬ (p ∧ (Modsec.ofOpen id start sent cache).cache = []) :=
    fun p h => hcache h.2
  rw [feed, if_neg (not_le.mpr hlen), if_neg (hnot _), Modsec.processLine.eq_def]
  cases hparse : parseModsecBoundary (l.map noNul) with
  | none =>
    rw [if_pos (show (Modsec.ofOpen id start sent cache).txn ≠ [] from hid)]
    exact addLine_ofOpen hroom
  | some boundary =>
    obtain ⟨bid, sect⟩ := boundary
    dsimp only
    rw [if_neg (hnot _), addLine_ofOpen hroom]
    split_ifs with htxn hend hopen
    · -- the own trailer is not in the body
      obtain rfl : id = bid := htxn.2
      rw [hend.1] at hparse
      exact absurd (isMarker_of_parse (by decide) hparse) hline
    · rfl
    · rfl
    · exact absurd hcache hopen

/-- The body of a transaction joins it, if there is room. -/
theorem feedAll_body (v : Visit) (i : ℕ) (hid : id ≠ []) (hcache : cache ≠ [])
    (hroom : cache.length + (Transaction.kept body).length ≤ MODSEC_MAX_CACHE)
    (hbody : ∀ l ∈ body, ¬ IsMarker id (chr 'Z') l) :
    feedAll v i (Modsec.ofOpen id start sent cache) body =
      Modsec.ofOpen id start sent (cache ++ Transaction.kept body) := by
  induction body generalizing i cache with
  | nil => rw [feedAll, Transaction.kept, filter_nil, map_nil, append_nil]
  | cons l body ih =>
    have hrest : ∀ l ∈ body, ¬ IsMarker id (chr 'Z') l :=
      fun l' hl' => hbody l' (mem_cons_of_mem _ hl')
    rw [Transaction.kept_cons] at hroom ⊢
    rw [feedAll]
    by_cases hlen : l.length < MODSEC_LINE
    case pos =>
      rw [if_pos hlen] at hroom ⊢
      rw [length_cons] at hroom
      rw [feed_body v i hid hcache (by omega) (hbody l mem_cons_self) hlen,
        ih (i + 1) (append_ne_nil_of_left_ne_nil hcache _)
          (by rw [length_append, length_singleton]; omega) hrest, append_assoc]
      rfl
    case neg =>
      rw [if_neg hlen] at hroom ⊢
      rw [feed, if_pos (not_lt.mp hlen), ih (i + 1) hcache hroom hrest]

/-- A transaction ends. -/
theorem feed_trailer (hdrop : v.drop_it = false) (i : ℕ) (h : t.Fits)
    (hroom : (t.opening :: cache).length < MODSEC_MAX_CACHE) :
    feed v i (Modsec.ofOpen t.id start sent (t.opening :: cache)) t.trailer =
      { sent := sent ++ [t.opening :: (cache ++ [t.trailer])] } := by
  obtain ⟨hsame, hlen, hparse⟩ := h.marker (show chr 'Z' ≠ 0 by decide)
  have hfirst : (t.opening).length + 1 < OS_MAXSTR := by
    have hshort := h.short
    have hroom : MODSEC_ID_MAX + 7 < OS_MAXSTR := by decide
    rw [Transaction.opening, Transaction.length_marker]
    omega
  have hsend : ∀ st : Modsec ℕ, st.cache = t.opening :: (cache ++ [t.trailer]) → st.sent = sent →
      (st.sendMsg v).sent = sent ++ [t.opening :: (cache ++ [t.trailer])] := by
    intro st hcache hsent
    rw [Modsec.sendMsg, hcache, hdrop,
      if_pos ⟨rfl, modsecMessage_ne_nil (cons_ne_nil _ _) hfirst⟩, hsent]
  rw [Transaction.trailer, feed, if_neg (not_le.mpr hlen), hsame,
    if_neg fun h => absurd h.1 (cons_ne_nil _ _), Modsec.processLine, hparse]
  dsimp only
  rw [if_neg fun h => absurd h.2 (cons_ne_nil _ _), if_pos ⟨h.id_ne, rfl⟩,
    addLine_ofOpen hroom, if_pos ⟨rfl, cons_ne_nil _ _, h.id_ne⟩, hsend _ rfl rfl]
  rfl

theorem feedAll_append (v : Visit) (i : ℕ) (st : Modsec ℕ) (lines lines' : List Bytes) :
    feedAll v i st (lines ++ lines') =
      feedAll v (i + lines.length) (feedAll v i st lines) lines' := by
  induction lines generalizing i st with
  | nil => rfl
  | cons l lines ih =>
    rw [cons_append, feedAll, ih, feedAll, length_cons, add_right_comm, add_assoc]

theorem feedAll_opened (v : Visit) (i : ℕ) (hfits : t.Fits) (hformed : t.Formed)
    (hbody : body <+: t.body) :
    feedAll v i { sent } (t.opening :: body) =
      Modsec.ofOpen t.id i sent (t.opening :: Transaction.kept body) := by
  have hle : (Transaction.kept body).length ≤ (Transaction.kept t.body).length := by
    rw [Transaction.kept, Transaction.kept, length_map, length_map]
    exact ((hbody.sublist).filter _).length_le
  have hroom := hfits.room
  rw [feedAll, feed_opening v i hfits, feedAll_body v (i + 1) hfits.id_ne (cons_ne_nil _ _)
    (by rw [length_singleton]; omega) fun l hl => hformed.trailer l (hbody.subset hl)]
  rfl

theorem feedAll_lines (hdrop : v.drop_it = false) (i : ℕ) (hfits : t.Fits) (hformed : t.Formed) :
    feedAll v i { sent } t.lines = { sent := sent ++ [t.message] } := by
  have hmessage : t.message = t.opening :: (Transaction.kept t.body ++ [t.trailer]) := by
    rw [Transaction.message, Transaction.opening, Transaction.trailer,
      (hfits.marker (show chr 'A' ≠ 0 by decide)).1, (hfits.marker (show chr 'Z' ≠ 0 by decide)).1]
  have hroom := hfits.room
  rw [Transaction.lines, ← cons_append, feedAll_append, feedAll_opened v i hfits hformed prefix_rfl,
    feedAll, feedAll, feed_trailer hdrop _ hfits (by rw [length_cons]; omega), hmessage]

/-! ## A log -/

/-- What the first lines of a log do: the transactions that are complete are sent, and of the next
one the start is known. -/
structure Fed (st : Modsec ℕ) (ts : List Transaction) (i : ℕ) (sent : List (List Bytes))
    (lines : List Bytes) (m : ℕ) : Prop where
  le : m ≤ ts.length
  whole : (ts.take m).flatMap Transaction.lines <+: lines
  most : ∀ j ≤ ts.length, (ts.take j).flatMap Transaction.lines <+: lines → j ≤ m
  sent : st.sent = sent ++ (ts.take m).map Transaction.message
  start : st.cache = [] ∧ lines = (ts.take m).flatMap Transaction.lines ∨
    st.cache ≠ [] ∧ st.txn_start = some (i + ((ts.take m).flatMap Transaction.lines).length)

/-- **The lines of a log**, up to any one of them. -/
theorem feedAll_log (hdrop : v.drop_it = false) (i : ℕ) (sent : List (List Bytes))
    {lines : List Bytes} (hfits : ∀ t ∈ ts, t.Fits) (hformed : ∀ t ∈ ts, t.Formed)
    (hlines : lines <+: ts.flatMap Transaction.lines) :
    ∃ m, Fed (feedAll v i { sent } lines) ts i sent lines m := by
  induction ts generalizing i sent lines with
  | nil =>
    obtain rfl := prefix_nil.mp hlines
    exact ⟨0, le_rfl, prefix_rfl, fun j hj _ => hj, (append_nil _).symm, .inl ⟨rfl, rfl⟩⟩
  | cons t ts ih =>
    rw [flatMap_cons] at hlines
    have hfits' : ∀ t' ∈ ts, t'.Fits := fun t' ht' => hfits t' (mem_cons_of_mem _ ht')
    have hformed' : ∀ t' ∈ ts, t'.Formed := fun t' ht' => hformed t' (mem_cons_of_mem _ ht')
    by_cases hwhole : t.lines <+: lines
    case pos =>
      -- the first transaction is sent, and the others by induction
      obtain ⟨more, rfl⟩ := hwhole
      obtain ⟨m, hm⟩ := ih (i + t.lines.length) (sent ++ [t.message]) hfits' hformed'
        ((prefix_append_right_inj _).mp hlines)
      rw [feedAll_append, feedAll_lines hdrop i (hfits t mem_cons_self) (hformed t mem_cons_self)]
      refine ⟨m + 1, Nat.succ_le_succ hm.le, ?_, ?_, ?_, ?_⟩
      · rw [take_succ_cons, flatMap_cons]
        exact (prefix_append_right_inj _).mpr hm.whole
      · intro j hj hbegins
        cases j with
        | zero => exact Nat.zero_le _
        | succ j =>
          rw [take_succ_cons, flatMap_cons] at hbegins
          exact Nat.succ_le_succ (hm.most j (Nat.le_of_succ_le_succ hj)
            ((prefix_append_right_inj _).mp hbegins))
      · rw [hm.sent, take_succ_cons, map_cons, append_assoc]
        rfl
      · rw [take_succ_cons, flatMap_cons, length_append, ← add_assoc]
        exact hm.start.imp_left fun h => ⟨h.1, congrArg _ h.2⟩
    case neg =>
      -- the first transaction is not complete
      have hmost : ∀ j ≤ (t :: ts).length,
          ((t :: ts).take j).flatMap Transaction.lines <+: lines → j ≤ 0 := by
        intro j _ hbegins
        cases j with
        | zero => exact le_rfl
        | succ j =>
          rw [take_succ_cons, flatMap_cons] at hbegins
          exact absurd ((prefix_append _ _).trans hbegins) hwhole
      have hpart : lines <+: t.lines :=
        (List.prefix_or_prefix_of_prefix hlines (prefix_append _ _)).resolve_right hwhole
      cases lines with
      | nil =>
        exact ⟨0, Nat.zero_le _, prefix_rfl, hmost, (append_nil _).symm, .inl ⟨rfl, rfl⟩⟩
      | cons l body =>
        rw [Transaction.lines, cons_prefix_cons] at hpart
        obtain ⟨rfl, hbody⟩ := hpart
        have hbody : body <+: t.body := by
          refine (prefix_concat_iff.mp hbody).resolve_left fun h => hwhole ?_
          show t.opening :: (t.body ++ [t.trailer]) <+: t.opening :: body
          exact h ▸ prefix_rfl
        rw [feedAll_opened v i (hfits t mem_cons_self) (hformed t mem_cons_self) hbody]
        exact ⟨0, Nat.zero_le _, List.nil_prefix, hmost, (append_nil _).symm,
          .inr ⟨cons_ne_nil _ _, rfl⟩⟩

/-! ## What is sent of any log -/

/-- What is sent begins and ends with the markers of an id, and is not longer than the cache. -/
def Sound (cache : List Bytes) : Prop :=
  cache.length ≤ MODSEC_MAX_CACHE ∧ ∃ id first more last, cache = first :: (more ++ [last]) ∧
    parseModsecBoundary first = some (id, chr 'A') ∧ parseModsecBoundary last = some (id, chr 'Z')

structure Collects (st : Modsec ℕ) : Prop where
  sound : ∀ cache ∈ st.sent, Sound cache
  closed : st.cache = [] → st.txn = []
  first : st.cache ≠ [] → ∃ first more, st.cache = first :: more ∧
    parseModsecBoundary first = some (st.txn, chr 'A')
  room : st.cache.length ≤ MODSEC_MAX_CACHE

namespace Collects

variable {st : Modsec ℕ}

theorem clear (h : Collects st) :
    Collects { st with cache := [], txn := [], txn_start := none } where
  sound := h.sound
  closed _ := rfl
  first hne := absurd rfl hne
  room := Nat.zero_le _

theorem addLine (h : Collects st) (hne : st.cache ≠ []) (l : Bytes) :
    Collects (st.addLine l) := by
  rw [Modsec.addLine]
  split_ifs with hfull
  · exact h.clear
  · obtain ⟨first, more, hcache, hparse⟩ := h.first hne
    exact {
      sound := h.sound
      closed := fun hnil => absurd hnil (append_ne_nil_of_left_ne_nil hne _)
      first := fun _ => ⟨first, more ++ [l], by rw [hcache]; rfl, hparse⟩
      room := by
        rw [length_append, length_singleton]
        exact not_le.mp hfull }

/-- A transaction is sent at its trailer. -/
theorem send (h : Collects st) (hne : st.cache ≠ []) {l : Bytes}
    (hline : parseModsecBoundary l = some (st.txn, chr 'Z')) (hopen : (st.addLine l).cache ≠ []) :
    Collects { (st.addLine l).sendMsg v with cache := [], txn := [], txn_start := none } := by
  refine (Collects.clear ?_ : Collects _)
  have hadd := h.addLine hne l
  rw [Modsec.sendMsg]
  split_ifs
  · obtain ⟨first, more, hcache, hparse⟩ := h.first hne
    refine { hadd with sound := fun cache hmem => ?_ }
    rcases mem_append.mp hmem with hmem | hmem
    · exact hadd.sound cache hmem
    · obtain rfl := mem_singleton.mp hmem
      refine ⟨hadd.room, st.txn, first, more, l, ?_, hparse, hline⟩
      rw [Modsec.addLine] at hopen ⊢
      split_ifs at hopen ⊢ with hfull
      · exact absurd rfl hopen
      · rw [hcache]
        rfl
  · exact hadd

theorem processLine (h : Collects st) (i : ℕ) (l : Bytes) : Collects (st.processLine v i l) := by
  have hopen : st.txn ≠ [] → st.cache ≠ [] := fun htxn hnil => htxn (h.closed hnil)
  rw [Modsec.processLine.eq_def]
  cases hparse : parseModsecBoundary l with
  | none =>
    dsimp only
    split_ifs with htxn
    · exact h.addLine (hopen htxn) l
    · exact h
  | some boundary =>
    obtain ⟨bid, sect⟩ := boundary
    dsimp only
    split_ifs with hstart htxn hend hcache
    · -- a transaction begins
      obtain ⟨rfl, -⟩ := hstart
      exact {
        sound := h.sound
        closed := fun hnil => absurd hnil (cons_ne_nil _ _)
        first := fun _ => ⟨l, [], rfl, hparse⟩
        room := show 1 ≤ MODSEC_MAX_CACHE by decide }
    · obtain ⟨htxn, rfl⟩ := htxn
      obtain ⟨rfl, hne, -⟩ := hend
      exact h.send (hopen htxn) hparse hne
    · exact h.addLine (hopen htxn.1) l
    · exact h.addLine hcache l
    · exact h

theorem feedAll (h : Collects st) (i : ℕ) (lines : List Bytes) :
    Collects (Logcollector.feedAll v i st lines) := by
  induction lines generalizing i st with
  | nil => exact h
  | cons l lines ih =>
    rw [Logcollector.feedAll]
    apply ih
    rw [feed]
    split_ifs
    · exact h
    · exact h
    · exact h.processLine i _

end Collects

theorem map_marker (id : Bytes) (hsect : sect ≠ 0) :
    (marker id sect).map noNul = marker (id.map noNul) sect := by
  rw [marker, map_append, map_append, map_cons, map_cons, show noNul sect = sect from if_neg hsect]
  rfl

/-- A marker that begins with those of another id is one of that id. -/
theorem eq_of_markers {id' q : Bytes} (ha : marker id (chr 'A') = marker id' (chr 'A') ++ p)
    (hz : marker id (chr 'Z') = marker id' (chr 'Z') ++ q) : id = id' := by
  rw [marker, marker, append_assoc, append_cancel_left_eq, append_assoc] at ha hz
  have hlen : id'.length ≤ id.length := by
    have hlen := congrArg List.length ha
    rw [length_append, length_append, length_append] at hlen
    simp only [length_cons] at hlen
    omega
  obtain ⟨u, rfl⟩ : id' <+: id :=
    prefix_of_prefix_length_le ⟨_, ha.symm⟩ (prefix_append _ _) hlen
  rw [append_assoc, append_cancel_left_eq] at ha hz
  -- the letters behind the first dash differ
  match u with
  | [] => exact append_nil _
  | [b] => exact absurd (List.cons.inj (List.cons.inj ha).2).1 (by decide)
  | b :: c :: u =>
    have hletters : chr 'A' = chr 'Z' :=
      (List.cons.inj (List.cons.inj ha).2).1.symm.trans (List.cons.inj (List.cons.inj hz).2).1
    cases hletters

theorem Transaction.fits_of_sound (h : Sound t.message) : t.Fits := by
  obtain ⟨hroom, id, first, more, last, hcache, hfirst, hlast⟩ := h
  obtain ⟨rfl, hmore⟩ := List.cons.inj hcache
  obtain ⟨-, hlast'⟩ := append_inj' hmore rfl
  obtain rfl := (List.cons.inj hlast').1
  rw [opening, map_marker _ (by decide)] at hfirst
  rw [trailer, map_marker _ (by decide)] at hlast
  obtain ⟨⟨hne, hid, hlen⟩, p, hp, -⟩ := marker_of_parse hfirst
  obtain ⟨-, q, hq, -⟩ := marker_of_parse hlast
  obtain rfl : t.id = id :=
    eq_of_map_noNul (eq_of_markers hp hq) (isAlnum_ne hid (by decide))
  refine ⟨hne, hid, hlen, ?_⟩
  rw [message, length_cons, length_append, length_singleton] at hroom
  exact hroom

/-! ## Runs -/

theorem newline_notMem_log (hformed : ∀ t ∈ ts, t.Formed) :
    ∀ l ∈ ts.flatMap Transaction.lines, chr '\n' ∉ l := by
  intro l hl
  obtain ⟨t, ht, hl⟩ := mem_flatMap.mp hl
  exact Transaction.newline_notMem_lines (hformed t ht) l hl

theorem logText_append (ts ts' : List Transaction) :
    logText (ts ++ ts') = logText ts ++ logText ts' := by
  rw [logText, flatMap_append, unlines_append]
  rfl

/-- The reader is behind the first `k` transactions, and they are what was sent. -/
structure Follows (ts : List Transaction) (s : ModsecFile) (k : ℕ) : Prop where
  le : k ≤ ts.length
  sent : s.sent = (ts.take k).map Transaction.message
  read : s.fp.read = logText (ts.take k)
  skip : s.skip_to_nl = false

theorem modsecCost_pos (line : Bytes) : 0 < modsecCost line := by
  rw [modsecCost]
  split_ifs
  · exact Nat.one_pos
  · exact Nat.add_pos_left Nat.one_pos _

theorem modsecReads_lt {lines lines' : List Bytes} (h : lines <+: lines')
    (hlt : lines.length < lines'.length) : modsecReads lines < modsecReads lines' := by
  obtain ⟨more, rfl⟩ := h
  cases more with
  | nil => exact absurd hlt (by rw [append_nil]; exact lt_irrefl _)
  | cons l more =>
    rw [modsecReads, modsecReads, map_append, sum_append, map_cons, sum_cons]
    have hpos := modsecCost_pos l
    omega

/-- A visit sends the next transactions that are complete, as far as its budget reaches. -/
theorem Follows.visit {s : ModsecFile} {k max_lines : ℕ} (h : Follows ts s k)
    (hformed : ∀ t ∈ ts, t.Formed) (hfits : ∀ t ∈ ts, t.Fits) (hbytes : s.fp.bytes <+: logText ts)
    (hmeets : s.Meets (.poll max_lines)) :
    ∃ s' k', readModsecAudit ⟨max_lines, false⟩ s = some s' ∧ Follows ts s' k' ∧
      s'.fp.bytes = s.fp.bytes ∧ k ≤ k' ∧
      ∀ j, k ≤ j → j ≤ ts.length → logText (ts.take j) <+: s.fp.bytes →
        max_lines = 0 ∨
          modsecReads (((ts.take j).drop k).flatMap Transaction.lines) ≤ max_lines → j ≤ k' := by
  have hformed' : ∀ t ∈ ts.drop k, t.Formed := fun t ht => hformed t (mem_of_mem_drop ht)
  have hfits' : ∀ t ∈ ts.drop k, t.Fits := fun t ht => hfits t (mem_of_mem_drop ht)
  have hbehind : s.fp.unread <+: logText (ts.drop k) := by
    rw [← take_append_drop k ts, logText_append, Tail.bytes, h.read] at hbytes
    exact (prefix_append_right_inj _).mp hbytes
  -- the lines in front of the reader are the first ones of the next transactions
  have hlines : frames (chr '\n') s.fp.unread <+: (ts.drop k).flatMap Transaction.lines := by
    have hframes := frames_isPrefix hbehind
    rwa [logText, frames_unlines (newline_notMem_log hformed')] at hframes
  obtain ⟨i, hi, hall, hread⟩ := readModsecAudit_spec (v := ⟨max_lines, false⟩) rfl h.skip
    (fun l hl => newline_notMem_of_mem_frames hl) (notMem_rest _) (unlines_frames _).symm hmeets
  generalize hls : frames (chr '\n') s.fp.unread = lines at hlines hi hall hread
  obtain ⟨m, hm⟩ := @feedAll_log ⟨max_lines, false⟩ (ts.drop k) rfl 0 s.sent (lines.take i) hfits'
    hformed' ((List.take_prefix i lines).trans hlines)
  have htake : ts.take (k + m) = ts.take k ++ (ts.drop k).take m := take_add
  -- the position is behind the transactions that were sent
  generalize hsent : ((ts.drop k).take m).flatMap Transaction.lines = whole at hm
  have hwhole : whole <+: lines.take i := hsent ▸ hm.whole
  have hread' : (lineStart s.fp.read lines (rest (chr '\n') s.fp.unread) whole.length).read =
      logText (ts.take (k + m)) := by
    rw [htake, logText_append, ← h.read, lineStart,
      ← prefix_iff_eq_take.mp (hwhole.trans (List.take_prefix i lines)), ← hsent]
    rfl
  have hfp : (ModsecFile.finish ((feedAll ⟨max_lines, false⟩ 0 { sent := s.sent }
      (lines.take i)).map (lineStart s.fp.read lines (rest (chr '\n') s.fp.unread)),
      lineStart s.fp.read lines (rest (chr '\n') s.fp.unread) i, false)).fp =
        lineStart s.fp.read lines (rest (chr '\n') s.fp.unread) whole.length := by
    obtain ⟨hclosed, hlast⟩ | ⟨hopen, htxn⟩ := hm.start
    · have hlength : i = whole.length := by
        rw [← hsent, ← hlast, length_take_of_le hi]
      rw [← hlength]
      exact if_neg (not_not.mpr hclosed)
    · have hstart : Modsec.txn_start _ = some _ := htxn
      rw [hsent, zero_add] at hstart
      refine (if_pos hopen).trans ?_
      show Option.getD (Option.map _ (Modsec.txn_start _)) _ = _
      rw [hstart]
      rfl
  refine ⟨_, k + m, hread, ?_, ?_, Nat.le_add_right k m, ?_⟩
  · exact {
      le := by
        have hle := hm.le
        have hk := h.le
        rw [length_drop] at hle
        omega
      sent := by
        rw [htake, map_append, ← h.sent]
        exact hm.sent
      read := by rw [hfp, hread']
      skip := rfl }
  · rw [hfp, bytes_lineStart, ← hls, unlines_frames]
    rfl
  · intro j hkj hj hbegins hbudget
    have hnext : (ts.take j).drop k = (ts.drop k).take (j - k) := drop_take
    have htaken : ts.take j = ts.take k ++ (ts.drop k).take (j - k) := by
      rw [← take_add, Nat.add_sub_cancel' hkj]
    rw [hnext] at hbudget
    generalize hlater : ((ts.drop k).take (j - k)).flatMap Transaction.lines = later at hbudget
    -- the lines of these transactions are in front of the reader
    have hlater' : later <+: lines := by
      have hunread : unlines later <+: s.fp.unread := by
        rw [htaken, logText_append, ← h.read, Tail.bytes] at hbegins
        rw [← hlater]
        exact (prefix_append_right_inj _).mp hbegins
      have hframes := frames_isPrefix hunread
      rwa [hls, frames_unlines] at hframes
      intro l hl
      rw [← hlater] at hl
      refine newline_notMem_log (fun t ht => hformed' t ?_) l hl
      exact mem_of_mem_take ht
    -- and the budget is enough for them
    have hreached : later.length ≤ i := by
      by_contra hlt
      have htake' : lines.take i <+: later := by
        refine prefix_of_prefix_length_le (List.take_prefix i lines) hlater' ?_
        rw [length_take]
        omega
      have hless := modsecReads_lt htake' (by rw [length_take]; omega)
      have hdone := hall (hbudget.imp_right fun hle => hless.trans_le hle)
      exact hlt (hdone ▸ hlater'.length_le)
    have hle := hm.most (j - k) (by rw [length_drop]; omega) (by
      rw [hlater]
      refine prefix_of_prefix_length_le hlater' (List.take_prefix i lines) ?_
      rw [length_take]
      exact le_min hreached hlater'.length_le)
    omega

theorem Follows.step {s s' : ModsecFile} {pre : List ModsecEvent} {e : ModsecEvent} {k : ℕ}
    (h : Follows ts s k) (hformed : ∀ t ∈ ts, t.Formed) (hfits : ∀ t ∈ ts, t.Fits)
    (hbytes : s.fp.bytes = writtenModsec pre) (hlog : writtenModsec pre <+: logText ts)
    (hstep : s.GoodStep e s') :
    (∃ k', Follows ts s' k') ∧ s'.fp.bytes = writtenModsec (pre ++ [e]) := by
  obtain ⟨hstep, hmeets⟩ := hstep
  rw [writtenModsec, map_append, flatten_append]
  cases e with
  | append piece =>
    obtain rfl : s' = _ := hstep
    refine ⟨⟨k, { h with }⟩, ?_⟩
    rw [Tail.bytes_append, hbytes]
    exact congrArg _ (append_nil _).symm
  | poll max_lines =>
    obtain ⟨s₁, k', hread, hfollows, hsame, -⟩ := h.visit hformed hfits (hbytes ▸ hlog) hmeets
    obtain rfl := Option.some.inj (hread.symm.trans hstep)
    refine ⟨⟨k', hfollows⟩, ?_⟩
    rw [hsame, hbytes]
    exact (append_nil _).symm

theorem whole_log (hformed : ∀ t ∈ ts, t.Formed) : Whole ⟨0, false⟩ 0 (logText ts) where
  short _ := by
    rw [logText, rest_unlines (newline_notMem_log hformed)]
    decide
  whole _ _ _ _ _ := .inl rfl

/-- **Audit logs of ModSecurity**: when a log is read at once, the messages are the transactions,
one for each in their order, exactly when all of them fit. Along every run that writes a log of
transactions that fit, in any pieces, and whose visits do not stop in a line that is too long, they
are the transactions in front of the position; a visit sends all that are complete, as far as its
budget reaches. -/
theorem readModsecAudit_law (hformed : ∀ t ∈ ts, t.Formed) :
    (∃ s, readModsecAudit ⟨0, false⟩ { fp := ⟨[], logText ts⟩ } = some s ∧
      (s.sent = ts.map Transaction.message ↔ ∀ t ∈ ts, t.Fits)) ∧
    ((∀ t ∈ ts, t.Fits) → ∀ es s, Run ModsecFile.GoodStep {} es s →
      writtenModsec es <+: logText ts →
      ∃ k ≤ ts.length, s.sent = (ts.take k).map Transaction.message ∧
        s.fp.read = logText (ts.take k) ∧ s.fp.bytes = writtenModsec es ∧
        ∀ max_lines, s.Meets (.poll max_lines) →
          ∃ s' k', readModsecAudit ⟨max_lines, false⟩ s = some s' ∧
            s'.sent = (ts.take k').map Transaction.message ∧ s'.fp.read = logText (ts.take k') ∧
            s'.fp.bytes = s.fp.bytes ∧ k ≤ k' ∧
            ∀ j, k ≤ j → j ≤ ts.length → logText (ts.take j) <+: s.fp.bytes →
              max_lines = 0 ∨
                modsecReads (((ts.take j).drop k).flatMap Transaction.lines) ≤ max_lines →
              j ≤ k') := by
  constructor
  · obtain ⟨i, -, hall, hread⟩ := @readModsecAudit_spec ⟨0, false⟩ []
      (ts.flatMap Transaction.lines) { fp := ⟨[], logText ts⟩ } rfl rfl
      (newline_notMem_log hformed) not_mem_nil (append_nil _).symm (whole_log hformed)
    refine ⟨_, hread, fun hsent t ht => ?_, fun hfits => ?_⟩
    · -- what is sent is not longer than the cache, and has the markers of an id
      have hstart : Collects ({ sent := [] } : Modsec ℕ) := {
        sound := fun cache hmem => absurd hmem not_mem_nil
        closed := fun _ => rfl
        first := fun hne => absurd rfl hne
        room := Nat.zero_le _ }
      have hcollects := @Collects.feedAll ⟨0, false⟩ _ hstart 0
        ((ts.flatMap Transaction.lines).take i)
      have hmem : t.message ∈ (ModsecFile.finish _).sent := hsent ▸ mem_map_of_mem ht
      exact t.fits_of_sound (hcollects.sound _ hmem)
    · have hfollows : Follows ts { fp := ⟨[], logText ts⟩ } 0 := ⟨Nat.zero_le _, rfl, rfl, rfl⟩
      obtain ⟨s', k', hread', hvisited, -, -, hsends⟩ := @Follows.visit ts _ 0 0 hfollows hformed
        hfits prefix_rfl (whole_log hformed)
      obtain rfl := Option.some.inj (hread.symm.trans hread')
      have hk : ts.length ≤ k' := by
        refine hsends ts.length (Nat.zero_le _) le_rfl ?_ (.inl rfl)
        rw [take_length]
        exact prefix_rfl
      rw [hvisited.sent, take_of_length_le hk]
  · intro hfits es s hrun hlog
    have hinv : ∀ (pre : List ModsecEvent) s e s',
        (writtenModsec pre <+: logText ts →
          (∃ k, Follows ts s k) ∧ s.fp.bytes = writtenModsec pre) →
        s.GoodStep e s' →
        (writtenModsec (pre ++ [e]) <+: logText ts →
          (∃ k, Follows ts s' k) ∧ s'.fp.bytes = writtenModsec (pre ++ [e])) := by
      intro pre s e s' ih hstep hbegins
      have hbefore : writtenModsec pre <+: logText ts := by
        refine List.IsPrefix.trans ?_ hbegins
        rw [writtenModsec, writtenModsec, map_append, flatten_append]
        exact prefix_append _ _
      obtain ⟨⟨k, hfollows⟩, hbytes⟩ := ih hbefore
      exact hfollows.step hformed hfits hbytes hbefore hstep
    obtain ⟨⟨k, hfollows⟩, hbytes⟩ :=
      hrun.history hinv (fun _ => ⟨⟨0, Nat.zero_le _, rfl, rfl, rfl⟩, rfl⟩) hlog
    refine ⟨k, hfollows.le, hfollows.sent, hfollows.read, hbytes, fun max_lines hmeets => ?_⟩
    obtain ⟨s', k', hread, hvisited, hsame, hle, hsends⟩ :=
      hfollows.visit hformed hfits (hbytes ▸ hlog) hmeets
    exact ⟨s', k', hread, hvisited.sent, hvisited.read, hsame, hle, hsends⟩

/-- A transaction with a lookalike and a blank line, which is written in two pieces. -/
theorem readModsecAudit_law_lookalike : ∃ (s : ModsecFile) (k : ℕ),
    s.sent = [[lit "--a1-A--", lit "--b2-Z--", [], lit "--a1-Z--"]] ∧
      s.sent = ([⟨lit "a1", [lit "--b2-Z--", []]⟩].take k).map Transaction.message := by
  have hformed : ∀ t ∈ [Transaction.mk (lit "a1") [lit "--b2-Z--", []]], t.Formed := by
    intro t ht
    obtain rfl := mem_singleton.mp ht
    refine ⟨by decide, ?_, ?_⟩
    · intro l hl
      rcases mem_pair.mp hl with rfl | rfl
      · decide
      · exact not_mem_nil
    · rintro l hl ⟨p, rfl, -⟩
      rcases mem_pair.mp hl with h | h
      · exact absurd (List.cons.inj (List.cons.inj (List.cons.inj h).2).2).1 (by decide)
      · exact absurd (cons_ne_nil _ _) (not_not.mpr h)
  have hfits : ∀ t ∈ [Transaction.mk (lit "a1") [lit "--b2-Z--", []]], t.Fits := by
    intro t ht
    obtain rfl := mem_singleton.mp ht
    exact ⟨by decide, forall_mem_of_all (by decide), by decide, by decide⟩
  have hshort : ∀ text, (rest (chr '\n') text).length < MODSEC_LINE → Whole ⟨0, false⟩ 0 text :=
    fun text h => ⟨fun _ => h, fun _ _ _ _ _ => .inl rfl⟩
  have hrun : ∃ s, Run ModsecFile.GoodStep {} [.append (lit "--a1-A--\n--b2"), .poll 0,
      .append (lit "-Z--\n\n--a1-Z--\n"), .poll 0] s ∧
      s.sent = [[lit "--a1-A--", lit "--b2-Z--", [], lit "--a1-Z--"]] :=
    ⟨_, .cons ⟨rfl, trivial⟩ (.cons ⟨rfl, hshort _ (by decide)⟩ (.cons ⟨rfl, trivial⟩
      (.cons ⟨rfl, hshort _ (by decide)⟩ (.nil _)))), rfl⟩
  obtain ⟨s, hrun, hsent⟩ := hrun
  obtain ⟨k, -, hsends, -⟩ := (readModsecAudit_law hformed).2 hfits _ s hrun prefix_rfl
  exact ⟨s, k, hsent, hsends⟩

/-- A transaction whose body goes on with the lines of another one when the cache is full. -/
def overfull : Transaction :=
  ⟨lit "a", List.replicate 96 (lit "x") ++ [lit "--e-A--", lit "--e-Z--"]⟩

theorem formed_overfull : overfull.Formed := by
  have hlines : ∀ l ∈ overfull.body, l = lit "x" ∨ l = lit "--e-A--" ∨ l = lit "--e-Z--" := by
    intro l hl
    rcases mem_append.mp hl with hl | hl
    · exact .inl (eq_of_mem_replicate hl)
    · exact .inr (mem_pair.mp hl)
  refine ⟨by decide, ?_, ?_⟩
  · intro l hl
    rcases hlines l hl with rfl | rfl | rfl
    · decide
    · decide
    · decide
  · rintro l hl ⟨p, rfl, -⟩
    rcases hlines _ hl with h | h | h
    · exact absurd (List.cons.inj h).1 (by decide)
    · exact absurd (List.cons.inj (List.cons.inj (List.cons.inj h).2).2).1 (by decide)
    · exact absurd (List.cons.inj (List.cons.inj (List.cons.inj h).2).2).1 (by decide)

/-- The other lines are what is sent. -/
theorem feedAll_overfull : feedAll ⟨0, false⟩ 0 {} overfull.lines =
    { sent := [Transaction.message ⟨lit "e", []⟩] } := by
  have hfits : ∀ id ∈ [lit "a", lit "e"], Transaction.Fits ⟨id, []⟩ := by
    intro id hid
    rcases mem_pair.mp hid with rfl | rfl
    · exact ⟨by decide, forall_mem_of_all (by decide), by decide, by decide⟩
    · exact ⟨by decide, forall_mem_of_all (by decide), by decide, by decide⟩
  have hformed : Transaction.Formed ⟨lit "e", []⟩ :=
    ⟨by decide, fun l hl => absurd hl not_mem_nil, fun l hl => absurd hl not_mem_nil⟩
  have hsplit : overfull.lines = marker (lit "a") (chr 'A') :: (List.replicate 95 (lit "x") ++
      (lit "x" :: (Transaction.lines ⟨lit "e", []⟩ ++ [marker (lit "a") (chr 'Z')]))) := rfl
  have hkept : Transaction.kept (List.replicate 95 (lit "x")) = List.replicate 95 (lit "x") := by
    rw [Transaction.kept, filter_replicate_of_pos (by decide), map_replicate]
    rfl
  have hopening : feed ⟨0, false⟩ 0 {} (marker (lit "a") (chr 'A')) =
      Modsec.ofOpen (lit "a") 0 [] [marker (lit "a") (chr 'A')] :=
    feed_opening _ _ (hfits _ mem_cons_self)
  have hx : ¬ IsMarker (lit "a") (chr 'Z') (lit "x") := by
    rintro ⟨p, hp, -⟩
    exact absurd (List.cons.inj hp).1 (by decide)
  have hbody : feedAll ⟨0, false⟩ (0 + 1)
      (Modsec.ofOpen (lit "a") 0 [] [marker (lit "a") (chr 'A')]) (List.replicate 95 (lit "x")) =
        Modsec.ofOpen (lit "a") 0 []
          ([marker (lit "a") (chr 'A')] ++ Transaction.kept (List.replicate 95 (lit "x"))) := by
    refine feedAll_body _ _ (cons_ne_nil _ _) (cons_ne_nil _ _) ?_ ?_
    · rw [hkept, length_replicate]
      decide
    · intro l hl
      rwa [eq_of_mem_replicate hl]
  -- the cache is full: the transaction is discarded
  have hfull : ∀ cache : List Bytes, cache.length = 96 → ∀ i,
      feed ⟨0, false⟩ i (Modsec.ofOpen (lit "a") 0 [] cache) (lit "x") = {} := by
    intro cache hcache i
    have hadd : (Modsec.ofOpen (lit "a") 0 [] cache).addLine (lit "x") = {} :=
      if_pos (show cache.length ≥ 96 from hcache.ge)
    rw [← hadd]
    rfl
  have hforged := @feedAll_lines ⟨0, false⟩ ⟨lit "e", []⟩ [] rfl
  rw [hsplit, feedAll, hopening, feedAll_append, hbody, feedAll, hfull _ (by rw [hkept]; rfl),
    feedAll_append, hforged _ (hfits _ (mem_cons_of_mem _ mem_cons_self)) hformed]
  rfl

/-- A message is forged by the lines of a body. -/
theorem not_readModsecAudit : ¬ ∀ (ts : List Transaction) (s : ModsecFile),
    (∀ t ∈ ts, t.Formed) → readModsecAudit ⟨0, false⟩ { fp := ⟨[], logText ts⟩ } = some s →
      s.sent = ts.map Transaction.message := by
  intro h
  have hformed : ∀ t ∈ [overfull], t.Formed := by
    intro t ht
    rw [mem_singleton.mp ht]
    exact formed_overfull
  obtain ⟨i, -, hall, hread⟩ := @readModsecAudit_spec ⟨0, false⟩ []
    ([overfull].flatMap Transaction.lines) { fp := ⟨[], logText [overfull]⟩ } rfl rfl
    (newline_notMem_log hformed) not_mem_nil (append_nil _).symm (whole_log hformed)
  have hsent := h [overfull] _ hformed hread
  have hlines : ([overfull].flatMap Transaction.lines).take i = overfull.lines := by
    rw [hall (.inl rfl), take_length]
    exact append_nil _
  have hforged : (feedAll ⟨0, false⟩ 0 {} (([overfull].flatMap Transaction.lines).take i)).sent =
      [overfull].map Transaction.message := hsent
  rw [hlines, feedAll_overfull] at hforged
  exact absurd (List.cons.inj (List.cons.inj hforged).1).1 (by decide)

end Logcollector
