import Mathlib.Data.List.TakeDrop
import OssecHids.Remoted.SyslogTcp

/-!
# What a line of syslog over TCP becomes

The message of a line is to be the line without its priority and without the carriage return in front
of its newline.

- `lineMessage_eq_iff`: which lines keep the rest of their text;
- `line_law`: the lines of a connection.
-/

open CString Framing Transition List

namespace Remoted.SyslogTcp

/-! ## What is asked of it -/

/-- A text without a `<digits>` in front -/
def withoutPriority (line : Bytes) : Bytes :=
  let rest := line.drop 1
  if line.headD 0 = chr '<' ∧ rest.takeWhile isDigit ≠ [] ∧
      (rest.dropWhile isDigit).headD 0 = chr '>' then (rest.dropWhile isDigit).drop 1
  else line

/-- A text without a carriage return at its end -/
def withoutCr (line : Bytes) : Bytes := if line.getLast? = some (chr '\r') then line.dropLast else line

/-- The message that a line is to give -/
def expectedMessage (line : Bytes) : Bytes := withoutPriority (withoutCr (line.map mapNul))

/-- No carriage return is inside the text, and what stands in front of the first `>` of a text that
starts with `<` are digits. -/
structure KeepsText (line : Bytes) : Prop where
  cr : chr '\r' ∉ line.dropLast
  priority : ∀ u r, withoutCr line = chr '<' :: (u ++ chr '>' :: r) → chr '>' ∉ u →
    u ≠ [] ∧ ∀ b ∈ u, isDigit b = true

/-! ## A line -/

variable {s t l r u : Bytes} {line : Bytes} {send_fn : SendFn} {w : Worker} {rs : List Recv}

theorem withoutPriority_digits (hu : ∀ b ∈ u, isDigit b = true) (hne : u ≠ []) (r : Bytes) :
    withoutPriority (chr '<' :: (u ++ chr '>' :: r)) = r := by
  have htake : (u ++ chr '>' :: r).takeWhile isDigit = u := by
    rw [takeWhile_append_of_pos hu, takeWhile_cons_of_neg (by decide), append_nil]
  have hdrop : (u ++ chr '>' :: r).dropWhile isDigit = chr '>' :: r := by
    rw [dropWhile_append_of_pos hu, dropWhile_cons_of_neg (by decide)]
  rw [withoutPriority, drop_one, tail_cons, htake, hdrop, if_pos ⟨rfl, hne, rfl⟩]
  rfl

/-- A priority that is taken away is made of digits. -/
theorem exists_of_withoutPriority_ne (h : withoutPriority s ≠ s) :
    ∃ u r, s = chr '<' :: (u ++ chr '>' :: r) ∧ u ≠ [] ∧ ∀ b ∈ u, isDigit b = true := by
  rw [withoutPriority] at h
  split_ifs at h with hcond
  · obtain ⟨hhead, hne, hgt⟩ := hcond
    cases s with
    | nil => exact absurd rfl hne
    | cons b s =>
      obtain rfl : b = chr '<' := hhead
      rw [drop_one, tail_cons] at hne hgt
      refine ⟨s.takeWhile isDigit, (s.dropWhile isDigit).drop 1, ?_, hne, fun b hb =>
        mem_takeWhile_imp hb⟩
      have hsplit : s.takeWhile isDigit ++ s.dropWhile isDigit = s :=
        takeWhile_append_dropWhile
      cases hrest : s.dropWhile isDigit with
      | nil =>
        rw [hrest] at hgt
        cases hgt
      | cons c rest =>
        rw [hrest] at hgt hsplit
        obtain rfl : c = chr '>' := hgt
        rw [drop_one, tail_cons, hsplit]
  · exact absurd rfl h

/-- What the loop takes away in front: everything up to the first `>`. -/
def stripped (line : Bytes) : Bytes :=
  if line.headD 0 = chr '<' then
    ((strchr (chr '>') (line.drop 1)).map (List.drop 1)).getD line
  else line

theorem stripped_of_gt (hu : chr '>' ∉ u) (hz : ∀ b ∈ u, b ≠ 0) (r : Bytes) :
    stripped (chr '<' :: (u ++ chr '>' :: r)) = r := by
  rw [stripped, headD_cons, if_pos rfl, drop_one, tail_cons, strchr_append hu hz]
  rfl

/-- A text is left as it is, or it starts with `<` and has a `>`. -/
theorem stripped_cases (s : Bytes) :
    stripped s = s ∨ ∃ u r, s = chr '<' :: (u ++ chr '>' :: r) ∧ chr '>' ∉ u := by
  rw [stripped]
  split_ifs with hhead
  · cases s with
    | nil => exact .inl rfl
    | cons b s =>
      obtain rfl : b = chr '<' := hhead
      rw [drop_one, tail_cons]
      cases hchr : strchr (chr '>') s with
      | none => exact .inl rfl
      | some p =>
        obtain ⟨u, r, rfl, rfl, hu⟩ := exists_of_strchr_eq_some hchr
        exact .inr ⟨u, r, rfl, hu⟩
  · exact .inl rfl

theorem length_stripped_le (hz : ∀ b ∈ s, b ≠ 0) : (stripped s).length ≤ s.length := by
  rcases stripped_cases s with h | ⟨u, r, rfl, hu⟩
  · rw [h]
  · have hzu : ∀ b ∈ u, b ≠ 0 := fun b hb =>
      hz b (mem_cons_of_mem _ (mem_append_left _ hb))
    rw [stripped_of_gt hu hzu, length_cons, length_append, length_cons]
    omega

/-- When as much is taken away in front as there is to be. -/
theorem stripped_eq_iff (hz : ∀ b ∈ s, b ≠ 0) :
    stripped s = withoutPriority s ↔
      ∀ u r, s = chr '<' :: (u ++ chr '>' :: r) → chr '>' ∉ u →
        u ≠ [] ∧ ∀ b ∈ u, isDigit b = true := by
  constructor
  · rintro h u r rfl hu
    have hzu : ∀ b ∈ u, b ≠ 0 := fun b hb =>
      hz b (mem_cons_of_mem _ (mem_append_left _ hb))
    rw [stripped_of_gt hu hzu] at h
    have hne : withoutPriority (chr '<' :: (u ++ chr '>' :: r)) ≠ chr '<' :: (u ++ chr '>' :: r) := by
      intro heq
      have hlen := congrArg List.length (h.trans heq)
      rw [length_cons, length_append, length_cons] at hlen
      omega
    obtain ⟨v, r', heq, hv, hdigits⟩ := exists_of_withoutPriority_ne hne
    -- both end at the first `>`
    have hgt : chr '>' ∉ v := fun hmem => absurd (hdigits _ hmem) (by decide)
    have hcut := (List.cons.inj heq).2
    have hall : ∀ {v : Bytes}, chr '>' ∉ v → ∀ b ∈ v, (b != chr '>') = true := by
      intro v hv b hb
      rw [bne_iff_ne]
      rintro rfl
      exact hv hb
    have huv : u = v := by
      have htake := congrArg (List.takeWhile (· != chr '>')) hcut
      rwa [takeWhile_append_of_pos (hall hu), takeWhile_append_of_pos (hall hgt),
        takeWhile_cons_of_neg (by simp), takeWhile_cons_of_neg (by simp),
        append_nil, append_nil] at htake
    rw [huv]
    exact ⟨hv, hdigits⟩
  · intro h
    by_cases hne : withoutPriority s = s
    · rw [hne]
      rcases stripped_cases s with heq | ⟨u, r, rfl, hu⟩
      · exact heq
      · obtain ⟨hune, hdigits⟩ := h u r rfl hu
        rw [withoutPriority_digits hdigits hune] at hne
        have hlen := congrArg List.length hne
        rw [length_cons, length_append, length_cons] at hlen
        omega
    · obtain ⟨u, r, rfl, hune, hdigits⟩ := exists_of_withoutPriority_ne hne
      have hu : chr '>' ∉ u := fun hmem => absurd (hdigits _ hmem) (by decide)
      have hzu : ∀ b ∈ u, b ≠ 0 := fun b hb =>
        hz b (mem_cons_of_mem _ (mem_append_left _ hb))
      rw [stripped_of_gt hu hzu, withoutPriority_digits hdigits hune]

theorem lineMessage_eq (s : Bytes) :
    lineMessage s = stripped (((cutAt (chr '\r') s).map Prod.fst).getD s) := rfl

theorem lineMessage_of_notMem (h : chr '\r' ∉ s) : lineMessage s = stripped s := by
  rw [lineMessage_eq, cutAt_of_notMem h, Option.map_none, Option.getD_none]

theorem lineMessage_append (hl : chr '\r' ∉ l) (hz : ∀ b ∈ l, b ≠ 0) (r : Bytes) :
    lineMessage (l ++ chr '\r' :: r) = stripped l := by
  rw [lineMessage_eq, cutAt_append hl hz, Option.map_some, Option.getD_some]

theorem withoutCr_concat (l : Bytes) : withoutCr (l ++ [chr '\r']) = l := by
  rw [withoutCr, getLast?_concat, if_pos rfl, dropLast_concat]

/-- With its carriage return at the end, or none, the text is the one without it. -/
theorem lineMessage_of_cr_notMem (hz : ∀ b ∈ s, b ≠ 0) (h : chr '\r' ∉ s.dropLast) :
    lineMessage s = stripped (withoutCr s) := by
  rcases eq_nil_or_concat' s with rfl | ⟨l, b, rfl⟩
  · rfl
  · rw [dropLast_concat] at h
    by_cases hb : b = chr '\r'
    · subst hb
      rw [withoutCr_concat, lineMessage_append h fun b hb => hz b (mem_append_left _ hb)]
    · have hlast : withoutCr (l ++ [b]) = l ++ [b] := by
        rw [withoutCr, getLast?_concat, if_neg (by simpa using hb)]
      rw [hlast, lineMessage_of_notMem]
      rw [mem_append, mem_singleton, not_or]
      exact ⟨h, Ne.symm hb⟩

/-- Behind a carriage return inside the text everything is lost. -/
theorem lineMessage_ne_of_cr_mem (hz : ∀ b ∈ s, b ≠ 0) (h : chr '\r' ∈ s.dropLast) :
    lineMessage s ≠ withoutPriority (withoutCr s) := by
  rcases eq_nil_or_concat' s with rfl | ⟨front, b, rfl⟩
  · cases h
  · rw [dropLast_concat] at h
    obtain ⟨l, r, rfl, hl⟩ := eq_append_cons_of_mem h
    have hzl : ∀ b ∈ l, b ≠ 0 := fun b hb =>
      hz b (mem_append_left _ (mem_append_left _ hb))
    have hmessage : lineMessage (l ++ chr '\r' :: r ++ [b]) = stripped l := by
      rw [append_assoc, cons_append, lineMessage_append hl hzl]
    -- one carriage return at most is taken off at the end
    obtain ⟨r', hcr⟩ : ∃ r', withoutCr (l ++ chr '\r' :: r ++ [b]) = l ++ chr '\r' :: r' := by
      by_cases hb : b = chr '\r'
      · subst hb
        exact ⟨r, withoutCr_concat _⟩
      · refine ⟨r ++ [b], ?_⟩
        rw [withoutCr, getLast?_concat, if_neg (by simpa using hb), append_assoc, cons_append]
    rw [hmessage, hcr]
    intro heq
    by_cases hpri : withoutPriority (l ++ chr '\r' :: r') = l ++ chr '\r' :: r'
    · rw [hpri] at heq
      have hle := length_stripped_le hzl
      rw [heq, length_append, length_cons] at hle
      omega
    · obtain ⟨u, r'', hsplit, hu, hdigits⟩ := exists_of_withoutPriority_ne hpri
      have hgt : chr '>' ∉ u := fun hmem => absurd (hdigits _ hmem) (by decide)
      have hcrfront : chr '\r' ∉ chr '<' :: (u ++ [chr '>']) := by
        rw [mem_cons, mem_append, mem_singleton, not_or, not_or]
        exact ⟨by decide, fun hmem => absurd (hdigits _ hmem) (by decide), by decide⟩
      -- the priority is in front of the carriage return
      obtain ⟨c, rfl, rfl⟩ : ∃ c, l = chr '<' :: (u ++ [chr '>']) ++ c ∧
          r'' = c ++ chr '\r' :: r' := by
        have happ : l ++ chr '\r' :: r' = chr '<' :: (u ++ [chr '>']) ++ r'' := by
          rw [hsplit, cons_append, append_assoc, singleton_append]
        rcases append_eq_append_iff.mp happ with ⟨c, hfront, hrest⟩ | ⟨c, rfl, hrest⟩
        · cases c with
          | nil => exact ⟨[], by rw [hfront, append_nil, append_nil], by rw [hrest]; rfl⟩
          | cons b' c =>
            obtain rfl : chr '\r' = b' := (List.cons.inj hrest).1
            refine absurd ?_ hcrfront
            rw [hfront]
            exact mem_append_right _ mem_cons_self
        · exact ⟨c, rfl, hrest⟩
      have hzu : ∀ b ∈ u, b ≠ 0 := fun b hb => hzl b (mem_append_left _
        (mem_cons_of_mem _ (mem_append_left _ hb)))
      have hfront : chr '<' :: (u ++ [chr '>']) ++ c = chr '<' :: (u ++ chr '>' :: c) := by
        rw [cons_append, append_assoc, singleton_append]
      rw [hsplit, withoutPriority_digits hdigits hu, hfront, stripped_of_gt hgt hzu] at heq
      have hlen := congrArg List.length heq
      rw [length_append, length_cons] at hlen
      omega

/-- **Which lines keep the rest of their text.** -/
theorem lineMessage_eq_iff (hz : ∀ b ∈ s, b ≠ 0) :
    lineMessage s = withoutPriority (withoutCr s) ↔ KeepsText s := by
  have hzcr : ∀ b ∈ withoutCr s, b ≠ 0 := by
    intro b hb
    rw [withoutCr] at hb
    split_ifs at hb
    · exact hz b (dropLast_subset _ hb)
    · exact hz b hb
  by_cases hcr : chr '\r' ∈ s.dropLast
  · exact iff_of_false (lineMessage_ne_of_cr_mem hz hcr) fun h => h.cr hcr
  · rw [lineMessage_of_cr_notMem hz hcr, stripped_eq_iff hzcr]
    exact ⟨fun h => ⟨hcr, h⟩, fun h => h.priority⟩

/-! ## A connection -/

theorem deliver_isPrefix (handed msgs : List Bytes) :
    ∃ n, (deliver send_fn handed msgs).1 = handed ++ msgs.take n := by
  induction msgs generalizing handed with
  | nil => exact ⟨0, by rw [deliver, take_zero, append_nil]⟩
  | cons msg msgs ih =>
    rw [deliver]
    split_ifs
    · obtain ⟨n, hn⟩ := ih (handed ++ [msg])
      exact ⟨n + 1, by rw [hn, take_succ_cons, append_assoc, singleton_append]⟩
    · exact ⟨1, by rw [take_succ_cons, take_zero]⟩

/-- **The messages of a connection are the texts of its lines** exactly if each line that was handed
over keeps its text. -/
theorem line_law (hrun : Run (Step send_fn) Worker.start rs w) (hshort : ShortLines (stream rs)) :
    (∀ line, message line = expectedMessage line ↔ KeepsText (line.map mapNul)) ∧
      (w.handed = ((lines (stream rs)).take w.handed.length).map expectedMessage ↔
        ∀ line ∈ (lines (stream rs)).take w.handed.length, KeepsText (line.map mapNul)) := by
  have hline : ∀ line, message line = expectedMessage line ↔ KeepsText (line.map mapNul) :=
    fun line => lineMessage_eq_iff (forall_mem_map_mapNul line)
  refine ⟨hline, ?_⟩
  have hhanded : w.handed = (deliver send_fn [] (messages (stream rs))).1 :=
    congrArg Prod.fst (invariant_start.run hrun hshort).handed
  have hprefix : w.handed <+: messages (stream rs) := by
    obtain ⟨n, hn⟩ : ∃ n, (deliver send_fn [] (messages (stream rs))).1 =
        [] ++ (messages (stream rs)).take n := deliver_isPrefix _ _
    rw [hhanded, hn, nil_append]
    exact List.take_prefix _ _
  have hmessages : w.handed = ((lines (stream rs)).take w.handed.length).map message := by
    rw [map_take]
    exact prefix_iff_eq_take.mp hprefix
  generalize (lines (stream rs)).take w.handed.length = handed at hmessages ⊢
  rw [hmessages, map_inj_left]
  exact forall₂_congr fun line _ => hline line

/-- A line with a priority, and one with a `<` that starts none. -/
theorem line_law_kept :
    ∃ w, Run (Step fun _ _ => true) Worker.start [.data (lit "<13>a\r\n<b\n")] w ∧
      w.handed = [lit "a", lit "<b"] := by
  obtain ⟨w, hrun⟩ : ∃ w, Run (Step fun _ _ => true) Worker.start [.data (lit "<13>a\r\n<b\n")] w :=
    ⟨_, .cons (.data rfl (by decide) (by decide)) (.nil _)⟩
  refine ⟨w, hrun, ?_⟩
  have hlaw := line_law hrun (by decide)
  have hhanded := (segmentation_law hrun (by decide)).2.1 fun _ _ => rfl
  have hlines : ((lines (stream [.data (lit "<13>a\r\n<b\n")])).take w.handed.length) =
      [lit "<13>a\r", lit "<b"] := by
    rw [hhanded]
    decide
  rw [hlines] at hlaw
  rw [hlaw.2.mpr ?_]
  · decide
  · intro line hline
    rw [← hlaw.1]
    revert line
    decide

/-- The text behind a carriage return, and one between `<` and `>`, are lost. -/
theorem not_message_eq :
    message (lit "a\rb") = lit "a" ∧ expectedMessage (lit "a\rb") = lit "a\rb" ∧
      message (lit "<x>y") = lit "y" ∧ expectedMessage (lit "<x>y") = lit "<x>y" := by
  decide

end Remoted.SyslogTcp
