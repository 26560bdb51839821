import OssecHids.Lib.Tail

/-!
# Lines of a monitored file

The readers of the log collector take a line after the other. A visit to a file may be limited to
`max_lines` reads.

- `logrConsumeLine`: the budget of a visit;
- `drainLoop`: a line is discarded up to its end;
- `drainLoop_spec`: what is discarded.
-/

open CString List

namespace Logcollector

def OS_MAXSTR : ℕ := 6144

def OS_LOG_HEADER : ℕ := 256

/-- A visit to a file: how many lines may be read, where 0 means any number, and whether what is
read is dropped. -/
structure Visit where
  max_lines : ℕ
  drop_it : Bool

/-- `logr_consume_line`: the lines read so far, with the next one, if it may be read. -/
def logrConsumeLine (v : Visit) (lines_read : ℕ) : Option ℕ :=
  if !v.drop_it ∧ v.max_lines ≠ 0 then
    if lines_read ≥ v.max_lines then none else some (lines_read + 1)
  else some lines_read

/-- Embedded NULs become spaces. -/
def noNul (b : UInt8) : UInt8 := if b = 0 then chr ' ' else b

/-- `fgets_no_nul(str, size, fp)`, and `read_syslog_line(str, size - 1, fp)`: an empty string at the
end of the file. -/
def fgetsNoNul (size : ℕ) (fp : Tail) : Bytes × Tail :=
  (((fp.getLine (size - 1)).1).map noNul, (fp.getLine (size - 1)).2)

/-- How the reader stops to discard. -/
inductive Drained
  | newline
  | eof
  | budget
  deriving DecidableEq, Repr

/-- The loop that discards what is left of a line. -/
def drainLoop (v : Visit) (size : ℕ) : ℕ → ℕ → Tail → Option (Drained × ℕ × Tail)
  | 0, _, _ => none
  | fuel + 1, lines_read, fp =>
    match logrConsumeLine v lines_read with
    | none => some (.budget, lines_read, fp)
    | some lines_read =>
      let (str, fp) := fgetsNoNul size fp
      if str = [] then some (.eof, lines_read, fp)
      else if chr '\n' ∈ str then some (.newline, lines_read, fp)
      else drainLoop v size fuel lines_read fp

/-! ## Reads -/

variable {v : Visit} {size n : ℕ} {fp fp' : Tail} {l r str : Bytes}

@[simp]
theorem noNul_eq_newline {b : UInt8} : noNul b = chr '\n' ↔ b = chr '\n' := by
  rw [noNul]
  split_ifs with hb
  · subst hb
    decide
  · rfl

theorem newline_mem_map_noNul : chr '\n' ∈ l.map noNul ↔ chr '\n' ∈ l := by
  rw [mem_map]
  constructor
  · rintro ⟨b, hb, hnl⟩
    exact noNul_eq_newline.mp hnl ▸ hb
  · exact fun h => ⟨chr '\n', h, rfl⟩

theorem newline_mem_line : chr '\n' ∈ (l ++ [chr '\n']).map noNul :=
  newline_mem_map_noNul.mpr (mem_append_right _ mem_cons_self)

theorem zero_notMem_map_noNul : 0 ∉ l.map noNul := by
  intro h
  obtain ⟨b, -, hb⟩ := mem_map.mp h
  rw [noNul] at hb
  split_ifs at hb with hz
  · cases hb
  · exact hz hb

theorem limited_of_consume (h : logrConsumeLine v n = none) :
    v.drop_it = false ∧ v.max_lines ≠ 0 := by
  rw [logrConsumeLine] at h
  split_ifs at h with hlim
  exact ⟨by simpa using hlim.1, hlim.2⟩

/-! ## Discarding -/

/-- What is discarded of a file. -/
inductive Drains (v : Visit) (n : ℕ) (fp : Tail) : Drained → Tail → Prop
  | newline {m r : Bytes} (hm : chr '\n' ∉ m) (h : fp.unread = m ++ chr '\n' :: r) :
      Drains v n fp .newline ⟨fp.read ++ (m ++ [chr '\n']), r⟩
  | eof (hm : chr '\n' ∉ fp.unread) : Drains v n fp .eof ⟨fp.read ++ fp.unread, []⟩
  | budget {m r : Bytes} (hm : chr '\n' ∉ m) (h : fp.unread = m ++ r)
      (hspent : v.drop_it = false ∧ v.max_lines ≠ 0)
      (hmoved : logrConsumeLine v n = none ∨ m ≠ []) : Drains v n fp .budget ⟨fp.read ++ m, r⟩

/-- A piece without a newline is discarded before. -/
theorem Drains.cons {k : ℕ} {d : Drained} (hl : chr '\n' ∉ l) (hne : l ≠ [])
    (h : fp.unread = l ++ r) (hd : Drains v k ⟨fp.read ++ l, r⟩ d fp') : Drains v n fp d fp' := by
  have hnot : ∀ m : Bytes, chr '\n' ∉ m → chr '\n' ∉ l ++ m := by
    intro m hm hmem
    exact (mem_append.mp hmem).elim hl hm
  cases hd with
  | newline hm hr =>
    have hread := @Drains.newline v n fp _ _ (hnot _ hm)
      (by rw [h, append_assoc]; exact congrArg _ hr)
    simpa only [append_assoc] using hread
  | eof hm =>
    have hread := @Drains.eof v n fp (by rw [h]; exact hnot _ hm)
    rw [h, ← append_assoc] at hread
    exact hread
  | budget hm hr hspent hmoved =>
    have hread := @Drains.budget v n fp _ _ (hnot _ hm)
      (by rw [h, append_assoc]; exact congrArg _ hr) hspent
      (.inr (append_ne_nil_of_left_ne_nil hne _))
    rwa [← append_assoc] at hread

theorem Drains.le {d : Drained} {fp fp' : Tail} (h : Drains v n fp d fp') :
    fp.read.length ≤ fp'.read.length ∧ fp'.bytes = fp.bytes := by
  cases h with
  | newline hm h =>
    refine ⟨by rw [length_append]; omega, ?_⟩
    simp only [Tail.bytes, h, append_assoc, cons_append, nil_append]
  | eof hm => exact ⟨by rw [length_append]; omega, append_nil _⟩
  | budget hm h =>
    refine ⟨by rw [length_append]; omega, ?_⟩
    rw [Tail.bytes, Tail.bytes, h, append_assoc]

/-- **Discarding** ends, and takes the rest of a line. -/
theorem drainLoop_spec (hsize : 1 < size) {fuel : ℕ} (hfuel : fp.unread.length < fuel) :
    ∃ d k fp', drainLoop v size fuel n fp = some (d, k, fp') ∧ Drains v n fp d fp' := by
  induction fuel generalizing n fp with
  | zero => cases hfuel
  | succ fuel ih =>
    rw [drainLoop]
    cases hconsume : logrConsumeLine v n with
    | none =>
      refine ⟨_, _, _, rfl, ?_⟩
      have hnone := @Drains.budget v n fp [] fp.unread not_mem_nil rfl
        (limited_of_consume hconsume) (.inl hconsume)
      rwa [append_nil] at hnone
    | some k =>
      have hgot := Tail.got (show 0 < size - 1 by omega) fp
      rw [fgetsNoNul]
      generalize hline : fp.getLine (size - 1) = res at hgot ⊢
      obtain ⟨str, fp₁⟩ := res
      dsimp only at hgot ⊢
      cases hgot with
      | eof h =>
        rw [if_pos map_nil]
        refine ⟨_, _, _, rfl, ?_⟩
        have heof := @Drains.eof v n fp (by rw [h]; exact not_mem_nil)
        rw [h, append_nil] at heof
        obtain ⟨read, unread⟩ := fp
        obtain rfl : unread = [] := h
        exact heof
      | line hl hlen h =>
        rename_i l r
        have hmem := @newline_mem_line l
        rw [if_neg (ne_nil_of_mem hmem), if_pos hmem]
        exact ⟨_, _, _, rfl, .newline hl h⟩
      | full hl hlen h =>
        rename_i r
        have hne : str ≠ [] := ne_nil_of_length_pos (by omega)
        rw [if_neg (by simpa using hne), if_neg fun hmem => hl (newline_mem_map_noNul.mp hmem)]
        rw [h, length_append] at hfuel
        obtain ⟨d, k', fp', hloop, hd⟩ := @ih k ⟨fp.read ++ str, r⟩ (by dsimp only; omega)
        exact ⟨d, k', fp', hloop, hd.cons hl hne h⟩
      | unfinished hl hlen hne h =>
        rw [if_neg (by simpa using hne), if_neg fun hmem => hl (newline_mem_map_noNul.mp hmem)]
        have hpos := length_pos_iff.mpr hne
        rw [h] at hfuel
        obtain ⟨d, k', fp', hloop, hd⟩ := @ih k ⟨fp.read ++ str, []⟩
          (by dsimp only [List.length]; omega)
        refine ⟨d, k', fp', hloop, hd.cons hl hne ?_⟩
        rw [append_nil]
        exact h

theorem consume_limited {k : ℕ} (h : logrConsumeLine v n = some k)
    (hlim : v.drop_it = false ∧ v.max_lines ≠ 0) : n < v.max_lines ∧ k = n + 1 := by
  rw [logrConsumeLine, if_pos ⟨by rw [hlim.1]; rfl, hlim.2⟩] at h
  split_ifs at h with hspent
  exact ⟨not_le.mp hspent, (Option.some.inj h).symm⟩

theorem consume_zero (v : Visit) : logrConsumeLine v 0 ≠ none := by
  rw [logrConsumeLine]
  split_ifs with hlim hspent
  · exact absurd (Nat.le_zero.mp hspent) hlim.2
  · exact Option.some_ne_none _
  · exact Option.some_ne_none _

/-- The reads that discarding takes, up to the newline. -/
theorem drainLoop_newline {fuel k : ℕ} {m : Bytes} (hsize : 1 < size) (hm : chr '\n' ∉ m)
    (h : fp.unread = m ++ chr '\n' :: r)
    (hdrain : drainLoop v size fuel n fp = some (.newline, k, fp'))
    (hlim : v.drop_it = false ∧ v.max_lines ≠ 0) : k = n + m.length / (size - 1) + 1 := by
  induction fuel generalizing n fp m with
  | zero => cases hdrain
  | succ fuel ih =>
    rw [drainLoop] at hdrain
    cases hconsume : logrConsumeLine v n with
    | none =>
      rw [hconsume] at hdrain
      cases hdrain
    | some n' =>
      rw [hconsume] at hdrain
      obtain ⟨-, rfl⟩ := consume_limited hconsume hlim
      dsimp only at hdrain
      by_cases hlen : m.length < size - 1
      case pos =>
        -- the newline is read at once
        rw [fgetsNoNul, Tail.getLine_line hm hlen h] at hdrain
        have hmem := @newline_mem_line m
        rw [if_neg (ne_nil_of_mem hmem), if_pos hmem] at hdrain
        rw [Nat.div_eq_of_lt hlen, add_zero]
        exact (Prod.mk.inj (Prod.mk.inj (Option.some.inj hdrain)).2).1.symm
      case neg =>
        have hlen := not_lt.mp hlen
        have hfirst : chr '\n' ∉ m.take (size - 1) := fun hmem => hm (mem_of_mem_take hmem)
        have hsplit : fp.unread = m.take (size - 1) ++ (m.drop (size - 1) ++ chr '\n' :: r) := by
          rw [← append_assoc, take_append_drop, h]
        have hne : m.take (size - 1) ≠ [] := by
          refine ne_nil_of_length_pos ?_
          rw [length_take]
          omega
        rw [fgetsNoNul, Tail.getLine_full hfirst (length_take_of_le hlen) hsplit,
          if_neg (by simpa using hne),
          if_neg fun hmem => hfirst (newline_mem_map_noNul.mp hmem)] at hdrain
        have hk := ih (fun hmem => hm (mem_of_mem_drop hmem)) rfl hdrain
        have hdiv : m.length / (size - 1) = (m.length - (size - 1)) / (size - 1) + 1 :=
          Nat.div_eq_sub_div (by omega) hlen
        rw [length_drop] at hk
        omega

end Logcollector
