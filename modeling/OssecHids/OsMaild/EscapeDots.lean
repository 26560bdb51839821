import OssecHids.Lib.DotStuffing

/-!
# The body of a mail

`mail_escape_body_dots`, and `mail_send_body`, which calls it for both ways to send a mail.

- `loneDot_iff`: the text for a program has a line with nothing but a dot only where it was cut off
  behind a dot that needed no escape;
- `escapeBodyDots_law`: what the two forms of a body are promised;
- `mailSendBody_law`: the daemon leaves room for every body.
-/

open CString DotStuffing List

namespace Maild

/-- Is the byte `b` escaped, when `src` is what follows it? -/
def escapes (smtp line_start : Bool) (b : UInt8) (src : Bytes) : Bool :=
  line_start && b == chr '.' &&
    (smtp || src.headD 0 == chr '\r' || src.headD 0 == chr '\n' || src.headD 0 == 0)

/-- What the loop of `mail_escape_body_dots` writes from `dst[j]` on. -/
def escapeLoop (smtp : Bool) (dst_size : ℕ) : ℕ → Bool → Bytes → Bytes
  | _, _, [] => []
  | j, line_start, b :: src =>
    if j < dst_size - 1 then
      if escapes smtp line_start b src then
        -- never the dot without its escape
        if j + 2 > dst_size - 1 then []
        else chr '.' :: (if smtp then chr '.' else chr ' ') ::
          escapeLoop smtp dst_size (j + 2) (b == chr '\n') src
      else b :: escapeLoop smtp dst_size (j + 1) (b == chr '\n') src
    else []

/-- `mail_escape_body_dots`: what it writes to `dst`. -/
def mailEscapeBodyDots (src : Option Bytes) (dst_size : ℕ) (smtp : Bool) : Bytes :=
  if dst_size = 0 then []
  else
    match src with
    | none => [0]
    | some src => escapeLoop smtp dst_size 0 true src ++ [0]

/-- `mail_send_body`: the text that is sent, without the zero byte behind it. -/
def mailSendBody (smtp : Bool) (body : Bytes) : Bytes :=
  str (mailEscapeBodyDots (some body) (2 * body.length + 1) smtp)

/-- A line that a reader takes for the end, whether or not it ends with a carriage return. -/
def LoneDot (line : Bytes) : Prop := line = lit "." ∨ line = lit ".\r"

/-- A string in a buffer of `n` bytes. -/
structure Fits (n : ℕ) (dst out : Bytes) : Prop where
  dst_eq : dst = out ++ [0]
  terminated : 0 ∉ out
  length_le : dst.length ≤ n

/-- The text of a body that goes to a server. -/
structure SmtpForm (n : ℕ) (body out : Bytes) : Prop where
  no_loneDot : ∀ line ∈ out.splitOn (chr '\n'), ¬LoneDot line
  stuffed : ∀ line ∈ out.splitOn (chr '\n'), line.head? = some (chr '.') → lit ".." <+: line
  /-- What the server makes of it. -/
  unstuff_prefix : unstuff out <+: body
  whole : 2 * body.length < n → unstuff out = body

/-- What `mail_escape_body_dots` promises of a body for a server. -/
def SmtpLaw (n : ℕ) (body : Bytes) : Prop :=
  ∃ out, Fits n (mailEscapeBodyDots (some body) n true) out ∧ SmtpForm n body out

/-- What it promises of a body for a program. -/
def PipeLaw (n : ℕ) (body : Bytes) : Prop :=
  ∃ out, Fits n (mailEscapeBodyDots (some body) n false) out ∧
    ∀ line ∈ out.splitOn (chr '\n'), ¬LoneDot line

/-- The number of lines of a text that get a space. -/
def loneDots (line_start : Bool) (s : Bytes) : ℕ :=
  (linesFrom line_start s).countP fun line => line == lit "." || (lit ".\r").isPrefixOf line

/-- The buffer is full behind a dot at the start of a line that has more than the dot. -/
def CutAtDot (n : ℕ) (body : Bytes) : Prop :=
  ∃ l b r, body = l ++ chr '.' :: b :: r ∧ (l = [] ∨ ∃ l', l = l' ++ [chr '\n']) ∧
    b ≠ chr '\r' ∧ b ≠ chr '\n' ∧ l.length + loneDots true l + 2 = n

variable {smtp line_start : Bool} {n j : ℕ} {b : UInt8} {body line out s : Bytes}

/-! ## Both forms -/

theorem escapeLoop_cons (smtp : Bool) (n j : ℕ) (line_start : Bool) (b : UInt8) (s : Bytes) :
    escapeLoop smtp n j line_start (b :: s) =
      if j < n - 1 then
        if escapes smtp line_start b s then
          if j + 2 > n - 1 then []
          else chr '.' :: (if smtp then chr '.' else chr ' ') ::
            escapeLoop smtp n (j + 2) (b == chr '\n') s
        else b :: escapeLoop smtp n (j + 1) (b == chr '\n') s
      else [] := rfl

theorem escapes_iff :
    escapes smtp line_start b s = true ↔ line_start = true ∧ b = chr '.' ∧
      (smtp = true ∨ s.headD 0 = chr '\r' ∨ s.headD 0 = chr '\n' ∨ s.headD 0 = 0) := by
  simp only [escapes, Bool.and_eq_true, Bool.or_eq_true, beq_iff_eq, and_assoc, or_assoc]

/-- Induction over the loop: where it stops, at an escaped dot, and at any other byte. -/
@[elab_as_elim]
theorem escapeLoopRec {motive : ℕ → Bool → Bytes → Bytes → Prop} (smtp : Bool) (n : ℕ)
    (done : ∀ j line_start, motive j line_start [] [])
    (full : ∀ j line_start b s, ¬j < n - 1 → motive j line_start (b :: s) [])
    (cut : ∀ j s, j < n - 1 → escapes smtp true (chr '.') s = true → j + 2 > n - 1 →
      motive j true (chr '.' :: s) [])
    (dot : ∀ j s out, escapes smtp true (chr '.') s = true → j + 2 ≤ n - 1 →
      out = escapeLoop smtp n (j + 2) false s → motive (j + 2) false s out →
      motive j true (chr '.' :: s) (chr '.' :: (if smtp then chr '.' else chr ' ') :: out))
    (byte : ∀ j line_start b s out, j < n - 1 → escapes smtp line_start b s = false →
      out = escapeLoop smtp n (j + 1) (b == chr '\n') s → motive (j + 1) (b == chr '\n') s out →
      motive j line_start (b :: s) (b :: out))
    (j : ℕ) (line_start : Bool) (s : Bytes) :
    motive j line_start s (escapeLoop smtp n j line_start s) := by
  induction s generalizing j line_start with
  | nil => exact done j line_start
  | cons b s ih =>
    rw [escapeLoop_cons]
    by_cases hj : j < n - 1
    case neg =>
      rw [if_neg hj]
      exact full j line_start b s hj
    case pos =>
      rw [if_pos hj]
      cases hesc : escapes smtp line_start b s with
      | false =>
        rw [if_neg Bool.false_ne_true]
        exact byte j line_start b s _ hj hesc rfl (ih _ _)
      | true =>
        obtain ⟨rfl, rfl, -⟩ := escapes_iff.mp hesc
        rw [if_pos rfl]
        by_cases hroom : j + 2 > n - 1
        case pos =>
          rw [if_pos hroom]
          exact cut j s hj hesc hroom
        case neg =>
          rw [if_neg hroom]
          exact dot j s _ hesc (Nat.le_of_not_lt hroom) rfl (ih _ _)

theorem length_escapeLoop_le (hj : j ≤ n - 1) :
    j + (escapeLoop smtp n j line_start s).length ≤ n - 1 := by
  induction j, line_start, s using escapeLoopRec smtp n with
  | done j line_start => exact hj
  | full j line_start b s _ => exact hj
  | cut j s _ _ _ => exact hj
  | dot j s out _ hroom hout ih =>
    have := ih hroom
    simp only [length_cons]
    omega
  | byte j line_start b s out hlt _ hout ih =>
    have := ih hlt
    rw [length_cons]
    omega

theorem zero_notMem_escapeLoop (hs : 0 ∉ s) : 0 ∉ escapeLoop smtp n j line_start s := by
  induction j, line_start, s using escapeLoopRec smtp n with
  | done j line_start => exact not_mem_nil
  | full j line_start b s _ => exact not_mem_nil
  | cut j s _ _ _ => exact not_mem_nil
  | dot j s out _ _ _ ih =>
    rw [mem_cons, not_or] at hs
    have hspace : (0 : UInt8) ≠ if smtp then chr '.' else chr ' ' := by
      cases smtp with
      | true => decide
      | false => decide
    simp only [mem_cons, not_or]
    exact ⟨by decide, hspace, ih hs.2⟩
  | byte j line_start b s out _ _ _ ih =>
    rw [mem_cons, not_or] at hs ⊢
    exact ⟨hs.1, ih hs.2⟩

theorem fits (hn : 0 < n) (hbody : 0 ∉ body) :
    Fits n (mailEscapeBodyDots (some body) n smtp) (escapeLoop smtp n 0 true body) where
  dst_eq := if_neg hn.ne'
  terminated := zero_notMem_escapeLoop hbody
  length_le := by
    have hlen : 0 + (escapeLoop smtp n 0 true body).length ≤ n - 1 :=
      length_escapeLoop_le (Nat.zero_le _)
    rw [mailEscapeBodyDots, if_neg hn.ne', length_append, length_singleton]
    omega

theorem Fits.eq {dst out' : Bytes} (h : Fits n dst out) (h' : Fits n dst out') : out = out' :=
  append_cancel_right (h.dst_eq.symm.trans h'.dst_eq)

/-! ## For a server -/

theorem ne_dot_of_escapes (h : escapes true line_start b s = false) :
    line_start = true → b ≠ chr '.' := by
  rintro rfl rfl
  rw [escapes_iff.mpr ⟨rfl, rfl, .inl rfl⟩] at h
  cases h

/-- What the text of the rest of a body is promised. -/
structure Stuffed (line_start : Bool) (out s : Bytes) : Prop where
  stuffed : ∀ line ∈ linesFrom line_start out, line.head? = some (chr '.') → lit ".." <+: line
  unstuff_prefix : unstuffFrom line_start out <+: s

theorem stuffed_nil (line_start : Bool) (s : Bytes) : Stuffed line_start [] s where
  stuffed line hline := by
    have hnil : line = [] := by
      cases line_start with
      | true => exact mem_singleton.mp hline
      | false => cases hline
    intro hhead
    rw [hnil] at hhead
    cases hhead
  unstuff_prefix := by
    rw [unstuffFrom_nil]
    exact List.nil_prefix

theorem stuffed_escapeLoop (n j : ℕ) (line_start : Bool) (s : Bytes) :
    Stuffed line_start (escapeLoop true n j line_start s) s := by
  induction j, line_start, s using escapeLoopRec true n with
  | done j line_start => exact stuffed_nil _ _
  | full j line_start b s _ => exact stuffed_nil _ _
  | cut j s _ _ _ => exact stuffed_nil _ _
  | dot j s out _ _ _ ih =>
    constructor
    · intro line hline _
      rw [linesFrom_true_cons (by decide), linesFrom_false_cons (by decide), mem_cons] at hline
      obtain rfl | hline := hline
      · rw [if_pos rfl, firstLine_cons (by decide)]
        exact ⟨firstLine out, rfl⟩
      · exact ih.stuffed line hline ‹_›
    · -- the server takes off the dot that was written first
      rw [unstuffFrom_dot, if_pos rfl, unstuffFrom_cons (by decide) (by decide)]
      exact (prefix_cons_inj _).mpr ih.unstuff_prefix
  | byte j line_start b s out _ hesc _ ih =>
    by_cases hb : b = chr '\n'
    case pos =>
      obtain rfl := hb
      constructor
      · intro line hline hhead
        rw [linesFrom_newline, mem_append] at hline
        obtain hline | hline := hline
        · cases line_start with
          | false => cases hline
          | true =>
            rw [mem_singleton.mp hline] at hhead
            cases hhead
        · exact ih.stuffed line hline hhead
      · rw [unstuffFrom_newline]
        exact (prefix_cons_inj _).mpr ih.unstuff_prefix
    case neg =>
      rw [beq_eq_false_iff_ne.mpr hb] at ih
      have hdot := ne_dot_of_escapes hesc
      constructor
      · intro line hline hhead
        cases line_start with
        | false =>
          rw [linesFrom_false_cons hb] at hline
          exact ih.stuffed line hline hhead
        | true =>
          rw [linesFrom_true_cons hb, mem_cons] at hline
          obtain rfl | hline := hline
          · exact absurd (Option.some.inj hhead) (hdot rfl)
          · exact ih.stuffed line hline hhead
      · rw [unstuffFrom_cons hb hdot]
        exact (prefix_cons_inj _).mpr ih.unstuff_prefix

/-- With room for two bytes for each byte, the loop does not stop. -/
theorem unstuffFrom_escapeLoop (h : j + 2 * s.length < n) :
    unstuffFrom line_start (escapeLoop true n j line_start s) = s := by
  induction j, line_start, s using escapeLoopRec true n with
  | done j line_start => exact unstuffFrom_nil _
  | full j line_start b s hfull =>
    rw [length_cons] at h
    omega
  | cut j s _ _ hroom =>
    rw [length_cons] at h
    omega
  | dot j s out _ _ _ ih =>
    rw [length_cons] at h
    rw [unstuffFrom_dot, if_pos rfl, unstuffFrom_cons (by decide) (by decide), ih (by omega)]
  | byte j line_start b s out _ hesc _ ih =>
    rw [length_cons] at h
    by_cases hb : b = chr '\n'
    case pos =>
      obtain rfl := hb
      rw [unstuffFrom_newline]
      exact congrArg _ (ih (by omega))
    case neg =>
      rw [beq_eq_false_iff_ne.mpr hb] at ih
      have hdot := ne_dot_of_escapes hesc
      rw [unstuffFrom_cons hb hdot, ih (by omega)]

theorem smtpForm (n : ℕ) (body : Bytes) : SmtpForm n body (escapeLoop true n 0 true body) := by
  have hstuffed := stuffed_escapeLoop n 0 true body
  constructor
  · rintro line hline (rfl | rfl)
    · exact absurd (hstuffed.stuffed _ hline rfl) (by decide)
    · exact absurd (hstuffed.stuffed _ hline rfl) (by decide)
  · exact hstuffed.stuffed
  · rw [unstuff_eq]
    exact hstuffed.unstuff_prefix
  · intro h
    rw [unstuff_eq]
    apply unstuffFrom_escapeLoop
    omega

/-! ## For a program -/

/-- `CutAtDot`, for the rest of a body that is written from `dst[j]` on. -/
def CutFrom (n j : ℕ) (line_start : Bool) (s : Bytes) : Prop :=
  ∃ l b r, s = l ++ chr '.' :: b :: r ∧
    (l = [] ∧ line_start = true ∨ ∃ l', l = l' ++ [chr '\n']) ∧
    b ≠ chr '\r' ∧ b ≠ chr '\n' ∧ j + l.length + loneDots line_start l + 2 = n

theorem cutFrom_iff : CutFrom n 0 true s ↔ CutAtDot n s := by
  simp only [CutFrom, CutAtDot, and_true, zero_add]

theorem loneDots_nil (line_start : Bool) : loneDots line_start [] = 0 := by
  cases line_start with
  | true => rfl
  | false => rfl

/-- A line that starts here gets a space when its dot is escaped. -/
theorem loneDots_cons (hs : 0 ∉ s) :
    loneDots line_start (b :: s) =
      (if escapes false line_start b s then 1 else 0) + loneDots (b == chr '\n') s := by
  by_cases hb : b = chr '\n'
  case pos =>
    obtain rfl := hb
    have hesc : escapes false line_start (chr '\n') s = false := by
      rw [← Bool.not_eq_true, escapes_iff]
      exact fun h => absurd h.2.1 (by decide)
    rw [loneDots, linesFrom_newline, countP_append, hesc]
    cases line_start with
    | true => rfl
    | false => rfl
  case neg =>
    rw [beq_eq_false_iff_ne.mpr hb]
    cases line_start with
    | false =>
      rw [loneDots, linesFrom_false_cons hb, if_neg (by simp [escapes_iff]), zero_add, loneDots]
    | true =>
      rw [loneDots, linesFrom_true_cons hb, countP_cons, add_comm]
      congr 2
      rw [eq_iff_iff, escapes_iff]
      cases s with
      | nil => simp [firstLine, lit]
      | cons c s =>
        rw [mem_cons, not_or] at hs
        by_cases hc : c = chr '\n'
        case pos =>
          obtain rfl := hc
          rw [firstLine_newline]
          simp [lit]
        case neg =>
          rw [firstLine_cons hc]
          simp [lit, hc, Ne.symm hs.1, @eq_comm _ _ b, @eq_comm _ _ c]

/-- The dot where the buffer is full is the first byte, or it comes later. -/
theorem cutFrom_cons (hs : 0 ∉ s) :
    CutFrom n j line_start (b :: s) ↔
      (line_start = true ∧ b = chr '.' ∧ j + 2 = n ∧
        ∃ c r, s = c :: r ∧ c ≠ chr '\r' ∧ c ≠ chr '\n') ∨
      CutFrom n (j + (if escapes false line_start b s then 2 else 1)) (b == chr '\n') s := by
  -- what is in front of the dot begins with `b`, and the same byte follows in both texts
  have hlone : ∀ l : Bytes, ∀ c r, s = l ++ chr '.' :: c :: r → (l = [] → b = chr '\n') →
      loneDots line_start (b :: l) =
        (if escapes false line_start b s then 1 else 0) + loneDots (b == chr '\n') l := by
    rintro l c r rfl hl
    have hzero : 0 ∉ l := fun h => hs (mem_append_left _ h)
    rw [loneDots_cons hzero]
    cases l with
    | cons d l => rfl
    | nil =>
      have hdot : ∀ t : Bytes, escapes false line_start b t = false := fun t => by
        rw [← Bool.not_eq_true, escapes_iff, hl rfl]
        exact fun h => absurd h.2.1 (by decide)
      rw [hdot, hdot]
  constructor
  · rintro ⟨l, c, r, heq, hstart, hr, hn, hfull⟩
    cases l with
    | nil =>
      obtain ⟨rfl, rfl⟩ := List.cons.inj heq
      rw [loneDots_nil, length_nil] at hfull
      refine .inl ⟨?_, rfl, hfull, c, r, rfl, hr, hn⟩
      obtain ⟨-, h⟩ | ⟨l', h⟩ := hstart
      · exact h
      · exact absurd h.symm (append_ne_nil_of_right_ne_nil l' (cons_ne_nil _ _))
    | cons d l =>
      obtain ⟨rfl, rfl⟩ := List.cons.inj heq
      obtain ⟨h, -⟩ | ⟨l', h⟩ := hstart
      · cases h
      · have hl : l = [] → b = chr '\n' := by
          rintro rfl
          have hlast := congrArg List.getLast? h
          rw [getLast?_append] at hlast
          exact Option.some.inj hlast
        rw [hlone l c r rfl hl, length_cons] at hfull
        refine .inr ⟨l, c, r, rfl, ?_, hr, hn, ?_⟩
        · cases l' with
          | nil =>
            obtain ⟨rfl, rfl⟩ := List.cons.inj h
            exact .inl ⟨rfl, beq_self_eq_true _⟩
          | cons d' l' => exact .inr ⟨l', (List.cons.inj h).2⟩
        · split_ifs at hfull ⊢
          · omega
          · omega
  · rintro (⟨rfl, rfl, hfull, c, r, rfl, hr, hn⟩ | ⟨l, c, r, rfl, hstart, hr, hn, hfull⟩)
    · exact ⟨[], c, r, rfl, .inl ⟨rfl, rfl⟩, hr, hn, by rw [loneDots_nil]; exact hfull⟩
    · have hl : l = [] → b = chr '\n' := by
        rintro rfl
        obtain ⟨-, h⟩ | ⟨l', h⟩ := hstart
        · exact eq_of_beq h
        · exact absurd h.symm (append_ne_nil_of_right_ne_nil l' (cons_ne_nil _ _))
      refine ⟨b :: l, c, r, rfl, .inr ?_, hr, hn, ?_⟩
      · obtain ⟨rfl, -⟩ | ⟨l', rfl⟩ := hstart
        · exact ⟨[], by rw [hl rfl]; rfl⟩
        · exact ⟨b :: l', rfl⟩
      · rw [hlone l c r rfl hl, length_cons]
        split_ifs at hfull ⊢
        · omega
        · omega

theorem not_loneDot_nil : ¬LoneDot [] := by
  rintro (h | h)
  · cases h
  · cases h

/-- A dot that starts a line and has no escape: the line is done when the buffer is full. -/
theorem loneDot_byte_iff (hj : j < n - 1) (hesc : escapes false true b s = false) :
    LoneDot (b :: firstLine (escapeLoop false n (j + 1) false s)) ↔
      b = chr '.' ∧ j + 2 = n ∧ ∃ c r, s = c :: r ∧ c ≠ chr '\r' ∧ c ≠ chr '\n' := by
  by_cases hb : b = chr '.'
  case neg =>
    refine iff_of_false ?_ fun h => hb h.1
    rintro (h | h)
    · exact hb (List.cons.inj h).1
    · exact hb (List.cons.inj h).1
  case pos =>
    obtain rfl := hb
    have hnext : ¬(s.headD 0 = chr '\r' ∨ s.headD 0 = chr '\n' ∨ s.headD 0 = 0) := fun h => by
      rw [escapes_iff.mpr ⟨rfl, rfl, .inr h⟩] at hesc
      cases hesc
    cases s with
    | nil => exact absurd (.inr (.inr rfl)) hnext
    | cons c s =>
      simp only [headD_cons, not_or] at hnext
      rw [escapeLoop_cons]
      by_cases hroom : j + 1 < n - 1
      case pos =>
        -- the next byte is written, and it is none of a line that ends
        have hfree : escapes false false c s = false := rfl
        rw [if_pos hroom, hfree, if_neg Bool.false_ne_true, firstLine_cons hnext.2.1]
        refine iff_of_false ?_ fun h => by omega
        rintro (h | h)
        · cases h
        · exact hnext.1 (List.cons.inj (List.cons.inj h).2).1
      case neg =>
        rw [if_neg hroom]
        exact iff_of_true (.inl rfl) ⟨rfl, by omega, c, s, rfl, hnext.1, hnext.2.1⟩

/-- The text of the rest of a body has a line that ends it just where the buffer is full behind a
dot that has no escape. -/
theorem loneDot_iff (hn : 0 < n) (hs : 0 ∉ s) :
    (∃ line ∈ linesFrom line_start (escapeLoop false n j line_start s), LoneDot line) ↔
      CutFrom n j line_start s := by
  have hempty : ∀ ls, ¬∃ line ∈ linesFrom ls [], LoneDot line := by
    rintro (_ | _) ⟨line, hline, hdot⟩
    · cases hline
    · rw [mem_singleton.mp hline] at hdot
      exact not_loneDot_nil hdot
  induction j, line_start, s using escapeLoopRec false n with
  | done j line_start =>
    refine iff_of_false (hempty _) ?_
    rintro ⟨l, b, r, h, -⟩
    exact absurd h.symm (append_ne_nil_of_right_ne_nil l (cons_ne_nil _ _))
  | full j line_start b s hfull =>
    refine iff_of_false (hempty _) ?_
    rintro ⟨l, c, r, -, -, -, -, h⟩
    omega
  | cut j s _ hesc hroom =>
    rw [mem_cons, not_or] at hs
    refine iff_of_false (hempty _) ?_
    rw [cutFrom_cons hs.2, if_pos hesc]
    rintro (⟨-, -, -, c, r, rfl, hr, hnl⟩ | ⟨l, c, r, -, -, -, -, h⟩)
    · obtain ⟨-, -, h | h | h | h⟩ := escapes_iff.mp hesc
      · cases h
      · exact hr h
      · exact hnl h
      · exact hs.2 (h ▸ mem_cons_self)
    · omega
  | dot j s out hesc hroom _ ih =>
    rw [mem_cons, not_or] at hs
    rw [cutFrom_cons hs.2, if_pos hesc, if_neg Bool.false_ne_true,
      linesFrom_true_cons (by decide), linesFrom_false_cons (by decide), firstLine_cons (by decide)]
    have hspace : ¬LoneDot (chr '.' :: chr ' ' :: firstLine out) := by
      rintro (h | h)
      · cases h
      · cases h
    have hlater : ¬∃ c r, s = c :: r ∧ c ≠ chr '\r' ∧ c ≠ chr '\n' := by
      rintro ⟨c, r, rfl, hr, hnl⟩
      obtain ⟨-, -, h | h | h | h⟩ := escapes_iff.mp hesc
      · cases h
      · exact hr h
      · exact hnl h
      · exact hs.2 (h ▸ mem_cons_self)
    simp only [exists_mem_cons_iff, hspace, hlater, false_or, and_false]
    exact ih hs.2
  | byte j line_start b s out hlt hesc hout ih =>
    rw [mem_cons, not_or] at hs
    have hrest : CutFrom n (j + 1) (b == chr '\n') s ↔
        ∃ line ∈ linesFrom (b == chr '\n') out, LoneDot line := (ih hs.2).symm
    rw [cutFrom_cons hs.2, hesc, if_neg Bool.false_ne_true, hrest]
    by_cases hb : b = chr '\n'
    case pos =>
      obtain rfl := hb
      have hstart : ¬∃ line ∈ (if line_start then [[]] else []), LoneDot line := by
        cases line_start with
        | true => exact hempty true
        | false => exact hempty false
      have hne : ¬chr '\n' = chr '.' := by decide
      rw [linesFrom_newline]
      simp only [mem_append, or_and_right, exists_or, hstart, hne, false_and, and_false,
        false_or, beq_self_eq_true]
    case neg =>
      rw [beq_eq_false_iff_ne.mpr hb] at hout ⊢
      cases line_start with
      | false =>
        rw [linesFrom_false_cons hb]
        simp only [Bool.false_eq_true, false_and, false_or]
      | true =>
        rw [linesFrom_true_cons hb, exists_mem_cons_iff]
        apply or_congr_left
        rw [hout, loneDot_byte_iff hlt hesc]
        exact ⟨fun h => ⟨rfl, h⟩, And.right⟩

theorem smtpLaw (hn : 0 < n) (hbody : 0 ∉ body) : SmtpLaw n body :=
  ⟨_, fits hn hbody, smtpForm n body⟩

theorem pipeLaw_iff (hn : 0 < n) (hbody : 0 ∉ body) : PipeLaw n body ↔ ¬CutAtDot n body := by
  rw [← cutFrom_iff, ← loneDot_iff hn hbody]
  constructor
  · rintro ⟨out, hout, hlines⟩ ⟨line, hline, hdot⟩
    rw [(fits hn hbody).eq hout] at hline
    exact hlines line hline hdot
  · intro h
    exact ⟨_, fits hn hbody, fun line hline hdot => h ⟨line, hline, hdot⟩⟩

/-- **When no form of a body can be taken for the end**: unless the text for a program is cut off
behind a dot that starts a longer line. The text for a server is right in every buffer. -/
theorem escapeBodyDots_law (hn : 0 < n) (hbody : 0 ∉ body) :
    (SmtpLaw n body ∧ PipeLaw n body ↔ ¬CutAtDot n body) ∧ SmtpLaw n body := by
  have hsmtp := smtpLaw hn hbody
  refine ⟨?_, hsmtp⟩
  rw [pipeLaw_iff hn hbody]
  exact and_iff_right hsmtp

theorem escapeBodyDots_law_small :
    (SmtpLaw 6 (lit "ab\r\n.\r\n") ∧ PipeLaw 6 (lit "ab\r\n.\r\n") ↔
      ¬CutAtDot 6 (lit "ab\r\n.\r\n")) ∧ SmtpLaw 6 (lit "ab\r\n.\r\n") :=
  escapeBodyDots_law (by decide) (by decide)

/-- A word that starts with a dot, and a buffer for one byte of it. -/
theorem not_escapeBodyDots :
    0 ∉ lit ".x" ∧ ¬(SmtpLaw 2 (lit ".x") ∧ PipeLaw 2 (lit ".x")) := by
  refine ⟨by decide, ?_⟩
  rintro ⟨-, out, hout, hlines⟩
  have hdot : out = lit "." := append_cancel_right
    (hout.dst_eq.symm.trans (show mailEscapeBodyDots (some (lit ".x")) 2 false = lit "." ++ [0] by
      decide))
  obtain rfl := hdot
  exact hlines (lit ".") (by decide) (Or.inl rfl)

/-! ## What the daemon sends -/

theorem loneDots_le (hs : 0 ∉ s) : loneDots line_start s ≤ s.length := by
  induction s generalizing line_start with
  | nil => exact (loneDots_nil line_start).le
  | cons b s ih =>
    rw [mem_cons, not_or] at hs
    have : loneDots (b == chr '\n') s ≤ s.length := ih hs.2
    rw [loneDots_cons hs.2, length_cons]
    split_ifs
    · omega
    · omega

theorem not_cutAtDot (hbody : 0 ∉ body) (hn : 2 * body.length < n) : ¬CutAtDot n body := by
  rintro ⟨l, b, r, rfl, -, -, -, h⟩
  have hlone : loneDots true l ≤ l.length := loneDots_le fun h => hbody (mem_append_left _ h)
  simp only [length_append, length_cons] at hn
  omega

/-- No body ends its mail, and a server has the body again. -/
theorem mailSendBody_law (hbody : 0 ∉ body) :
    (∀ smtp, ∀ line ∈ (mailSendBody smtp body).splitOn (chr '\n'), ¬LoneDot line) ∧
      unstuff (mailSendBody true body) = body := by
  have hn : 0 < 2 * body.length + 1 := Nat.succ_pos _
  have hsend : ∀ smtp out,
      Fits (2 * body.length + 1) (mailEscapeBodyDots (some body) (2 * body.length + 1) smtp) out →
      mailSendBody smtp body = out := fun smtp out h => by
    rw [mailSendBody, h.dst_eq]
    exact str_append_zero (fun b hb hzero => h.terminated (hzero ▸ hb)) []
  obtain ⟨out, hout, hform⟩ := smtpLaw hn hbody
  obtain ⟨out', hout', hlines⟩ :=
    (pipeLaw_iff hn hbody).mpr (not_cutAtDot hbody (Nat.lt_succ_self _))
  constructor
  · rintro (_ | _)
    · rw [hsend false out' hout']
      exact hlines
    · rw [hsend true out hout]
      exact hform.no_loneDot
  · rw [hsend true out hout]
    exact hform.whole (Nat.lt_succ_self _)

theorem mailSendBody_law_quit : unstuff (mailSendBody true (lit ".\nQUIT")) = lit ".\nQUIT" :=
  (mailSendBody_law (by decide)).2

end Maild
