import OssecHids.Analysisd.SyslogHeader

/-!
# Headers of asl

The entries behind the date of an asl log, as a text, against what is read in the buffer. The names
are cut in the buffer that the log is in, so that a log that is no entry itself is cut with them.

- `aslRead`: what the entries say, and whether the log is kept;
- `aslKeeps`: which logs are kept;
- `tokens_aslHeader_iff`: what is read of the entries.
-/

open CString Buffer List Option

namespace CleanEvent

/-! ## Texts -/

/-- The entry that a text behind a `[` is, and what is behind its key. -/
def aslEntry (sender done : Bool) (s : Bytes) : Option (AslEntry × Bytes) :=
  if sender = false ∧ (lit "Sender ").isPrefixOf s then some (.sender, s.drop 7)
  else if done = false ∧ (lit "Message ").isPrefixOf s then some (.message, s.drop 8)
  else if (lit "Host ").isPrefixOf s then some (.host, s.drop 5)
  else none

/-- The next entry of a text. -/
def nextEntry (sender done : Bool) : Bytes → Option (AslEntry × Bytes)
  | [] => none
  | b :: s =>
    if b = chr '[' then
      match aslEntry sender done s with
      | some entry => some entry
      | none => nextEntry sender done s
    else nextEntry sender done s

/-- What at most `n` entries say; the second value tells whether no terminator was written in the
log. Behind the message that is the log, none is. -/
def aslRead : ℕ → Tokens → Bool → Bool → Bytes → Tokens × Bool
  | 0, tokens, _, kept, _ => (tokens, kept)
  | n + 1, tokens, done, kept, s =>
    match nextEntry tokens.program_name.isSome done s with
    | none => (tokens, kept)
    | some (.sender, rest) =>
      match cutAt (chr ']') rest with
      | none => (tokens, kept)
      | some (name, behind) =>
        aslRead n { tokens with program_name := some name } done done behind
    | some (.message, rest) =>
      match cutAt (chr ']') rest with
      | none => ({ tokens with log := rest }, true)
      | some (log, behind) => aslRead n { tokens with log } true true behind
    | some (.host, rest) =>
      match cutAt (chr ']') rest with
      | none => (tokens, kept)
      | some (name, _) => ({ tokens with hostname := some name }, done)

/-- What the entries of a text say: one sender, one message and one host. -/
def aslTokens (s : Bytes) : Tokens := (aslRead 3 ⟨none, none, s⟩ false true s).1

/-- The entries leave the log alone: there is a message, and no host is closed in front of it, or
the first entry is not closed either. -/
def aslKeeps (s : Bytes) : Bool :=
  match nextEntry false false s with
  | none => true
  | some (.message, _) => true
  | some (.host, rest) => (cutAt (chr ']') rest).isNone
  | some (.sender, rest) =>
    match cutAt (chr ']') rest with
    | none => true
    | some (_, behind) =>
      match nextEntry true false behind with
      | some (.message, _) => true
      | _ => false

variable {buf s rest : Bytes} {p : ℕ} {sender done kept : Bool} {tokens : Tokens}

/-- An entry that is found is none that was found before. -/
theorem nextEntry_spec {entry : AslEntry} (h : nextEntry sender done s = some (entry, rest)) :
    (sender = true → entry ≠ .sender) ∧ (done = true → entry ≠ .message) := by
  induction s with
  | nil => exact nomatch h
  | cons b s ih =>
    rw [nextEntry] at h
    split_ifs at h with hopen
    · cases hentry : aslEntry sender done s with
      | none =>
        rw [hentry] at h
        exact ih h
      | some found =>
        rw [hentry] at h
        cases h
        rw [aslEntry] at hentry
        split_ifs at hentry with hsender hmessage
        all_goals cases hentry
        · exact ⟨fun h => absurd (h.symm.trans hsender.1) (by decide), fun _ => by decide⟩
        · exact ⟨fun _ => by decide, fun h => absurd (h.symm.trans hmessage.1) (by decide)⟩
        · exact ⟨fun _ => by decide, fun _ => by decide⟩
    · exact ih h

/-- Behind the message nothing cuts the log. -/
theorem aslRead_done (n : ℕ) : (aslRead n tokens true true s).2 = true := by
  induction n generalizing tokens s with
  | zero => rfl
  | succ n ih =>
    rw [aslRead]
    rcases hentry : nextEntry tokens.program_name.isSome true s with - | ⟨entry, rest⟩
    · rfl
    · cases entry with
      | sender =>
        dsimp only
        cases cutAt (chr ']') rest with
        | none => rfl
        | some cut => exact ih
      | message => exact absurd rfl ((nextEntry_spec hentry).2 rfl)
      | host =>
        dsimp only
        cases cutAt (chr ']') rest <;> rfl

/-- Which logs are kept. -/
theorem aslRead_eq_aslKeeps : (aslRead 3 ⟨none, none, s⟩ false true s).2 = aslKeeps s := by
  rw [aslRead, aslKeeps]
  have hsome : (none : Option Bytes).isSome = false := rfl
  rw [hsome]
  rcases nextEntry false false s with - | ⟨entry, rest⟩
  · rfl
  cases entry with
  | sender =>
    dsimp only
    rcases cutAt (chr ']') rest with - | ⟨name, behind⟩
    · rfl
    dsimp only
    rw [aslRead]
    have hsome : (some name).isSome = true := rfl
    rw [hsome]
    rcases hentry : nextEntry true false behind with - | ⟨entry, rest⟩
    · rfl
    cases entry with
    | sender => exact absurd rfl ((nextEntry_spec hentry).1 rfl)
    | message =>
      dsimp only
      cases cutAt (chr ']') rest with
      | none => rfl
      | some cut => exact aslRead_done 1
    | host =>
      dsimp only
      cases cutAt (chr ']') rest <;> rfl
  | message =>
    dsimp only
    cases cutAt (chr ']') rest with
    | none => rfl
    | some cut => exact aslRead_done 2
  | host =>
    dsimp only
    cases cutAt (chr ']') rest <;> rfl

/-! ## Buffers -/

theorem chrAt_succ {b c : UInt8} (h : At buf p (b :: s)) (hb : b ≠ c) :
    chrAt buf p c = chrAt buf (p + 1) c := by
  have hzero : b ≠ 0 := h.ne_zero b mem_cons_self
  have hchr : strchr c (b :: s) = strchr c s := by rw [strchr, if_neg hb, if_neg hzero]
  rw [h.chrAt, h.tail.chrAt, hchr]
  cases hfind : strchr c s with
  | none => rfl
  | some r =>
    obtain ⟨front, behind, rfl, rfl, -⟩ := exists_of_strchr_eq_some hfind
    rw [map_some, map_some, ptrDiff, ptrDiff, length_cons, length_append]
    congr 2
    omega

theorem chrAt_none {c : UInt8} (h : At buf p s) (hcut : cutAt c s = none) :
    chrAt buf p c = some none := by
  rw [h.chrAt, map_eq_none_iff.mp hcut, map_none]

theorem chrAt_some {c : UInt8} {name behind : Bytes} (h : At buf p s)
    (hcut : cutAt c s = some (name, behind)) :
    chrAt buf p c = some (some (p + name.length)) ∧
      Cut buf (buf.set (p + name.length) 0) p (p + name.length) name behind ∧
      s.length = name.length + behind.length + 1 := by
  obtain ⟨rfl, hc⟩ := exists_of_cutAt_eq_some hcut
  have hfront : ∀ b ∈ name, b ≠ 0 := fun b hb => h.ne_zero b (mem_append_left _ hb)
  refine ⟨?_, exists_cut h, ?_⟩
  · rw [h.chrAt, strchr_append hc hfront, map_some, ptrDiff, length_append, Nat.add_sub_cancel]
  · rw [length_append, length_cons, add_assoc]

/-- The entry at an offset is the one of the text there. -/
theorem aslEntryAt_eq {header : Header} (h : At header.buf p s) :
    match aslEntry header.program_name.isSome done s with
    | none => aslEntryAt header done p = some none
    | some (entry, rest) => ∃ q, aslEntryAt header done p = some (some (entry, q)) ∧
        At header.buf q rest ∧ p < q := by
  have hsender : test (text (lit "Sender ")) header.buf p = _ :=
    h.test_text (forall_mem_of_all (by decide))
  have hmessage : test (text (lit "Message ")) header.buf p = _ :=
    h.test_text (forall_mem_of_all (by decide))
  have hhost : test (text (lit "Host ")) header.buf p = _ :=
    h.test_text (forall_mem_of_all (by decide))
  simp only [aslEntry, isSome_eq_false_iff, isNone_iff_eq_none, aslEntryAt,
    bind_eq_bind, hsender, hmessage, hhost, bind_some]
  have hkey : ∀ t : Bytes, t.isPrefixOf s = true → t.length ≤ s.length := fun t ht =>
    (List.isPrefixOf_iff_prefix.mp ht).length_le
  split_ifs with h1 h2 h3
  · exact ⟨p + 7, rfl, h.drop (hkey (lit "Sender ") h1.2), by omega⟩
  · exact ⟨p + 8, rfl, h.drop (hkey (lit "Message ") h2.2), by omega⟩
  · exact ⟨p + 5, rfl, h.drop (hkey (lit "Host ") h3), by omega⟩
  · rfl

/-- The loop from an offset on. -/
def aslFrom (fuel : ℕ) (header : Header) (done : Bool) (p : ℕ) : Option Header :=
  (chrAt header.buf p (chr '[')).bind (aslLoop fuel header done)

/-- Entries of other kinds are passed. -/
theorem aslFrom_eq {header : Header} {fuel : ℕ} (h : At header.buf p s) (hfuel : s.length < fuel) :
    match nextEntry header.program_name.isSome done s with
    | none => aslFrom fuel header done p = some header
    | some (entry, rest) => ∃ q fuel', At header.buf q rest ∧ p < q ∧ rest.length < fuel' ∧
        aslFrom fuel header done p = aslFound (aslLoop fuel') header done entry q := by
  induction s generalizing p fuel with
  | nil =>
    obtain ⟨fuel, rfl⟩ := Nat.exists_eq_add_one.mpr hfuel
    rw [nextEntry, aslFrom, chrAt_none h rfl]
    rfl
  | cons b s ih =>
    by_cases hopen : b = chr '['
    · subst hopen
      obtain ⟨fuel, rfl⟩ := Nat.exists_eq_add_one.mpr (Nat.zero_lt_of_lt hfuel)
      have hfuel' : s.length < fuel := Nat.lt_of_succ_lt_succ hfuel
      have hfound : chrAt header.buf p (chr '[') = some (some p) := by
        rw [h.chrAt, strchr, if_pos rfl, map_some, ptrDiff, Nat.sub_self]
        rfl
      have hentry := @aslEntryAt_eq s (p + 1) done header h.tail
      rw [nextEntry, if_pos rfl, aslFrom, hfound, bind_some]
      cases haslEntry : aslEntry header.program_name.isSome done s with
      | none =>
        rw [haslEntry] at hentry
        have hstep : aslLoop (fuel + 1) header done (some p) =
            aslFrom fuel header done (p + 1) := by
          rw [aslLoop, hentry]
          rfl
        rw [hstep]
        have hrest := ih h.tail hfuel'
        cases hnext : nextEntry header.program_name.isSome done s with
        | none =>
          rw [hnext] at hrest
          exact hrest
        | some entry =>
          rw [hnext] at hrest
          obtain ⟨q, fuel', hat, hlt, hle, heq⟩ := hrest
          exact ⟨q, fuel', hat, Nat.lt_of_succ_lt hlt, hle, heq⟩
      | some entry =>
        rw [haslEntry] at hentry
        obtain ⟨q, hq, hat, hlt⟩ := hentry
        have hlen := hat.length_eq.symm.trans h.tail.length_eq
        refine ⟨q, fuel, hat, by omega, by omega, ?_⟩
        rw [aslLoop, hq]
        rfl
    · have hsame : aslFrom fuel header done p = aslFrom fuel header done (p + 1) := by
        rw [aslFrom, aslFrom, chrAt_succ h hopen]
      have hrest := ih h.tail (Nat.lt_of_succ_lt hfuel)
      rw [nextEntry, if_neg hopen, hsame]
      cases hnext : nextEntry header.program_name.isSome done s with
      | none =>
        rw [hnext] at hrest
        exact hrest
      | some entry =>
        rw [hnext] at hrest
        obtain ⟨q, fuel', hat, hlt, hle, heq⟩ := hrest
        exact ⟨q, fuel', hat, Nat.lt_of_succ_lt hlt, hle, heq⟩

/-! ## Reading the entries -/

/-- The text of the log while the entries behind an offset are read: it is the message, it is there
up to its end, or it was cut in front of the offset. -/
def LogState (done kept : Bool) (buf : Bytes) (log p : ℕ) (text : Bytes) : Prop :=
  if done then
    kept = true ∧ ∀ buf', buf'.take p = buf.take p → stringAt buf' log = some text
  else if kept then At buf log text ∧ log ≤ p
  else ∃ l, l.length < text.length ∧
    ∀ buf', buf'.take p = buf.take p → stringAt buf' log = some l

/-- A program that was found in front of an offset. -/
def ProgramState (buf : Bytes) (program_name : Option ℕ) (p : ℕ) (name : Option Bytes) : Prop :=
  ∀ buf', buf'.take p = buf.take p → nameAt buf' program_name = some name

theorem ProgramState.isSome_eq {program_name : Option ℕ} {name : Option Bytes}
    (h : ProgramState buf program_name p name) : program_name.isSome = name.isSome := by
  have hname := h buf rfl
  cases program_name with
  | none => cases hname; rfl
  | some q =>
    obtain ⟨l, -, rfl⟩ := map_eq_some_iff.mp hname
    rfl

theorem take_eq_of_le {buf buf' : Bytes} {p q : ℕ} (hle : p ≤ q) (h : buf'.take q = buf.take q) :
    buf'.take p = buf.take p := by
  have htake := congrArg (List.take p) h
  rwa [take_take, take_take, min_eq_left hle] at htake

/-- What is written behind an offset changes nothing that was found in front of it. -/
theorem take_set_of_take {buf buf' : Bytes} {p c q : ℕ} (hc : p ≤ c) (hq : p ≤ q)
    (h : buf'.take q = (buf.set c 0).take q) : buf'.take p = buf.take p :=
  (take_eq_of_le hq h).trans (take_set_of_le hc)

theorem ProgramState.cut {program_name : Option ℕ} {name : Option Bytes} {c : ℕ}
    (h : ProgramState buf program_name p name) (hle : p ≤ c) :
    ProgramState (buf.set c 0) program_name (c + 1) name := fun buf' htake =>
  h buf' (take_set_of_take hle (by omega) htake)

/-- A terminator behind the start of the log cuts it, unless it is the message. -/
theorem LogState.cut {log c : ℕ} {text : Bytes} (h : LogState done kept buf log p text)
    (hle : p ≤ c) (hat : At (buf.set c 0) (c + 1) rest) :
    LogState done done (buf.set c 0) log (c + 1) text := by
  cases done with
  | true => exact ⟨rfl, fun buf' htake => h.2 buf' (take_set_of_take hle (by omega) htake)⟩
  | false =>
    cases kept with
    | true =>
      obtain ⟨htext, hlog⟩ := h
      have hlen := hat.length_eq
      rw [length_set, htext.length_eq] at hlen
      have hcut := htext.stringAt_set_take (hlog.trans hle) (by omega)
      refine ⟨text.take (c - log), ?_, fun buf' htake => stringAt_of_take hcut ?_ htake⟩
      · rw [length_take]
        omega
      · rw [length_take]
        omega
    | false =>
      obtain ⟨l, hlt, hl⟩ := h
      exact ⟨l, hlt, fun buf' htake => hl buf' (take_set_of_take hle (by omega) htake)⟩

/-- What was read, when the loop is over. -/
def ReadAs (header : Header) (read : Tokens × Bool) : Prop :=
  ∃ log, header.tokens = some { read.1 with log } ∧
    if read.2 then log = read.1.log else log.length < read.1.log.length

theorem readAs_of_state {header : Header} (tokens : Tokens)
    (hlog : LogState done kept header.buf header.log p tokens.log)
    (hprogram : ProgramState header.buf header.program_name p tokens.program_name)
    (hhost : nameAt header.buf header.hostname = some tokens.hostname) :
    ReadAs header (tokens, kept) := by
  obtain ⟨log, hstring, hlen⟩ : ∃ log, stringAt header.buf header.log = some log ∧
      if kept then log = tokens.log else log.length < tokens.log.length := by
    cases done with
    | true =>
      obtain ⟨rfl, htext⟩ := hlog
      exact ⟨tokens.log, htext header.buf rfl, rfl⟩
    | false =>
      cases kept with
      | true => exact ⟨tokens.log, hlog.1.stringAt, rfl⟩
      | false =>
        obtain ⟨l, hlt, hl⟩ := hlog
        exact ⟨l, hl header.buf rfl, hlt⟩
  refine ⟨log, ?_, hlen⟩
  rw [Header.tokens, hstring, hprogram header.buf rfl, hhost]
  rfl

/-- How many entries are still looked for. -/
def entriesLeft (sender done : Bool) : ℕ := (!sender).toNat + (!done).toNat + 1

/-- What the loop reads is what the entries say. -/
theorem aslFrom_readAs {n : ℕ} {header : Header} {fuel : ℕ}
    (hn : entriesLeft tokens.program_name.isSome done ≤ n) (h : At header.buf p s)
    (hfuel : s.length < fuel) (hlog : LogState done kept header.buf header.log p tokens.log)
    (hprogram : ProgramState header.buf header.program_name p tokens.program_name)
    (hhost : header.hostname = none ∧ tokens.hostname = none) :
    ∃ header', aslFrom fuel header done p = some header' ∧
      ReadAs header' (aslRead n tokens done kept s) := by
  induction n generalizing header tokens done kept p s fuel with
  | zero => cases hn
  | succ n ih =>
    have hname : nameAt header.buf header.hostname = some tokens.hostname := by
      rw [hhost.1, hhost.2]
      rfl
    have hloop := @aslFrom_eq s p done header fuel h hfuel
    rw [hprogram.isSome_eq] at hloop
    rw [aslRead]
    rcases hentry : nextEntry tokens.program_name.isSome done s with - | ⟨entry, rest⟩
    · rw [hentry] at hloop
      exact ⟨header, hloop, readAs_of_state tokens hlog hprogram hname⟩
    rw [hentry] at hloop
    obtain ⟨q, fuel', hat, hlt, hfuel', hloop⟩ := hloop
    have hnot := nextEntry_spec hentry
    rw [hloop]
    cases entry with
    | sender =>
      dsimp only
      cases hcut : cutAt (chr ']') rest with
      | none =>
        refine ⟨header, ?_, readAs_of_state tokens hlog hprogram hname⟩
        simp only [aslFound, bind_eq_bind, chrAt_none hat hcut, bind_some]
        rfl
      | some cut =>
        obtain ⟨name, behind⟩ := cut
        obtain ⟨hchr, hset, hlen⟩ := chrAt_some hat hcut
        have hnone : tokens.program_name.isSome = false :=
          Bool.eq_false_iff.mpr fun h => hnot.1 h rfl
        have hcount : entriesLeft true done ≤ n := by
          rw [entriesLeft, hnone] at hn
          rw [entriesLeft]
          simp only [Bool.not_false, Bool.not_true, Bool.toNat_true, Bool.toNat_false] at hn ⊢
          omega
        have hfound : aslFound (aslLoop fuel') header done .sender q =
            aslFrom fuel'
              { header with buf := header.buf.set (q + name.length) 0, program_name := some q }
              done (q + name.length + 1) := by
          simp only [aslFound, bind_eq_bind, hchr, bind_some, hset.write_eq]
          rfl
        rw [hfound]
        refine @ih _ _ _ _ { tokens with program_name := some name } _ _ hcount hset.behind
          (by omega) (hlog.cut (by omega) hset.behind) (fun buf' htake => ?_) hhost
        exact nameAt_some (hset.stringAt_of_take htake)
    | message =>
      dsimp only
      cases hcut : cutAt (chr ']') rest with
      | none =>
        refine ⟨{ header with log := q }, ?_, ?_⟩
        · simp only [aslFound, bind_eq_bind, chrAt_none hat hcut, bind_some]
          rfl
        · have hread : LogState false true header.buf q q rest := ⟨hat, le_rfl⟩
          exact readAs_of_state { tokens with log := rest } hread
            (fun buf' htake => hprogram buf' (take_eq_of_le hlt.le htake)) hname
      | some cut =>
        obtain ⟨name, behind⟩ := cut
        obtain ⟨hchr, hset, hlen⟩ := chrAt_some hat hcut
        have hnone : done = false := Bool.eq_false_iff.mpr fun h => hnot.2 h rfl
        have hcount : entriesLeft tokens.program_name.isSome true ≤ n := by
          rw [entriesLeft, hnone] at hn
          rw [entriesLeft]
          simp only [Bool.not_false, Bool.not_true, Bool.toNat_true, Bool.toNat_false] at hn ⊢
          omega
        have hfound : aslFound (aslLoop fuel') header done .message q =
            aslFrom fuel' { header with buf := header.buf.set (q + name.length) 0, log := q } true
              (q + name.length + 1) := by
          simp only [aslFound, bind_eq_bind, hchr, bind_some, hset.write_eq]
          rfl
        rw [hfound]
        refine @ih _ _ _ _ { tokens with log := name } _ _ hcount hset.behind (by omega)
          ⟨rfl, fun buf' htake => ?_⟩ (hprogram.cut (by omega)) hhost
        exact hset.stringAt_of_take htake
    | host =>
      dsimp only
      cases hcut : cutAt (chr ']') rest with
      | none =>
        refine ⟨{ header with hostname := none }, ?_, readAs_of_state tokens hlog hprogram ?_⟩
        · simp only [aslFound, bind_eq_bind, chrAt_none hat hcut, bind_some]
          rfl
        · rw [hhost.2]
          rfl
      | some cut =>
        obtain ⟨name, behind⟩ := cut
        obtain ⟨hchr, hset, hlen⟩ := chrAt_some hat hcut
        refine ⟨{ header with buf := header.buf.set (q + name.length) 0, hostname := some q },
          ?_, ?_⟩
        · simp only [aslFound, bind_eq_bind, hchr, bind_some, hset.write_eq]
          rfl
        · exact readAs_of_state { tokens with hostname := some name }
            (hlog.cut (by omega) hset.behind) (hprogram.cut (by omega))
            (nameAt_some hset.stringAt_eq)

/-- What is read of the entries is what they say, unless one of them is closed in the log. -/
theorem tokens_aslHeader_iff (h : At buf p s) :
    ∃ tokens, (aslHeader buf p).bind Header.tokens = some tokens ∧
      (tokens = aslTokens s ↔ aslKeeps s = true) := by
  have hfuel : s.length < buf.length + 1 := by
    have hlen := h.length_eq
    omega
  obtain ⟨header, hheader, log, htokens, hlog⟩ := @aslFrom_readAs s p false true ⟨none, none, s⟩ 3
    ⟨buf, p, none, none⟩ (buf.length + 1) (Nat.le_refl 3) h hfuel ⟨h, le_rfl⟩ (fun _ _ => rfl)
    ⟨rfl, rfl⟩
  have hstart : aslHeader buf p = aslFrom (buf.length + 1) ⟨buf, p, none, none⟩ false p := rfl
  refine ⟨_, by rw [hstart, hheader, bind_some, htokens], ?_⟩
  rw [aslRead_eq_aslKeeps] at hlog
  cases hkeeps : aslKeeps s with
  | true =>
    rw [hkeeps] at hlog
    refine iff_of_true ?_ rfl
    rw [if_pos rfl] at hlog
    rw [hlog]
    rfl
  | false =>
    rw [hkeeps] at hlog
    refine iff_of_false (fun heq => ?_) Bool.false_ne_true
    rw [if_neg Bool.false_ne_true] at hlog
    exact hlog.ne (congrArg (fun tokens => tokens.log.length) heq)

/-! ## The message in the text -/

/-- The log is the rest of the text, or what an entry for a message says. -/
def IsLogOf (log whole : Bytes) : Prop :=
  log <:+ whole ∨ ∃ behind, lit "[Message " ++ (log ++ chr ']' :: behind) <:+ whole

end CleanEvent
