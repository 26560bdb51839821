import OssecHids.OsExecd.Timeout

/-!
# Repeated offenders

`ExecdConfig` reads a list of timeouts, and `repeated_hash` counts the blocks of a command, a user
and an address. Two functions count: `ExecdTimeoutDupCheck` for a block that goes on, and
`ExecdStart` for one that begins. They count under a text that is cut off.

- `execdConfig`: the array behind the timeouts has a zero;
- `Table`: what the hash has for a key that shares its text with no other one;
- `repeated_law`: the n-th block has the timeout with the number n - 2, or the last one.
-/

open CString KeyedList Transition List Option Function

/-- `OS_StrBreak`, for at most `n + 1` pieces. -/
def osStrBreak (match_ : UInt8) : ℕ → Bytes → List Bytes
  | 0, str => [str]
  | n + 1, str =>
    match cutAt match_ str with
    | none => [str]
    | some (piece, str) => piece :: osStrBreak match_ n str

namespace Execd

/-! ## The configured timeouts -/

/-- The loop of `ExecdConfig` over the pieces of the list. -/
def offendersConfig : List Bytes → ℕ → List Int32 → List Int32
  | [], _, repeated_offenders_timeout => repeated_offenders_timeout
  | piece :: pieces, j, repeated_offenders_timeout =>
    let tmpt := piece.dropWhile fun c => c == chr ' ' || c == chr '\t'
    if tmpt = [] then offendersConfig pieces j repeated_offenders_timeout
    else
      let array := (repeated_offenders_timeout.set j (Int32.ofInt (atoi tmpt))).set (j + 1) 0
      if j + 1 ≥ 6 then array else offendersConfig pieces (j + 1) array

/-- `repeated_offenders_timeout` after `ExecdConfig`, for the content of the element if there is
one. -/
def execdConfig (repeated_t : Option Bytes) : List Int32 :=
  repeated_t.elim (List.replicate 7 0) fun repeated_t =>
    offendersConfig (osStrBreak (chr ',') 4 repeated_t) 0 (List.replicate 7 0)

/-- The timeouts in front of the zero. -/
def timeouts (repeated_offenders_timeout : List Int32) : List Int32 :=
  repeated_offenders_timeout.takeWhile (· != 0)

variable {rot : List Int32}

theorem length_timeouts_ne_zero : (timeouts rot).length ≠ 0 ↔ rot.headD 0 ≠ 0 := by
  cases rot with
  | nil => simp [timeouts]
  | cons timeout rest =>
    rw [timeouts, takeWhile_cons]
    split_ifs with h
    · simpa using bne_iff_ne.mp h
    · simpa using h

theorem length_offendersConfig (pieces : List Bytes) (j : ℕ) :
    (offendersConfig pieces j rot).length = rot.length := by
  induction pieces generalizing j rot with
  | nil => rfl
  | cons piece pieces ih =>
    rw [offendersConfig]
    split_ifs
    · exact ih j
    · rw [length_set, length_set]
    · rw [ih, length_set, length_set]

theorem zero_mem_offendersConfig {pieces : List Bytes} {j : ℕ} (hlength : rot.length = 7)
    (hj : j < 6) (hzero : (0 : Int32) ∈ rot) : 0 ∈ offendersConfig pieces j rot := by
  induction pieces generalizing j rot with
  | nil => exact hzero
  | cons piece pieces ih =>
    have hset : ∀ timeout : Int32, 0 ∈ (rot.set j timeout).set (j + 1) 0 := fun timeout =>
      mem_iff_getElem.mpr ⟨j + 1, by rw [length_set, length_set]; omega,
        getElem_set_self _⟩
    rw [offendersConfig]
    split_ifs with hblank hfull
    · exact ih hlength hj hzero
    · exact hset _
    · exact ih (by rw [length_set, length_set, hlength]) (by omega) (hset _)

theorem zero_mem_execdConfig (repeated_t : Option Bytes) : 0 ∈ execdConfig repeated_t := by
  cases repeated_t with
  | none => decide
  | some repeated_t => exact zero_mem_offendersConfig rfl (by decide) (by decide)

theorem offendersLoop_eq {fuel i2 : ℕ} (hzero : 0 ∈ rot.drop i2)
    (hfuel : (rot.drop i2).length ≤ fuel) :
    offendersLoop rot fuel i2 = some (i2 + ((rot.drop i2).takeWhile (· != 0)).length) := by
  induction fuel generalizing i2 with
  | zero =>
    rw [length_eq_zero_iff.mp (Nat.le_zero.mp hfuel)] at hzero
    cases hzero
  | succ fuel ih =>
    have hi : i2 < rot.length := by
      by_contra hnot
      rw [drop_of_length_le (not_lt.mp hnot)] at hzero
      exact not_mem_nil hzero
    rw [drop_eq_getElem_cons hi] at hzero hfuel ⊢
    rw [offendersLoop, getElem?_eq_getElem hi, bind_some, takeWhile_cons]
    split_ifs with hnext
    · have hne : (0 : Int32) ≠ rot[i2] := (bne_iff_ne.mp hnext).symm
      rw [ih ((mem_cons.mp hzero).resolve_left hne) (Nat.le_of_succ_le_succ hfuel),
        length_cons, add_right_comm, add_assoc]
    · rfl

theorem offendersCount_eq (hzero : 0 ∈ rot) : offendersCount rot = some (timeouts rot).length := by
  rw [offendersCount, offendersLoop_eq (by rwa [drop_zero])
    (by rw [drop_zero]; exact Nat.le_succ _), drop_zero, zero_add]
  rfl

theorem arrayAt_eq {i : ℕ} (hi : i < (timeouts rot).length) :
    arrayAt rot i = some (timeouts rot)[i] := by
  have hprefix : timeouts rot <+: rot := List.takeWhile_prefix _
  rw [arrayAt, if_neg (by omega), Int.toNat_natCast]
  rw [getElem?_eq_getElem (lt_of_lt_of_le hi hprefix.length_le), hprefix.getElem]

theorem atoi_fmtD_natCast {m : ℕ} (hm : m < 2 ^ 31) : atoi (fmtD (m : ℤ)) = m := by
  have htoInt : (Int32.ofInt (m : ℤ)).toInt = m :=
    Int32.toInt_ofInt_of_le (by omega) (by omega)
  have h : atoi (fmtD (Int32.ofInt (m : ℤ)).toInt ++ []) = (Int32.ofInt (m : ℤ)).toInt :=
    atoi_fmtD_append (Int32.ofInt (m : ℤ)) rfl
  rwa [htoInt, append_nil] at h

/-- What is read and stored for an offender that has been counted `m` times. -/
theorem offenderTimeout_eq (hzero : 0 ∈ rot) {m : ℕ} (hm : m ≤ (timeouts rot).length)
    (hlength : (timeouts rot).length < 2 ^ 31) (hpos : 0 < (timeouts rot).length) :
    offenderTimeout rot (fmtD (m : ℤ)) =
      some ((timeouts rot)[min m ((timeouts rot).length - 1)] * 60,
        if m < (timeouts rot).length then some (fmtD ((m + 1 : ℕ) : ℤ)) else none) := by
  rw [offenderTimeout, offendersCount_eq hzero, bind_some, atoi_fmtD_natCast (by omega)]
  rcases lt_or_eq_of_le hm with hlt | heq
  · rw [if_neg (by omega), arrayAt_eq hlt, if_pos hlt]
    simp only [min_eq_left (Nat.le_sub_one_of_lt hlt), map_some]
    rfl
  · have hlast : ((timeouts rot).length : ℤ) - 1 = ((timeouts rot).length - 1 : ℕ) := by omega
    rw [if_pos (by omega), hlast, arrayAt_eq (by omega), if_neg (by omega)]
    simp only [heq, min_eq_right (Nat.sub_le _ 1), map_some]

/-! ## Counting -/

/-- A command, a user and an address. -/
abbrev Key := Option Bytes × Option Bytes × Option Bytes

/-- The text under which a key is counted. -/
def keyText (k : Key) : Bytes := rkey (k.1.getD []) (k.2.1.getD []) (k.2.2.getD [])

/-- An address does not begin with a minus. -/
def HasAddress (k : Key) : Prop := (k.2.2.getD []).headD 0 ≠ chr '-'

instance (k : Key) : Decidable (HasAddress k) := inferInstanceAs (Decidable (_ ≠ _))

/-- The key for which a block is started or extended. -/
def Event.blocked : Event → Option Key
  | .blocks timeout_args _ => some (key timeout_args)
  | _ => none

/-- The blocks of a run, in their order. -/
def blocked (past : List Event) : List Key := past.filterMap Event.blocked

/-- No other key that has been blocked is counted under the text of this one. -/
def Apart (ks : List Key) (k : Key) : Prop := ∀ k' ∈ ks, keyText k' = keyText k → k' = k

/-- The text that is stored for a key that has been blocked `n` times. -/
def counter (rot : List Int32) : ℕ → Option Bytes
  | 0 => none
  | n + 1 => some (fmtD (min n (timeouts rot).length : ℕ))

/-- The n-th block of a key that is counted alone has the timeout with the number n - 2, or the last
one, as far as an `int` can hold it in seconds. -/
def Nth (rot : List Int32) (ks : List Key) (k : Key) (time_to_block : Int32) : Prop :=
  0 < (timeouts rot).length → HasAddress k → Apart ks k →
    ∀ n, n = ks.count k + 1 → 2 ≤ n →
      ∃ timeout, (timeouts rot)[min (n - 2) ((timeouts rot).length - 1)]? = some timeout ∧
        (time_to_block.toInt = timeout.toInt * 60 ↔
          -2 ^ 31 ≤ timeout.toInt * 60 ∧ timeout.toInt * 60 < 2 ^ 31)

/-- What is to hold of every step. -/
structure RepeatedLaw (rot : List Int32) (ks : List Key) (s : State) (new : List Event)
    (s' : State) : Prop where
  /-- A block has the time that is said of it. -/
  set : ∀ timeout_args time_to_block, .blocks timeout_args time_to_block ∈ new →
    ∃ entry ∈ s'.timeout_list, entry.key = key timeout_args ∧
      entry.time_to_block = time_to_block
  /-- The other blocks have the time that they had. -/
  others : ∀ entry' ∈ s'.timeout_list, entry'.key ∉ blocked new →
    ∃ entry ∈ s.timeout_list, entry.command = entry'.command ∧
      entry.time_to_block = entry'.time_to_block
  nth : ∀ timeout_args time_to_block, .blocks timeout_args time_to_block ∈ new →
    Nth rot ks (key timeout_args) time_to_block

/-- What the hash has after the blocks of some keys. -/
structure Table (rot : List Int32) (ks : List Key) (table : RepeatedHash) : Prop where
  bounded : ∀ rkey ntimes, table rkey = some ntimes →
    ∃ m ≤ (timeouts rot).length, ntimes = fmtD (m : ℤ)
  counts : ∀ k, HasAddress k → Apart ks k → table (keyText k) = counter rot (ks.count k)

/-- What the hash and the list have to do with the blocks so far. -/
structure Counts (rot : List Int32) (past : List Event) (s : State) : Prop where
  zero : 0 ∈ rot
  length : (timeouts rot).length < 2 ^ 31
  off : s.repeated_hash = none ↔ (timeouts rot).length = 0
  table : ∀ table, s.repeated_hash = some table → Table rot (blocked past) table
  listed : ∀ entry ∈ s.timeout_list, entry.key ∈ blocked past

variable {ks : List Key} {k : Key} {table : RepeatedHash}

theorem Apart.mono {ks' : List Key} (h : Apart (ks ++ ks') k) : Apart ks k :=
  fun k' hk' => h k' (mem_append_left _ hk')

theorem toInt_mul_sixty (timeout : Int32) : (timeout * 60).toInt = timeout.toInt * 60 ↔
    -2 ^ 31 ≤ timeout.toInt * 60 ∧ timeout.toInt * 60 < 2 ^ 31 := by
  have hsixty : (60 : Int32).toInt = 60 := rfl
  rw [Int32.toInt_mul, hsixty]
  constructor
  · intro heq
    have hle := Int32.le_toInt (timeout * 60)
    have hlt := Int32.toInt_lt (timeout * 60)
    rw [Int32.toInt_mul, hsixty, heq] at hle hlt
    exact ⟨hle, hlt⟩
  · rintro ⟨hle, hlt⟩
    exact Int.bmod_eq_of_le (by omega) (by omega)

namespace Table

/-- What another block of a key makes of the hash, for every key that is counted alone. -/
theorem concat (h : Table rot ks table) {table' : RepeatedHash}
    (hbounded : ∀ rkey ntimes, table' rkey = some ntimes →
      ∃ m ≤ (timeouts rot).length, ntimes = fmtD (m : ℤ))
    (hother : ∀ text, text ≠ keyText k → table' text = table text)
    (hself : HasAddress k → Apart ks k → table' (keyText k) = counter rot (ks.count k + 1)) :
    Table rot (ks ++ [k]) table' where
  bounded := hbounded
  counts k' haddress hapart := by
    by_cases htext : keyText k = keyText k'
    · -- the key that shares the text is the same one
      obtain rfl := hapart k (by simp) htext
      rw [hself haddress hapart.mono, count_append, count_singleton_self]
    · rw [hother _ (Ne.symm htext), h.counts k' haddress hapart.mono, count_append,
        count_singleton, if_neg (fun heq => htext (by rw [beq_iff_eq.mp heq])), add_zero]

/-- A key that has not been counted is counted for the first time. -/
theorem first (h : Table rot ks table) (hnew : table (keyText k) = none) :
    Table rot (ks ++ [k]) (table.store (keyText k) (some (lit "0"))) := by
  refine h.concat (fun text ntimes htext => ?_) (fun text hne => update_of_ne hne _ _) ?_
  · by_cases heq : text = keyText k
    · rw [RepeatedHash.store, heq, update_self] at htext
      exact ⟨0, Nat.zero_le _, (some.inj htext).symm⟩
    · rw [RepeatedHash.store, update_of_ne heq] at htext
      exact h.bounded text ntimes htext
  · intro haddress hapart
    have hcount := h.counts k haddress hapart
    rw [hnew] at hcount
    cases hn : ks.count k with
    | zero =>
      rw [RepeatedHash.store, update_self, counter, Nat.zero_min]
      rfl
    | succ n =>
      rw [hn] at hcount
      exact absurd hcount (some_ne_none _).symm

/-- A key that has been counted is counted again, and gets the timeout that comes next. -/
theorem again (h : Table rot ks table) (hzero : 0 ∈ rot) (hlength : (timeouts rot).length < 2 ^ 31)
    (hpos : 0 < (timeouts rot).length) {ntimes : Bytes} (hold : table (keyText k) = some ntimes)
    {timeout : Int32} {stored : Option Bytes}
    (htimeout : offenderTimeout rot ntimes = some (timeout, stored)) :
    Table rot (ks ++ [k]) (table.store (keyText k) stored) ∧
      (HasAddress k → Apart ks k → ∃ r,
        (timeouts rot)[min (ks.count k - 1) ((timeouts rot).length - 1)]? = some r ∧
          timeout = r * 60) := by
  obtain ⟨m, hm, rfl⟩ := h.bounded _ _ hold
  rw [offenderTimeout_eq hzero hm hlength hpos] at htimeout
  cases htimeout
  -- the number that is stored is one less than the number of blocks, or that of the timeouts
  have hcount : HasAddress k → Apart ks k →
      ∃ n, ks.count k = n + 1 ∧ m = min n (timeouts rot).length := by
    intro haddress hapart
    have hcounter := h.counts k haddress hapart
    rw [hold] at hcounter
    cases hn : ks.count k with
    | zero =>
      rw [hn] at hcounter
      cases hcounter
    | succ n =>
      rw [hn, counter] at hcounter
      exact ⟨n, rfl, Int.natCast_inj.mp (fmtD_injective (some.inj hcounter))⟩
  refine ⟨h.concat (fun text ntimes htext => ?_) (fun text hne => ?_) ?_, ?_⟩
  · split_ifs at htext with hlt
    · by_cases heq : text = keyText k
      · rw [RepeatedHash.store, heq, update_self] at htext
        exact ⟨m + 1, hlt, (some.inj htext).symm⟩
      · rw [RepeatedHash.store, update_of_ne heq] at htext
        exact h.bounded text ntimes htext
    · exact h.bounded text ntimes htext
  · split_ifs
    · exact update_of_ne hne _ _
    · rfl
  · intro haddress hapart
    obtain ⟨n, hn, hmin⟩ := hcount haddress hapart
    rw [hn, counter]
    split_ifs with hlt
    · rw [RepeatedHash.store, update_self]
      congr 3
      omega
    · rw [RepeatedHash.store, hold]
      congr 3
      omega
  · intro haddress hapart
    obtain ⟨n, hn, hmin⟩ := hcount haddress hapart
    have hindex : min (ks.count k - 1) ((timeouts rot).length - 1) =
        min m ((timeouts rot).length - 1) := by omega
    rw [hindex]
    exact ⟨_, getElem?_eq_getElem (by omega), rfl⟩

theorem skip (h : Table rot ks table) (hlisted : k ∈ ks)
    (hskip : HasAddress k → table (keyText k) = none) : Table rot (ks ++ [k]) table := by
  refine h.concat h.bounded (fun _ _ => rfl) fun haddress hapart => ?_
  have hcounter := h.counts k haddress hapart
  rw [hskip haddress] at hcounter
  obtain ⟨n, hn⟩ := Nat.exists_eq_add_one.mpr (count_pos_iff.mpr hlisted)
  rw [hn] at hcounter
  exact absurd hcounter (some_ne_none _).symm

end Table

/-- What counting a block of a key comes to. -/
structure Counting (rot : List Int32) (ks : List Key) (k : Key) (time_to_block : Int32)
    (hash : Option RepeatedHash) : Prop where
  off : hash = none ↔ (timeouts rot).length = 0
  table : ∀ table, hash = some table → Table rot (ks ++ [k]) table
  nth : Nth rot ks k time_to_block

section Steps

variable {past new : List Event} {s s' : State} {time_to_block : Int32}
  {hash : Option RepeatedHash} {entry entry' : TimeoutData} {curr_time : ℤ}

/-- `ExecdStart` counts a block that begins. -/
theorem Counts.counted (h : Counts rot past s)
    (hcounted : Counted rot s.repeated_hash (keyText k) time_to_block hash) :
    Counting rot (blocked past) k time_to_block hash := by
  cases hcounted with
  | off _ hnone =>
    have hlength := h.off.mp hnone
    exact ⟨by simp [hlength], by simp, fun hpos => absurd hpos (by omega)⟩
  | @first table _ hsome hnew =>
    have hpos : ¬(timeouts rot).length = 0 := fun hzero => by
      rw [h.off.mpr hzero] at hsome
      exact some_ne_none _ hsome.symm
    refine ⟨by simp [hpos], fun table' heq => ?_, fun _ haddress hapart n hn htwo => ?_⟩
    · cases heq
      exact (h.table _ hsome).first hnew
    · -- it has not been blocked before
      have hcounter := (h.table _ hsome).counts k haddress hapart
      rw [hnew] at hcounter
      obtain ⟨m, hm⟩ : ∃ m, (blocked past).count k = m + 1 := ⟨n - 2, by omega⟩
      rw [hm] at hcounter
      exact absurd hcounter (some_ne_none _).symm
  | @again table ntimes timeout stored hsome hold htimeout =>
    have hpos : ¬(timeouts rot).length = 0 := fun hzero => by
      rw [h.off.mpr hzero] at hsome
      exact some_ne_none _ hsome.symm
    obtain ⟨htable, hnth⟩ := (h.table _ hsome).again h.zero h.length (Nat.pos_of_ne_zero hpos) hold
      htimeout
    refine ⟨by simp [hpos], fun table' heq => ?_, fun _ haddress hapart n hn _ => ?_⟩
    · cases heq
      exact htable
    · obtain ⟨r, hr, rfl⟩ := hnth haddress hapart
      have hindex : n - 2 = (blocked past).count k - 1 := by omega
      rw [hindex]
      exact ⟨r, hr, toInt_mul_sixty r⟩

/-- `ExecdTimeoutDupCheck` counts a block that goes on. -/
theorem Counts.renewed (h : Counts rot past s) {command : Bytes} {args : List Bytes}
    (hargs : ∃ user ip rest, args = user :: ip :: rest)
    (hmem : entry ∈ s.timeout_list) (hkey : entry.key = key (timeoutArgs command args))
    (hrenew : renewEntry rot (timeoutArgs command args) curr_time s.repeated_hash entry =
      some (entry', hash)) :
    Counting rot (blocked past) (key (timeoutArgs command args)) entry'.time_to_block hash := by
  obtain ⟨user, ip, rest, rfl⟩ := hargs
  have hcommand : entry.command[0]? = some command := congrArg Prod.fst hkey
  have huser : (timeoutArgs command (user :: ip :: rest))[2]? = some user := rfl
  have hip : (timeoutArgs command (user :: ip :: rest))[3]? = some ip := rfl
  have hlisted := h.listed entry hmem
  rw [hkey] at hlisted
  rw [renewEntry.eq_def] at hrenew
  dsimp only at hrenew
  rw [hcommand, huser, hip] at hrenew
  cases hsome : s.repeated_hash with
  | none =>
    rw [hsome] at hrenew
    obtain ⟨-, rfl⟩ := Prod.mk.inj (some.inj hrenew)
    exact h.counted (.off _ hsome)
  | some table =>
    rw [hsome] at hrenew
    dsimp only at hrenew
    have hpos : ¬(timeouts rot).length = 0 := fun hzero => by
      rw [h.off.mpr hzero] at hsome
      exact some_ne_none _ hsome.symm
    have hskip : (HasAddress (key (timeoutArgs command (user :: ip :: rest))) →
        table (rkey command user ip) = none) →
        Counting rot (blocked past) (key (timeoutArgs command (user :: ip :: rest)))
          entry.time_to_block (some table) := by
      intro hnone
      refine ⟨by simp [hpos], fun table' heq => ?_, fun _ haddress hapart => ?_⟩
      · cases heq
        exact (h.table _ hsome).skip hlisted hnone
      · -- an address that is listed has been counted
        have hcounter := (h.table _ hsome).counts _ haddress hapart
        obtain ⟨n, hn⟩ := Nat.exists_eq_add_one.mpr (count_pos_iff.mpr hlisted)
        rw [hn] at hcounter
        exact absurd (hcounter.symm.trans (hnone haddress)) (some_ne_none _)
    split_ifs at hrenew with hcond
    · cases hold : table (rkey command user ip) with
      | none =>
        rw [hold] at hrenew
        cases hrenew
        exact hskip fun _ => hold
      | some ntimes =>
        rw [hold] at hrenew
        obtain ⟨⟨timeout, stored⟩, htimeout, heq⟩ := map_eq_some_iff.mp hrenew
        cases heq
        exact h.counted (.again hsome hold htimeout)
    · cases hrenew
      exact hskip fun haddress => absurd ⟨length_timeouts_ne_zero.mp hpos, haddress⟩ hcond

theorem blocked_append (past new : List Event) : blocked (past ++ new) = blocked past ++ blocked new :=
  filterMap_append

theorem blocks_notMem (hnew : blocked new = []) (timeout_args : List Bytes) (t : Int32) :
    Event.blocks timeout_args t ∉ new := fun hmem => by
  have hkey : key timeout_args ∈ blocked new := mem_filterMap.mpr ⟨_, hmem, rfl⟩
  rw [hnew] at hkey
  exact not_mem_nil hkey

/-- A step that blocks nothing. -/
theorem Counts.quiet (h : Counts rot past s) (hnew : blocked new = [])
    (hhash : s'.repeated_hash = s.repeated_hash)
    (hlist : ∀ entry' ∈ s'.timeout_list, ∃ entry ∈ s.timeout_list,
      entry.command = entry'.command ∧ entry.time_to_block = entry'.time_to_block) :
    Counts rot (past ++ new) s' ∧ RepeatedLaw rot (blocked past) s new s' := by
  have hpast : blocked (past ++ new) = blocked past := by
    rw [blocked_append, hnew, append_nil]
  refine ⟨⟨h.zero, h.length, ?_, ?_, fun entry' hmem => ?_⟩,
    ⟨fun _ _ hmem => absurd hmem (blocks_notMem hnew _ _), fun entry' hmem _ => hlist entry' hmem,
      fun _ _ hmem => absurd hmem (blocks_notMem hnew _ _)⟩⟩
  · rw [hhash]
    exact h.off
  · rw [hhash, hpast]
    exact h.table
  · obtain ⟨entry, hentry, hcmd, -⟩ := hlist entry' hmem
    rw [hpast, TimeoutData.key, ← hcmd]
    exact h.listed entry hentry

/-- A step that blocks for one key, and lists its entry. -/
theorem Counts.blocks (h : Counts rot past s) (before : List Event) {timeout_args : List Bytes}
    (hbefore : blocked before = [])
    (hcounting : Counting rot (blocked past) (key timeout_args) time_to_block s'.repeated_hash)
    (hentry : ∃ entry ∈ s'.timeout_list, entry.key = key timeout_args ∧
      entry.time_to_block = time_to_block)
    (hlist : ∀ entry' ∈ s'.timeout_list, entry'.key = key timeout_args ∨
      ∃ entry ∈ s.timeout_list, entry.command = entry'.command ∧
        entry.time_to_block = entry'.time_to_block) :
    Counts rot (past ++ (before ++ [.blocks timeout_args time_to_block])) s' ∧
      RepeatedLaw rot (blocked past) s (before ++ [.blocks timeout_args time_to_block]) s' := by
  have hnew : blocked (before ++ [.blocks timeout_args time_to_block]) = [key timeout_args] := by
    rw [blocked_append, hbefore]
    rfl
  have hpast : blocked (past ++ (before ++ [.blocks timeout_args time_to_block])) =
      blocked past ++ [key timeout_args] := by
    rw [blocked_append, hnew]
  have heq : ∀ args t, Event.blocks args t ∈ before ++ [.blocks timeout_args time_to_block] →
      args = timeout_args ∧ t = time_to_block := by
    intro args t hmem
    rcases mem_append.mp hmem with hmem | hmem
    · exact absurd hmem (blocks_notMem hbefore _ _)
    · exact Event.blocks.inj (mem_singleton.mp hmem)
  refine ⟨⟨h.zero, h.length, hcounting.off, ?_, fun entry' hmem => ?_⟩, ?_⟩
  · rw [hpast]
    exact hcounting.table
  · rw [hpast, mem_append, mem_singleton]
    rcases hlist entry' hmem with hkey | ⟨entry, hentry, hcmd, -⟩
    · exact .inr hkey
    · rw [TimeoutData.key, ← hcmd]
      exact .inl (h.listed entry hentry)
  · constructor
    case set =>
      intro args t hmem
      obtain ⟨rfl, rfl⟩ := heq args t hmem
      exact hentry
    case others =>
      intro entry' hmem hne
      rw [hnew, mem_singleton] at hne
      exact (hlist entry' hmem).resolve_left hne
    case nth =>
      intro args t hmem
      obtain ⟨rfl, rfl⟩ := heq args t hmem
      exact hcounting.nth

/-- A command that is run. -/
theorem Counts.executed {s₁ : State} {command : Bytes} {args : List Bytes} {timeout_value : Int32}
    (h : Counts rot past s) (before : List Event) (hbefore : blocked before = [])
    (hargs : ∃ user ip rest, args = user :: ip :: rest)
    (hexecuted : Executed rot s₁ command args timeout_value curr_time new s')
    (hhash : s₁.repeated_hash = s.repeated_hash) (hlist : s₁.timeout_list ⊆ s.timeout_list) :
    Counts rot (past ++ (before ++ new)) s' ∧
      RepeatedLaw rot (blocked past) s (before ++ new) s' := by
  obtain ⟨user, ip, rest, rfl⟩ := hargs
  have hkeep : ∀ entry' ∈ s₁.timeout_list, ∃ entry ∈ s.timeout_list,
      entry.command = entry'.command ∧ entry.time_to_block = entry'.time_to_block :=
    fun entry' hmem => ⟨entry', hlist hmem, rfl, rfl⟩
  rcases hexecuted.listed with ⟨-, rfl, hlist', hhash'⟩ | ⟨time_to_block, rfl, hlist', hcounted⟩
  · refine h.quiet ?_ (hhash'.trans hhash) ?_
    · rw [blocked_append, hbefore]
      rfl
    · rw [hlist']
      exact hkeep
  · rw [append_cons]
    refine h.blocks _ ?_ ?_ ?_ ?_
    · rw [blocked_append, hbefore]
      rfl
    · apply h.counted
      rw [← hhash]
      exact hcounted
    · rw [hlist']
      exact ⟨_, mem_append_right _ (mem_singleton_self _), rfl, rfl⟩
    · rw [hlist']
      intro entry' hmem
      rcases mem_append.mp hmem with hmem | hmem
      · exact .inr (hkeep entry' hmem)
      · rw [mem_singleton.mp hmem]
        exact .inl rfl

/-- Every step keeps the counts, and the law holds of it. -/
theorem Counts.step {inet : Inet} {l : Input × List Event} (h : Counts rot past s)
    (hinv : Inv past s) (hstep : Step inet rot s l s') :
    Counts rot (past ++ l.2) s' ∧ RepeatedLaw rot (blocked past) s l.2 s' := by
  obtain ⟨input, new⟩ := l
  have hself : ∀ entry ∈ s.timeout_list, ∃ entry' ∈ s.timeout_list,
      entry'.command = entry.command ∧ entry'.time_to_block = entry.time_to_block :=
    fun entry hmem => ⟨entry, hmem, rfl, rfl⟩
  cases hinv.does hstep with
  | exit pid => exact h.quiet rfl rfl hself
  | reap _ _ _ =>
    exact h.quiet rfl rfl fun entry hmem => hself entry (mem_of_mem_filter hmem)
  | @tick now forks started timeout_list procs _ hlaunch =>
    obtain ⟨-, hlaunched⟩ := execdTimeoutLaunchDeletes_spec [] hlaunch hinv.core
    refine h.quiet ?_ rfl fun entry' hmem => ?_
    · rw [blocked, filterMap_map]
      exact filterMap_eq_nil_iff.mpr fun _ _ => rfl
    · have hmem' := mem_map_of_mem
        (f := fun entry : TimeoutData => (entry.command, entry.time_to_block)) hmem
      rw [hlaunched.same] at hmem'
      obtain ⟨entry, hentry, heq⟩ := mem_map.mp hmem'
      obtain ⟨hcmd, htime⟩ := Prod.mk.inj heq
      exact ⟨entry, hentry, hcmd, htime⟩
  | ignore config => exact h.quiet rfl rfl hself
  | @renew command args curr_time front back entry entry' hash config _ hargs hlist hkey _ hrenew =>
    obtain ⟨hcmd, -, -⟩ := renewEntry_spec hrenew
    have hmem : entry ∈ s.timeout_list := by
      rw [hlist]
      exact mem_append_right _ mem_cons_self
    have hkey' : entry'.key = key (timeoutArgs command args) := by
      rw [← hkey, TimeoutData.key, TimeoutData.key, hcmd]
    refine h.blocks [.request (timeoutArgs command args) curr_time] rfl
      (h.renewed hargs hmem hkey hrenew) ?_ fun e he => ?_
    · exact ⟨entry', mem_append_right _ mem_cons_self, hkey', rfl⟩
    · rw [hlist]
      rcases mem_append.mp he with he | he
      · exact .inr ⟨e, mem_append_left _ he, rfl, rfl⟩
      · rcases mem_cons.mp he with rfl | he
        · exact .inl hkey'
        · exact .inr ⟨e, mem_append_right _ (mem_cons_of_mem _ he), rfl, rfl⟩
  | wait config _ _ _ _ _ => exact h.quiet rfl rfl hself
  | @add command args _ curr_time _ _ config _ hargs _ hexecuted =>
    exact h.executed [.request (timeoutArgs command args) curr_time] rfl hargs
      hexecuted rfl (List.Subset.refl _)
  | @resume w _ _ _ hw _ _ _ _ hexecuted =>
    exact h.executed [.reaped w.delete_pid] rfl (hinv.waits w hw).complete
      hexecuted rfl fun _ hmem => mem_of_mem_filter hmem

theorem counts_init {config : List ExecConfig} (hzero : 0 ∈ rot)
    (hlength : (timeouts rot).length < 2 ^ 31) : Counts rot [] (init rot config) where
  zero := hzero
  length := hlength
  off := by
    rw [init]
    split_ifs with h
    · simp [length_timeouts_ne_zero.mpr h]
    · simpa using fun hne => h (length_timeouts_ne_zero.mp hne)
  table table htable := by
    rw [init] at htable
    split_ifs at htable
    cases htable
    exact ⟨fun _ _ h => absurd h (some_ne_none _).symm, fun _ _ _ => rfl⟩
  listed entry hmem := absurd hmem not_mem_nil

theorem Counts.run {inet : Inet} {ls : List (Input × List Event)} (h : Counts rot past s)
    (hinv : Inv past s) (hrun : Run (Step inet rot) s ls s') : Counts rot (past ++ events ls) s' := by
  induction hrun generalizing past with
  | nil => rwa [events, flatMap_nil, append_nil]
  | cons hstep _ ih =>
    rw [events, flatMap_cons, ← append_assoc]
    exact ih (h.step hinv hstep).1 (hinv.step hstep).1

theorem length_timeouts_execdConfig (repeated_t : Option Bytes) :
    (timeouts (execdConfig repeated_t)).length < 2 ^ 31 := by
  have hlength : (execdConfig repeated_t).length = 7 := by
    cases repeated_t with
    | none => rfl
    | some repeated_t => exact length_offendersConfig _ _
  have hle := (List.takeWhile_prefix (l := execdConfig repeated_t) (· != 0)).length_le
  rw [timeouts]
  omega

/-- In every run the n-th block for a key that shares its text with no other one that has been
blocked has the n-th but one timeout of the list, or the last one; the other blocks keep theirs; and
nothing is read outside of the array. -/
theorem repeated_law {inet : Inet} {repeated_t : Option Bytes} {config : List ExecConfig}
    {ls : List (Input × List Event)}
    (hrun : Run (Step inet (execdConfig repeated_t)) (init (execdConfig repeated_t) config) ls s) :
    (∀ table rkey ntimes, s.repeated_hash = some table → table rkey = some ntimes →
      (offenderTimeout (execdConfig repeated_t) ntimes).isSome) ∧
    ∀ l s', Step inet (execdConfig repeated_t) s l s' →
      RepeatedLaw (execdConfig repeated_t) (blocked (events ls)) s l.2 s' := by
  have hcounts : Counts (execdConfig repeated_t) (events ls) s :=
    (counts_init (zero_mem_execdConfig repeated_t) (length_timeouts_execdConfig repeated_t)).run
      (inv_init _ config) hrun
  have hinv : Inv (events ls) s := (inv_init _ config).run hrun
  refine ⟨fun table rkey ntimes htable hntimes => ?_, fun l s' hstep => (hcounts.step hinv hstep).2⟩
  obtain ⟨m, hm, rfl⟩ := (hcounts.table table htable).bounded rkey ntimes hntimes
  have hpos : 0 < (timeouts (execdConfig repeated_t)).length := Nat.pos_of_ne_zero fun hzero => by
    rw [hcounts.off.mpr hzero] at htable
    exact some_ne_none _ htable.symm
  rw [offenderTimeout_eq hcounts.zero hm hcounts.length hpos]
  rfl

end Steps

/-- Two blocks for an address count, and one for another address does not. -/
theorem repeated_law_two :
    let drop : ExecConfig := ⟨lit "drop", lit "/bin/drop", 600⟩
    let rot := execdConfig (some (lit "5, 10"))
    let one := [lit "-", lit "10.0.0.1"]
    let two := [lit "-", lit "10.0.0.2"]
    let new := [
      .request (timeoutArgs drop.exec_cmd one) 100, .add (cmdArgs drop.exec_cmd one) 600,
      .blocks (timeoutArgs drop.exec_cmd one) 600,
      .request (timeoutArgs drop.exec_cmd two) 101, .add (cmdArgs drop.exec_cmd two) 600,
      .blocks (timeoutArgs drop.exec_cmd two) 600,
      .request (timeoutArgs drop.exec_cmd one) 102, .blocks (timeoutArgs drop.exec_cmd one) 300]
    ∃ ls s, Run (Step inetTwo rot) (init rot [drop]) ls s ∧ events ls = new ∧
      ∀ l s', Step inetTwo rot s l s' → RepeatedLaw rot (blocked (events ls)) s l.2 s' := by
  intro drop rot one two new
  have hruns : ((init rot [drop]).runs inetTwo rot [
      .message (lit "drop - 10.0.0.1") 100 [] [7],
      .message (lit "drop - 10.0.0.2") 101 [] [8],
      .message (lit "drop - 10.0.0.1") 102 [] []]).map Prod.fst = some new := by decide
  obtain ⟨⟨_, s⟩, hruns, hnew⟩ := map_eq_some_iff.mp hruns
  obtain ⟨ls, hrun, hevents⟩ := exists_run hruns
  exact ⟨ls, s, hrun, hevents.trans hnew, (repeated_law hrun).2⟩

/-- A user with a long name has one counter for all his addresses: the second block of the first
one gets the second timeout. -/
theorem not_repeated_long :
    ¬ ∀ (inet : Inet) (repeated_t : Option Bytes) (config : List ExecConfig)
        (ls : List (Input × List Event)) (s : State) (l : Input × List Event) (s' : State),
      Run (Step inet (execdConfig repeated_t)) (init (execdConfig repeated_t) config) ls s →
      Step inet (execdConfig repeated_t) s l s' →
      ∀ timeout_args time_to_block, .blocks timeout_args time_to_block ∈ l.2 →
        HasAddress (key timeout_args) →
        ∀ n, n = (blocked (events ls)).count (key timeout_args) + 1 → 2 ≤ n →
          ∃ timeout, (timeouts (execdConfig repeated_t))[min (n - 2)
              ((timeouts (execdConfig repeated_t)).length - 1)]? = some timeout ∧
            time_to_block.toInt = timeout.toInt * 60 := by
  intro hlaw
  let drop : ExecConfig := ⟨lit "drop", lit "/bin/drop", 600⟩
  let rot := execdConfig (some (lit "5, 10"))
  let user : Bytes := List.replicate 250 (chr 'b')
  let args := timeoutArgs drop.exec_cmd [user, lit "10.0.0.1"]
  have h : ((init rot [drop]).runs inetTwo rot [
      .message (lit "drop " ++ user ++ lit " 10.0.0.1") 100 [] [7],
      .message (lit "drop " ++ user ++ lit " 10.0.0.2") 101 [] [8]]).bind (fun r =>
        (r.2.step inetTwo rot (.message (lit "drop " ++ user ++ lit " 10.0.0.1") 102 [] [])).map
          fun q => ((blocked r.1).count (key args), q.1)) =
      some (1, [.request args 102, .blocks args 600]) := by decide +kernel
  obtain ⟨⟨new, s⟩, hruns, h⟩ := bind_eq_some_iff.mp h
  obtain ⟨⟨new', s'⟩, hstep, h⟩ := map_eq_some_iff.mp h
  obtain ⟨hcount, rfl⟩ := Prod.mk.inj h
  obtain ⟨ls, hrun, rfl⟩ := exists_run hruns
  obtain ⟨timeout, htimeout, heq⟩ := hlaw inetTwo (some (lit "5, 10")) [drop] ls s (_, _) s' hrun
    hstep args 600 (by simp) (by decide) 2 (by rw [hcount]) (Nat.le_refl 2)
  have hfive : timeout = 5 := by
    have hzero : (timeouts (execdConfig (some (lit "5, 10"))))[min (2 - 2)
        ((timeouts (execdConfig (some (lit "5, 10")))).length - 1)]? = some 5 := by decide
    exact some.inj (htimeout.symm.trans hzero)
  rw [hfive] at heq
  exact absurd heq (by decide)

end Execd
