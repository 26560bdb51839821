import OssecHids.Lib.Transition
import OssecHids.OsCrypto.Keystore

/-!
# The sender counter

The pair of counters that `CreateSecMSG` puts in messages lives in the memory of the process and
in the file `SENDER_COUNTER`, which is rewritten in place with every message and can be read back
before any message.

`InSync` is what makes reading it back harmless: the file holds the pair in memory or nothing
that scans as a pair. A process that finds the file deleted or emptied keeps its pair, and
`senderCounter_lt` follows for every run: the pairs that are drawn are strictly increasing, and
their low part stays between 1 and 9997.
-/

open CString Rids Transition Option

/-- The sending side of a process: the files of `RIDS_DIR`, `global_count` and `local_count`, and
`sender_fp` and `sender_inode` of the keystore. -/
structure SenderState where
  rids : Rids.Store
  count : Counter
  sender_fp : Option ℕ
  sender_inode : ℕ

namespace SenderState

/-- The path of the sender file. -/
def path : Bytes := ridsFile senderCounter

/-- The end of `OS_StartCounter`, and of `ReloadSenderCounter`: open the sender file and take the
pair it holds; a file that holds none leaves the pair in memory alone. The inode is read after the
file has been opened. -/
def openSenderCounter (s : SenderState) : SenderState :=
  let rids := s.rids.openUpdate path
  { rids := rids
    count := (Counter.scanCounter (rids.read path)).getD s.count
    sender_fp := some (rids.stat path)
    sender_inode := rids.stat path }

/-- `OS_CloseSenderCounter` -/
def osCloseSenderCounter (s : SenderState) : SenderState :=
  match s.sender_fp with
  | some _ => { s with sender_fp := none, sender_inode := 0 }
  | none => s

/-- `ReloadSenderCounter` -/
def reloadSenderCounter (s : SenderState) : SenderState :=
  if s.sender_inode = s.rids.stat path ∧ s.sender_fp.isSome then s else s.openSenderCounter

/-- `store_sender_counter` -/
def storeSenderCounter (s : SenderState) (c : Counter) : SenderState :=
  match s.sender_fp with
  | some h => { s with rids := s.rids.write path h c.storeText }
  | none => s

/-- Increase the local and global counters. -/
def increment (c : Counter) : Counter :=
  let c := if c.loc ≥ 9997 then { glob := c.glob + 1, loc := 0 } else c
  { c with loc := c.loc + 1 }

/-- The section of `CreateSecMSG` under `sender_counter_mutex`: the pair of the message. -/
def drawCounter (s : SenderState) : SenderState × Counter :=
  let s := s.reloadSenderCounter
  let c := increment s.count
  ({ s with count := c }.storeSenderCounter c, c)

/-! ## The file and the memory -/

/-- The sender file holds the pair in memory or nothing that scans as a pair, and an open stream
is on the inode that is remembered. -/
structure InSync (s : SenderState) : Prop where
  file : ∀ c, Counter.scanCounter (s.rids.read path) = some c → c = s.count
  fp : ∀ h, s.sender_fp = some h → s.sender_inode = h ∧ h ≠ 0

theorem inSync_openSenderCounter (s : SenderState) : s.openSenderCounter.InSync := by
  refine ⟨?_, ?_⟩
  · intro c hc
    have hread : Counter.scanCounter ((s.rids.openUpdate path).read path) = some c := hc
    simp only [openSenderCounter, hread, getD_some]
  · intro h hh
    cases hh
    exact ⟨rfl, FileStore.stat_openUpdate_ne_zero s.rids path⟩

theorem count_openSenderCounter {s : SenderState} (hs : s.InSync) :
    s.openSenderCounter.count = s.count := by
  simp only [openSenderCounter, FileStore.read_openUpdate]
  rcases hc : Counter.scanCounter (s.rids.read path) with _ | c
  · rfl
  · exact hs.file c hc

theorem inSync_osCloseSenderCounter {s : SenderState} (hs : s.InSync) :
    s.osCloseSenderCounter.InSync := by
  unfold osCloseSenderCounter
  split
  · exact ⟨hs.file, fun h hh => nomatch hh⟩
  · exact hs

theorem count_osCloseSenderCounter (s : SenderState) : s.osCloseSenderCounter.count = s.count := by
  unfold osCloseSenderCounter
  split <;> rfl

theorem inSync_reloadSenderCounter {s : SenderState} (hs : s.InSync) :
    s.reloadSenderCounter.InSync := by
  unfold reloadSenderCounter
  split_ifs
  · exact hs
  · exact inSync_openSenderCounter s

theorem count_reloadSenderCounter {s : SenderState} (hs : s.InSync) :
    s.reloadSenderCounter.count = s.count := by
  unfold reloadSenderCounter
  split_ifs
  · rfl
  · exact count_openSenderCounter hs

/-- After `ReloadSenderCounter` the stream is on the file its path names. -/
theorem fp_reloadSenderCounter {s : SenderState} (hs : s.InSync) :
    s.reloadSenderCounter.sender_fp = some (s.reloadSenderCounter.rids.stat path) ∧
    s.reloadSenderCounter.rids.stat path ≠ 0 := by
  unfold reloadSenderCounter
  split_ifs with h
  · obtain ⟨hino, hopen⟩ := h
    obtain ⟨i, hi⟩ := isSome_iff_exists.mp hopen
    obtain ⟨hsame, hne⟩ := hs.fp i hi
    rw [hi, ← hino, hsame]
    exact ⟨rfl, hne⟩
  · exact ⟨rfl, FileStore.stat_openUpdate_ne_zero s.rids path⟩

/-- A stream that is on its path and stores the pair in memory makes the file hold it. -/
theorem inSync_storeSenderCounter {s : SenderState} (hfp : s.sender_fp = some (s.rids.stat path))
    (hne : s.rids.stat path ≠ 0) (hino : s.sender_inode = s.rids.stat path) :
    (s.storeSenderCounter s.count).InSync := by
  have hread : Counter.scanCounter ((s.rids.write path (s.rids.stat path)
      s.count.storeText).read path) = some s.count := by
    rw [FileStore.read_write _ rfl hne, Counter.scanCounter_overwrite]
  unfold storeSenderCounter
  rw [hfp]
  refine ⟨?_, ?_⟩
  · intro c hc
    exact (some.inj (hread.symm.trans hc)).symm
  · intro h hh
    cases hh
    exact ⟨hino, hne⟩

/-! ## Drawing a pair -/

/-- The next pair is above the last one, unless the high part wraps. -/
theorem lt_increment {c : Counter} (hc : c.glob.toNat ≠ 2 ^ 32 - 1) : c < increment c := by
  have hlt : c.glob.toNat < 2 ^ 32 := c.glob.toNat_lt
  rw [Counter.lt_iff]
  unfold increment
  split_ifs with h
  · left
    rw [gt_iff_lt, UInt32.lt_iff_toNat_lt, UInt32.toNat_add]
    simp only [UInt32.toNat_one]
    omega
  · right
    have hloc : c.loc.toNat < 9997 := by
      simpa [UInt32.le_iff_toNat_le] using h
    refine ⟨rfl, ?_⟩
    rw [gt_iff_lt, UInt32.lt_iff_toNat_lt, UInt32.toNat_add]
    simp only [UInt32.toNat_one]
    omega

/-- The low part of a pair that is drawn is at least 1 and at most 9997. -/
theorem loc_increment (c : Counter) :
    1 ≤ (increment c).loc.toNat ∧ (increment c).loc.toNat ≤ 9997 := by
  unfold increment
  split_ifs with h
  · exact ⟨le_rfl, show 1 ≤ 9997 by decide⟩
  · have hloc : c.loc.toNat < 9997 := by
      simpa [UInt32.le_iff_toNat_le] using h
    rw [UInt32.toNat_add]
    simp only [UInt32.toNat_one]
    omega

theorem drawCounter_snd {s : SenderState} (hs : s.InSync) :
    s.drawCounter.2 = increment s.count := by
  rw [drawCounter, count_reloadSenderCounter hs]

theorem count_storeSenderCounter (s : SenderState) (c : Counter) :
    (s.storeSenderCounter c).count = s.count := by
  unfold storeSenderCounter
  split <;> rfl

theorem count_drawCounter (s : SenderState) : s.drawCounter.1.count = s.drawCounter.2 :=
  count_storeSenderCounter _ _

theorem inSync_drawCounter {s : SenderState} (hs : s.InSync) : s.drawCounter.1.InSync := by
  obtain ⟨hfp, hne⟩ := fp_reloadSenderCounter hs
  have hino := ((inSync_reloadSenderCounter hs).fp _ hfp).1
  exact inSync_storeSenderCounter (s := { s.reloadSenderCounter with
    count := increment s.reloadSenderCounter.count }) hfp hne hino

/-! ## Runs -/

/-- What happens to the sender counter: a message draws a pair, a key reload closes the file and
opens it again, or someone deletes the file, empties it, or puts an empty file in its place. -/
inductive Event
  | createSecMSG
  | osFreeKeys
  | osStartCounter
  | delete
  | empty
  | replace
  deriving DecidableEq

/-- One event, and the pair it puts in a message. -/
def senderStep (s : SenderState) : Event → SenderState × Option Counter
  | .createSecMSG => (s.drawCounter.1, some s.drawCounter.2)
  | .osFreeKeys => (s.osCloseSenderCounter, none)
  | .osStartCounter => (s.openSenderCounter, none)
  | .delete => ({ s with rids := s.rids.unlink path }, none)
  | .empty => ({ s with rids := s.rids.truncate path }, none)
  | .replace => ({ s with rids := s.rids.create path }, none)

theorem InSync.of_read_eq_nil {s : SenderState} (hs : s.InSync) {rids : Rids.Store}
    (h : rids.read path = []) : InSync { s with rids := rids } := by
  refine ⟨?_, hs.fp⟩
  intro c hc
  rw [h, Counter.scanCounter_nil] at hc
  exact nomatch hc

theorem inSync_senderStep {s : SenderState} (hs : s.InSync) (ev : Event) :
    (senderStep s ev).1.InSync := by
  cases ev with
  | createSecMSG => exact inSync_drawCounter hs
  | osFreeKeys => exact inSync_osCloseSenderCounter hs
  | osStartCounter => exact inSync_openSenderCounter s
  | delete => exact hs.of_read_eq_nil (FileStore.read_unlink ..)
  | empty => exact hs.of_read_eq_nil (FileStore.read_truncate ..)
  | replace => exact hs.of_read_eq_nil (FileStore.read_create ..)

/-- Only drawing a pair changes the one in memory. -/
theorem forward_senderStep {s : SenderState} (hs : s.InSync)
    (hmax : s.count.glob.toNat ≠ 2 ^ 32 - 1) (ev : Event) :
    Forward SenderState.count Prod.snd s (ev, (senderStep s ev).2) (senderStep s ev).1 := by
  have hlt : s.count < s.drawCounter.2 := by
    rw [drawCounter_snd hs]
    exact lt_increment hmax
  cases ev with
  | createSecMSG =>
    refine ⟨?_, ?_, ?_⟩
    · exact (count_drawCounter s).symm ▸ hlt.le
    · rintro x ⟨⟩
      exact hlt
    · rintro x ⟨⟩
      exact (count_drawCounter s).ge
  | osFreeKeys => exact ⟨(count_osCloseSenderCounter s).ge, nofun, nofun⟩
  | osStartCounter => exact ⟨(count_openSenderCounter hs).ge, nofun, nofun⟩
  | delete => exact ⟨le_rfl, nofun, nofun⟩
  | empty => exact ⟨le_rfl, nofun, nofun⟩
  | replace => exact ⟨le_rfl, nofun, nofun⟩

/-- An event that leaves `global_count` below its maximum. -/
def Sends (s : SenderState) (l : Event × Option Counter) (s' : SenderState) : Prop :=
  StepOf senderStep s l s' ∧ s'.count.glob.toNat ≠ 2 ^ 32 - 1

end SenderState

open SenderState

/-- The pairs put in messages. -/
def sentCounters (ls : List (SenderState.Event × Option Counter)) : List Counter :=
  ls.filterMap Prod.snd

/-- Sender monotonicity. From the first `OS_StartCounter` on, over whatever file it finds, the
pairs put in messages are strictly increasing as long as `global_count` does not reach its
maximum, and every low part is printed on four digits. -/
theorem senderCounter_lt {s₀ t : SenderState} {ls : List (SenderState.Event × Option Counter)}
    (h₀ : s₀.openSenderCounter.count.glob.toNat ≠ 2 ^ 32 - 1)
    (h : Run Sends s₀.openSenderCounter ls t) :
    (sentCounters ls).Pairwise (· < ·) ∧
    ∀ c ∈ sentCounters ls, 1 ≤ c.loc.toNat ∧ c.loc.toNat ≤ 9997 ∧
      (fmtU0 4 c.loc.toNat).length = 4 := by
  have hstart : s₀.openSenderCounter.InSync ∧
      s₀.openSenderCounter.count.glob.toNat ≠ 2 ^ 32 - 1 := ⟨inSync_openSenderCounter _, h₀⟩
  have hinv : ∀ s l s', s.InSync ∧ s.count.glob.toNat ≠ 2 ^ 32 - 1 → Sends s l s' →
      s'.InSync ∧ s'.count.glob.toNat ≠ 2 ^ 32 - 1 := by
    rintro s l s' ⟨hs, -⟩ ⟨hl, hne⟩
    rw [← (Prod.mk.inj hl).1] at hne ⊢
    exact ⟨inSync_senderStep hs l.1, hne⟩
  have hfwd : ∀ s l s', s.InSync ∧ s.count.glob.toNat ≠ 2 ^ 32 - 1 → Sends s l s' →
      Forward SenderState.count Prod.snd s l s' := by
    rintro s ⟨ev, out⟩ s' ⟨hs, hne⟩ ⟨hl, -⟩
    have hl : senderStep s ev = (s', out) := hl
    have hfwd := forward_senderStep hs hne ev
    rwa [hl] at hfwd
  refine ⟨h.outputs_lt hinv hfwd hstart, ?_⟩
  · intro c hc
    obtain ⟨l, hl, hout⟩ := List.mem_filterMap.mp hc
    obtain ⟨u, u', ⟨hu, -⟩, hstep, -⟩ := h.exists_step hinv hstart l hl
    -- only a message puts out a pair, and it has just been increased
    have hc : c = increment u.count := by
      have hsnd := (Prod.mk.inj hstep).2.trans hout
      rcases hev : l.1 with _ | _ | _ | _ | _ | _
      · rw [hev] at hsnd
        rw [← drawCounter_snd hu]
        exact (some.inj hsnd).symm
      all_goals
        rw [hev] at hsnd
        exact nomatch hsnd
    obtain ⟨h₁, h₂⟩ := loc_increment u.count
    rw [hc]
    exact ⟨h₁, h₂, length_fmtU0 (by decide) (by omega)⟩

/-- A file that is deleted between two messages does not rewind the pair. -/
theorem senderCounter_lt_delete :
    let s := (SenderState.mk .empty .zero none 0).openSenderCounter
    let s₁ := (senderStep s .createSecMSG).1
    let s₂ := (senderStep s₁ .delete).1
    let ls := [(.createSecMSG, (senderStep s .createSecMSG).2),
      (.delete, (senderStep s₁ .delete).2), (.createSecMSG, (senderStep s₂ .createSecMSG).2)]
    sentCounters ls = [⟨0, 1⟩, ⟨0, 2⟩] ∧ (sentCounters ls).Pairwise (· < ·) := by
  intro s s₁ s₂ ls
  have h : Run Sends s ls (senderStep s₂ .createSecMSG).1 :=
    .cons ⟨rfl, by decide +kernel⟩ (.cons ⟨rfl, by decide +kernel⟩
      (.cons ⟨rfl, by decide +kernel⟩ (.nil _)))
  exact ⟨by decide +kernel, (senderCounter_lt (by decide +kernel) h).1⟩
