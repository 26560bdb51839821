import OssecHids.OsCrypto.Replay

/-!
# What a refused message leaves behind

`ReadSecMSG` checks a message step by step and only then sets the counters and the cipher of the
entry. In the old format it sets the counters before the last check, and without verification it
sets the second one to a variable that was never read.

- `Atomic`: what a call may do to the entry;
- `Meets`: the datagrams for which it does no more, which is `readSecMSG_atomic_iff`.
-/

open CString Rids

namespace ReadSecMSG

/-- The cipher of a datagram: only the server takes it from there. -/
def cipherOf (cfg : ReadConfig) (e : KeyEntry) (d : Datagram) : CryptMethod :=
  if cfg.client then e.crypto_method
  else if strncmpEq 4 d.buffer aesToken then .aes else .blowfish

/-- A refused datagram leaves the entry as it was, apart from a reload of the counters. An accepted
one sets the counters and the cipher to its own. -/
def Atomic (P : Crypto) (cfg : ReadConfig) (s : EntryState) (d : Datagram) : Prop :=
  match readSecMSG P cfg s d with
  | (s', .error _) => s'.entry = s.entry ∨ s'.entry = (s.reload cfg).entry
  | (s', .ok msg) => ∃ m, parseMsg P cfg s.entry d = .ok m ∧ msg.authentic = m.authentic ∧
      s'.entry.counter = m.counter ∧ s'.entry.crypto_method = cipherOf cfg s.entry d

/-- No authenticated message of the old format is new and lacks the `:`, and without verification
none has a count or lacks the `:`. -/
def Meets (P : Crypto) (cfg : ReadConfig) (s : EntryState) (d : Datagram) : Prop :=
  ∀ m cleartext n, parseMsg P cfg s.entry d = .ok m → m.format = .old cleartext n →
    if cfg.verify_counter then
      s.entry.counter < m.counter → (strchr (chr ':') m.f_msg).isSome
    else if (strchr (chr ':') m.f_msg).isSome then m.counter.loc = 0
    else s.entry.counter = ⟨m.counter.glob, 0⟩

variable {P : Crypto} {cfg : ReadConfig} {s : EntryState} {d : Datagram} {m : ParsedMsg}

theorem stripPrefix_cipher {e : KeyEntry} {r : CryptMethod × Bytes × ℕ}
    (h : stripPrefix cfg e d.buffer d.buffer_max = .ok r) : r.1 = cipherOf cfg e d := by
  simp only [stripPrefix] at h
  rw [cipherOf]
  split_ifs at h <;> simp_all [← Except.ok.inj h]

/-- The stages behind the prefix hand its cipher on. -/
theorem parseMsg_cipher {e : KeyEntry} (h : parseMsg P cfg e d = .ok m) :
    m.crypto_method = cipherOf cfg e d := by
  unfold parseMsg at h
  split at h
  · cases h
  · rename_i method buffer buffer_max hstrip
    have hcipher : method = cipherOf cfg e d := stripPrefix_cipher hstrip
    split at h
    · cases h
    · split_ifs at h
      · split at h
        · cases h
        · simp only [parseCompressed] at h
          split at h
          · cases h
          · split_ifs at h
            rw [← Except.ok.inj h, hcipher]
      · simp only [parseOld] at h
        split at h
        · cases h
        · rw [← Except.ok.inj h, hcipher]

theorem entry_reload (cfg : ReadConfig) (s : EntryState) :
    (s.reload cfg).entry = s.entry ∨ (s.reload cfg).entry.inode ≠ s.entry.inode := by
  unfold EntryState.reload
  split_ifs
  · simp only [reloadCounter]
    split_ifs with hino hnew
    · exact .inr (Ne.symm hino)
    · exact .inr (Ne.symm hino)
    · exact .inl rfl
  · exact .inl rfl

theorem crypto_method_update : (s.update cfg m).entry.crypto_method = m.crypto_method := by
  unfold EntryState.update
  split_ifs <;> rfl

/-! ## The two formats -/

theorem atomic_compressed {final_size : ℕ} (hm : parseMsg P cfg s.entry d = .ok m)
    (hf : m.format = .compressed final_size) : Atomic P cfg s d := by
  have hcall : readSecMSG P cfg s d = acceptCompressed cfg d.srcip s m final_size := by
    simp only [readSecMSG, hm, hf]
  have hcipher := parseMsg_cipher hm
  rw [Atomic, hcall, acceptCompressed]
  dsimp only
  split_ifs
  · exact ⟨m, hm, rfl, counter_update .., crypto_method_update.trans hcipher⟩
  · exact ⟨m, hm, rfl, counter_update .., crypto_method_update.trans hcipher⟩
  · exact .inr rfl
  · exact .inr rfl

/-- The old format sets the counters to `c` before it looks for the `:`. -/
theorem returnOld_atomic_iff {c : Counter} {cleartext : Bytes} {n : ℕ}
    (hm : parseMsg P cfg s.entry d = .ok m)
    (hcall : readSecMSG P cfg s d = returnOld s c m cleartext n) :
    Atomic P cfg s d ↔
      if (strchr (chr ':') m.f_msg).isSome then c = m.counter else s.entry.counter = c := by
  rw [Atomic, hcall, returnOld]
  cases hcolon : strchr (chr ':') m.f_msg with
  | none =>
    simp only [Option.isSome_none, Bool.false_eq_true, if_false]
    constructor
    · rintro (h | h)
      · exact (congrArg KeyEntry.counter h).symm
      -- nothing was reloaded: the inode is still the same
      · rcases entry_reload cfg s with heq | hne
        · rw [heq] at h
          exact (congrArg KeyEntry.counter h).symm
        · exact absurd (congrArg KeyEntry.inode h).symm hne
    · rintro rfl
      exact .inl rfl
  | some f_msg =>
    simp only [Option.isSome_some, if_true]
    constructor
    · rintro ⟨m', hm', -, hc, -⟩
      rw [hm] at hm'
      obtain rfl := Except.ok.inj hm'
      exact hc
    · rintro rfl
      exact ⟨m, hm, rfl, rfl, parseMsg_cipher hm⟩

/-- **Rejection**: a refused datagram leaves the entry as it was and an accepted one sets it to its
own counters and cipher, exactly for the datagrams that meet the condition. -/
theorem readSecMSG_atomic_iff (P : Crypto) (cfg : ReadConfig) (s : EntryState) (d : Datagram) :
    Atomic P cfg s d ↔ Meets P cfg s d := by
  rcases hm : parseMsg P cfg s.entry d with err | m
  · have hcall : readSecMSG P cfg s d = (s, .error err) := by
      simp only [readSecMSG, hm]
    refine ⟨fun _ m' _ _ hm' => ?_, fun _ => ?_⟩
    · rw [hm] at hm'
      cases hm'
    · rw [Atomic, hcall]
      exact .inl rfl
  · rcases hf : m.format with final_size | ⟨cleartext, n⟩
    · refine ⟨fun _ m' _ _ hm' hf' => ?_, fun _ => atomic_compressed hm hf⟩
      rw [hm] at hm'
      obtain rfl := Except.ok.inj hm'
      rw [hf] at hf'
      cases hf'
    · have hmeets : Meets P cfg s d ↔
          if cfg.verify_counter then
            s.entry.counter < m.counter → (strchr (chr ':') m.f_msg).isSome
          else if (strchr (chr ':') m.f_msg).isSome then m.counter.loc = 0
          else s.entry.counter = ⟨m.counter.glob, 0⟩ := by
        constructor
        · exact fun h => h m cleartext n hm hf
        · intro h m' _ _ hm' _
          rw [hm] at hm'
          obtain rfl := Except.ok.inj hm'
          exact h
      have hcall : readSecMSG P cfg s d = acceptOld cfg s m cleartext n := by
        simp only [readSecMSG, hm, hf]
      rw [hmeets]
      rcases hv : cfg.verify_counter with _ | _
      · -- the count is never stored
        rw [returnOld_atomic_iff hm (hcall.trans (by simp only [acceptOld, hv]; rfl))]
        simp only [Bool.false_eq_true, if_false]
        split_ifs
        · obtain ⟨glob, loc⟩ := m.counter
          simp only [Counter.mk.injEq, true_and]
          exact eq_comm
        · exact Iff.rfl
      · simp only [if_true]
        by_cases hnew : isNewer m.counter s.entry.counter = true
        · have hlt := (isNewer_iff _ _).mp hnew
          rw [returnOld_atomic_iff hm (hcall.trans (by simp only [acceptOld, hv, hnew]; rfl))]
          split_ifs with hcolon
          · exact iff_of_true rfl fun _ => hcolon
          · exact iff_of_false hlt.ne fun h => hcolon (h hlt)
        · have hlt : ¬ s.entry.counter < m.counter := fun h => hnew ((isNewer_iff _ _).mpr h)
          refine iff_of_true ?_ fun h => absurd h hlt
          rw [Atomic, hcall, acceptOld, hv]
          simp only [Bool.not_true, Bool.false_eq_true, if_false, if_neg hnew]
          split_ifs
          · exact .inl rfl
          · exact .inl rfl

/-! ## A refused message that changes the entry -/

/-- A Blowfish datagram whose text has a digest of its own and no `:` behind its header. -/
def unclosed : Datagram where
  buffer := chr ':' :: chr ':' :: (List.replicate 32 48 ++ lit "1700000000?0001?text")
  buffer_max := 100
  cleartext := List.replicate 100 0
  buffer_size := 53
  srcip := []

/-- An agent of which nothing was received. -/
def freshAgent : EntryState where
  rids := .empty
  rcv_count := 0
  entry := {
    rcvd := 0, counter := .zero, keyid := 0, id := lit "001", key := [], name := lit "web"
    ip := lit "any", peer_info := [], fp := none, inode := 0, crypto_method := .blowfish }

/-- The counters are set although the message is refused. -/
theorem not_atomic_unclosed : ¬ ∀ P cfg s d, Atomic P cfg s d := by
  intro h
  have hcall : ∃ s', readSecMSG .plain ⟨false, true, 100⟩ freshAgent unclosed =
      (s', .error (.encformat (lit "001"))) ∧ s'.entry.counter = ⟨1700000000, 1⟩ := ⟨_, rfl, rfl⟩
  obtain ⟨s', hcall, hcounter⟩ := hcall
  have hatomic := h .plain ⟨false, true, 100⟩ freshAgent unclosed
  rw [Atomic, hcall] at hatomic
  dsimp only at hatomic
  have hreload : (freshAgent.reload ⟨false, true, 100⟩).entry = freshAgent.entry := rfl
  rw [hreload, or_self] at hatomic
  rw [hatomic] at hcounter
  exact absurd hcounter (by decide)

end ReadSecMSG
