import OssecHids.OsCrypto.CreateSecMSG
import OssecHids.OsCrypto.Replay

/-!
# The round trip of a secure message

`ReadSecMSG` gives back what `CreateSecMSG` was given. The two sides only share offsets, so the
proof follows the message through them: the token (`stripPrefix_cryptoToken`), the cipher
(`decryptMsg_doEncryptByMethod`), the padding (`inflateMsg_padMsg`) and the header
(`parseCompressed_secText`).
-/

open CString Rids List

variable {P : Crypto}

/-! ## The token -/

theorem length_cryptoToken (m : CryptMethod) :
    (cryptoToken m).length = match m with | .blowfish => 1 | .aes => 5 := by
  cases m <;> rfl

/-- The token of a message selects its cipher, on the server by itself and on the client because
the entry has it. -/
theorem stripPrefix_cryptoToken {cfg : ReadConfig} {e : KeyEntry} {m : CryptMethod}
    (hm : cfg.client = true → e.crypto_method = m) (buffer : Bytes) {buffer_max : ℕ}
    (hmax : 5 ≤ buffer_max) :
    stripPrefix cfg e (cryptoToken m ++ buffer) buffer_max =
      .ok (m, buffer, buffer_max - (cryptoToken m).length) := by
  have h₁ : ¬ buffer_max < 1 := by omega
  have h₂ : ¬ buffer_max - 4 < 1 := by omega
  have hmethod : ∀ server, server = m →
      (if cfg.client = true then e.crypto_method else server) = m := by
    rintro server rfl
    split_ifs with h
    · exact hm h
    · rfl
  cases m with
  | blowfish =>
    have haes : strncmpEq 4 (cryptoToken .blowfish ++ buffer) aesToken = false := rfl
    have hhead : (cryptoToken .blowfish ++ buffer).headD 0 = chr ':' := rfl
    unfold stripPrefix
    simp only [haes, hhead, Bool.false_and, Bool.false_eq_true, if_false, if_true, h₁,
      hmethod _ rfl]
    rfl
  | aes =>
    have haes : strncmpEq 4 (cryptoToken .aes ++ buffer) aesToken = true := rfl
    have h₃ : decide (buffer_max < 4) = false := decide_eq_false (by omega)
    have hdrop : (cryptoToken .aes ++ buffer).drop 4 = chr ':' :: buffer := rfl
    unfold stripPrefix
    simp only [haes, hdrop, h₃, Bool.and_false, Bool.false_eq_true, if_false, if_true,
      headD_cons, h₂, hmethod _ rfl]
    rfl

/-! ## The cipher -/

/-- A ciphertext and its lengths, and what decrypting it gives. `buffer_size` counts the token
without its `:`. -/
structure Encrypts (P : Crypto) (m : CryptMethod) (charkey input output : Bytes) : Prop where
  le_length : input.length ≤ output.length
  length_le : output.length ≤ input.length + 32
  length_blowfish : m = .blowfish → output.length = input.length
  decrypt : ∀ (e : KeyEntry) (buffer cleartext : Bytes), e.key = charkey →
    output.length + (cryptoToken m).length - 1 ≤ OS_MAXSTR →
    ∃ pad, decryptMsg P e m (output ++ buffer) cleartext
      (output.length + (cryptoToken m).length - 1) =
        .ok (overwrite (input ++ pad) (setByte cleartext 0 0))

theorem encrypts_blowfish (hP : P.Documented) {input : Bytes} (hne : input ≠ [])
    (hinput : 8 ∣ input.length) (charkey : Bytes) :
    Encrypts P .blowfish charkey input (P.bfEncrypt charkey input) := by
  have hlen := hP.length_bfEncrypt charkey input hinput
  have hpos : 0 < input.length := length_pos_iff.mpr hne
  refine ⟨hlen.ge, by omega, fun _ => hlen, ?_⟩
  rintro e buffer cleartext rfl hmax
  obtain ⟨pad, hpad⟩ := hP.bfDecrypt_bfEncrypt e.key input hinput
  refine ⟨pad, ?_⟩
  rw [hlen, length_cryptoToken, Nat.add_sub_cancel] at hmax ⊢
  have hbound : ¬ (input.length = 0 ∨ input.length > OS_MAXSTR) := by omega
  have htake : (P.bfEncrypt e.key input ++ buffer).take input.length =
      P.bfEncrypt e.key input := by rw [← hlen, take_left]
  unfold decryptMsg
  rw [if_neg hbound]
  simp only [htake, Crypto.osBFStrDecrypt, hpad]

theorem encrypts_aes (hP : P.Documented) {input iv : Bytes} (hne : input ≠ [])
    (hiv : iv.length = 16) (charkey : Bytes) :
    Encrypts P .aes charkey input (iv ++ P.encryptAES charkey iv input) := by
  have hct := hP.length_encryptAES charkey iv input
  have hlen : (iv ++ P.encryptAES charkey iv input).length =
      16 + (input.length / 16 + 1) * 16 := by
    rw [length_append, hiv, hct]
  have hpos : 0 < input.length := length_pos_iff.mpr hne
  refine ⟨by omega, by omega, nofun, ?_⟩
  rintro e buffer cleartext rfl hmax
  obtain ⟨pad, hpad⟩ := hP.decryptAES_encryptAES e.key iv input
  refine ⟨pad, ?_⟩
  -- the length that is decrypted leaves out the four characters of the token
  set output := iv ++ P.encryptAES e.key iv input with houtput
  have hsize : output.length + (cryptoToken .aes).length - 1 = output.length + 4 := rfl
  rw [hsize] at hmax ⊢
  have hbound : ¬ (output.length + 4 = 0 ∨ output.length + 4 > OS_MAXSTR) := by omega
  have hfour : ¬ output.length + 4 ≤ 4 := by omega
  have hshort : ¬ output.length < 16 := by omega
  have htake : (output ++ buffer).take (output.length + 4 - 4) = output := by
    rw [Nat.add_sub_cancel, take_left]
  have hivs : output.take 16 = iv := by rw [houtput, take_left' hiv]
  have hcts : output.drop 16 = P.encryptAES e.key iv input := by
    rw [houtput, drop_left' hiv]
  have hdecrypt : P.osAESStrDecrypt output e.key = (input ++ pad, (input ++ pad).length) := by
    unfold Crypto.osAESStrDecrypt
    rw [if_neg hshort, hivs, hcts, hpad]
    rfl
  have hplain : ¬ (input ++ pad).length = 0 := by
    rw [length_append]
    omega
  unfold decryptMsg
  rw [if_neg hbound]
  simp only [hfour, if_false, htake, hdecrypt, hplain]

theorem doEncryptByMethod_encrypts (hP : P.Documented) (m : CryptMethod) {input iv : Bytes}
    (hne : input ≠ []) (hinput : 8 ∣ input.length) (hiv : iv.length = 16) (charkey : Bytes) :
    ∃ output, doEncryptByMethod P m (some iv) input charkey = some output ∧
      Encrypts P m charkey input output := by
  cases m with
  | blowfish => exact ⟨_, rfl, encrypts_blowfish hP hne hinput charkey⟩
  | aes =>
    refine ⟨_, ?_, encrypts_aes hP hne hiv charkey⟩
    have hct := hP.length_encryptAES charkey iv input
    have hpos : ¬ (P.encryptAES charkey iv input).length = 0 := by omega
    simp only [doEncryptByMethod, Crypto.osAESStrEncrypt, Option.bind_some, hpos, if_false]

/-! ## The padding and the stream -/

/-- Inflating a padded stream gives the data back, at the start of `buffer`. -/
theorem inflateMsg_padMsg (hP : P.Documented) {data : Bytes} {buffer_max buffer_size : ℕ}
    (buffer pad cleartext : Bytes) (hdata : 0 < data.length) (hmax : data.length < buffer_max)
    (hsize : (padMsg (P.compress data)).length ≤ buffer_size) :
    inflateMsg P buffer (overwrite (padMsg (P.compress data) ++ pad) cleartext) buffer_max
      buffer_size = some (data ++ 0 :: buffer.drop (data.length + 1), data.length) := by
  obtain ⟨b, stream, hstream, hb⟩ := hP.head_compress data
  obtain ⟨tail, htail⟩ : ∃ tail, setByte (overwrite (padMsg (P.compress data) ++ pad) cleartext)
      buffer_size 0 = padMsg (P.compress data) ++ tail := by
    rw [setByte, overwrite, append_assoc, set_append_right _ _ hsize]
    exact ⟨_, rfl⟩
  have hpadding : (((padMsg (P.compress data) ++ tail).drop 1).takeWhile
      (· = chr '!')).length = bangs (P.compress data).length - 1 := by
    rw [hstream, padMsg_cons hb, length_replicate]
  have hbangs : 1 ≤ bangs (P.compress data).length := by simp [bangs]
  have hdrop : ((padMsg (P.compress data) ++ tail).drop 1).drop
      (bangs (P.compress data).length - 1) = P.compress data ++ tail := by
    rw [drop_drop, Nat.add_sub_cancel' hbangs, padMsg, append_assoc, drop_left' length_replicate]
  -- what the decompressor gets starts with the whole stream
  obtain ⟨rest, hsrc⟩ : ∃ rest, (P.compress data ++ tail).take
      (buffer_size - 1 - (bangs (P.compress data).length - 1)) = P.compress data ++ rest := by
    have hle : (P.compress data).length ≤
        buffer_size - 1 - (bangs (P.compress data).length - 1) := by
      rw [length_padMsg] at hsize
      omega
    rw [take_append, take_of_length_le hle]
    exact ⟨_, rfl⟩
  have hroom : ¬ buffer_max < 1 := by omega
  have hfits : 0 < data.length ∧ data.length ≤ buffer_max - 1 := by omega
  unfold inflateMsg
  simp only [htail, hpadding, hdrop, hsrc, hroom, if_false, Crypto.osZlibUncompress,
    hP.uncompress_compress, Option.bind_some, hfits, and_self, if_true, Option.map_some]
  simp [overwrite]

/-! ## The header -/

/-- The fields of the header are read back, whatever follows the message in `buffer`. -/
theorem parseCompressed_secText (e : KeyEntry) (m : CryptMethod) (rand1 : UInt16) {c : Counter}
    (hloc : c.loc.toNat ≤ 9997) {msg : Bytes} (hmsg : msg.length < 2 ^ 32) (rest : Bytes) :
    parseCompressed P e m
      (P.osMD5Bytes (secText rand1 c msg) ++ secText rand1 c msg ++ 0 :: rest)
      (P.osMD5Bytes (secText rand1 c msg) ++ secText rand1 c msg).length =
    .ok {
      crypto_method := m
      authentic := chr '!' :: secText rand1 c msg
      counter := c
      f_msg := msg ++ 0 :: rest
      format := .compressed msg.length } := by
  have hlen := length_secText rand1 hloc msg
  have hne : secText rand1 c msg ≠ [] := by
    intro h
    rw [h, length_nil] at hlen
    omega
  have hsum := P.checkSum_osMD5Bytes hne (0 :: rest)
  rw [← P.length_osMD5Bytes (secText rand1 c msg), ← length_append, ← append_assoc]
    at hsum
  have hrand : (fmtU0 5 rand1.toNat).length = 5 :=
    length_fmtU0 (by decide) (lt_trans rand1.toNat_lt (by norm_num))
  have hglob : (fmtU0 10 c.glob.toNat).length = 10 :=
    length_fmtU0 (by decide) (lt_trans c.glob.toNat_lt (by norm_num))
  have hlocal : (fmtU0 4 c.loc.toNat).length = 4 := length_fmtU0 (by decide) (by omega)
  -- the text behind each field
  have hdrop₁ : (secText rand1 c msg ++ 0 :: rest).drop 5 = fmtU0 10 c.glob.toNat ++
      chr ':' :: (fmtU0 4 c.loc.toNat ++ chr ':' :: (msg ++ 0 :: rest)) := by
    rw [secText, append_assoc, drop_left' hrand]
    simp
  have hdrop₂ : (fmtU0 10 c.glob.toNat ++ chr ':' :: (fmtU0 4 c.loc.toNat ++
      chr ':' :: (msg ++ 0 :: rest))).drop 10 =
      chr ':' :: (fmtU0 4 c.loc.toNat ++ chr ':' :: (msg ++ 0 :: rest)) := by
    rw [drop_left' hglob]
  have hdrop₃ : (fmtU0 4 c.loc.toNat ++ chr ':' :: (msg ++ 0 :: rest)).drop 5 =
      msg ++ 0 :: rest := by
    rw [drop_append, hlocal, drop_of_length_le (by omega)]
    rfl
  have hglob' : toUInt32 (atoi (fmtU0 10 c.glob.toNat ++ chr ':' ::
      (fmtU0 4 c.loc.toNat ++ chr ':' :: (msg ++ 0 :: rest)))) = c.glob :=
    toUInt32_atoi_fmtU0 10 c.glob rfl
  have hloc' : toUInt32 (atoi (fmtU0 4 c.loc.toNat ++ chr ':' :: (msg ++ 0 :: rest))) = c.loc :=
    toUInt32_atoi_fmtU0 4 c.loc rfl
  have hauth : (secText rand1 c msg ++ 0 :: rest).take
      ((P.osMD5Bytes (secText rand1 c msg) ++ secText rand1 c msg).length - 32) =
      secText rand1 c msg := by
    rw [length_append, P.length_osMD5Bytes, Nat.add_sub_cancel_left, take_left]
  -- the pointer has moved over the digest and the header
  have hsize : sizeSub (P.osMD5Bytes (secText rand1 c msg) ++ secText rand1 c msg).length
      (ptrDiff (msg ++ 0 :: rest)
        (P.osMD5Bytes (secText rand1 c msg) ++ secText rand1 c msg ++ 0 :: rest)) =
      msg.length := by
    simp only [sizeSub, ptrDiff, length_append, P.length_osMD5Bytes, hlen, length_cons]
    omega
  unfold parseCompressed
  simp only [hsum, hdrop₁, hdrop₂, headD_cons, if_true, drop_one, tail_cons,
    hdrop₃, hglob', hloc', hauth, hsize]

/-! ## Both sides -/

/-- The message that is compressed: the digest and the text. -/
def finMsg (P : Crypto) (rand1 : UInt16) (c : Counter) (msg : Bytes) : Bytes :=
  P.osMD5Bytes (secText rand1 c msg) ++ secText rand1 c msg

theorem length_finMsg (rand1 : UInt16) {c : Counter} (hloc : c.loc.toNat ≤ 9997) (msg : Bytes) :
    (finMsg P rand1 c msg).length = 53 + msg.length := by
  rw [finMsg, length_append, P.length_osMD5Bytes, length_secText rand1 hloc]
  omega

/-- The callers of `CreateSecMSG` have a key entry whose id is valid. -/
theorem length_idPrefix_le {client : Bool} {a : CreateArgs}
    (hid : client = true → a.single_host = false → a.entry.id.length ≤ 8) :
    (idPrefix client a).length ≤ 10 ∧
      (idPrefix client a ++ cryptoToken a.entry.crypto_method).length ≤
        (if client && !a.single_host then 16 else 6) - 1 := by
  have htoken := length_cryptoToken a.entry.crypto_method
  have htoken' : (cryptoToken a.entry.crypto_method).length ≤ 5 := by
    rw [htoken]
    split <;> omega
  unfold idPrefix
  split_ifs with h
  · simp only [Bool.and_eq_true, Bool.not_eq_true'] at h
    have hlen := hid h.1 h.2
    simp only [length_append, length_cons, length_nil]
    omega
  · simp only [nil_append, length_nil]
    omega

theorem take_writeAt (s buf bs : Bytes) :
    (writeAt (overwrite (s ++ [0]) buf) s.length bs).take (s.length + bs.length) = s ++ bs := by
  have hs : (overwrite (s ++ [0]) buf).take s.length = s := by
    rw [overwrite, append_assoc, take_left]
  rw [writeAt, hs, overwrite, ← append_assoc, ← length_append, take_left]

/-- What `CreateSecMSG` sends for a payload of a valid length: the prefix, the token and a
ciphertext of the padded stream. -/
theorem createSecMSG_sent (hP : P.Documented) {client : Bool} (s : SenderState) {a : CreateArgs}
    (hmsg : 1 ≤ a.msg.length ∧ a.msg.length ≤ OS_MAXSTR - OS_HEADER_SIZE)
    (hid : client = true → a.single_host = false → a.entry.id.length ≤ 8)
    {rand1 : UInt16} (hrand : a.rand1 = some rand1) {iv : Bytes} (hiv : a.iv = some iv)
    (hivlen : iv.length = 16) :
    ∃ output arr n, createSecMSG P client s a = (s.drawCounter.1, arr, n) ∧
      Encrypts P a.entry.crypto_method a.entry.key
        (padMsg (P.compress (finMsg P rand1 s.drawCounter.2 a.msg))) output ∧
      n = (idPrefix client a).length + (cryptoToken a.entry.crypto_method).length + output.length ∧
      n ≤ OS_MAXSTR ∧
      arr.take n = idPrefix client a ++ (cryptoToken a.entry.crypto_method ++ output) := by
  have hloc : s.drawCounter.2.loc.toNat ≤ 9997 := (SenderState.loc_increment _).2
  have hmax : OS_MAXSTR - OS_HEADER_SIZE = 6016 := rfl
  have hvalid : ¬ (a.msg.length > OS_MAXSTR - OS_HEADER_SIZE ∨ a.msg.length < 1) := by omega
  set data := finMsg P rand1 s.drawCounter.2 a.msg
  have hlen : data.length = 53 + a.msg.length := length_finMsg rand1 hloc a.msg
  -- the stream fits, so compression succeeds
  have hstream := hP.length_compress_le data
  obtain ⟨b, stream, hcons, -⟩ := hP.head_compress data
  have hpos : 0 < (P.compress data).length := by rw [hcons]; exact Nat.succ_pos _
  have hcompress : P.osZlibCompress data (OS_MAXSTR - 12) = some (P.compress data) := by
    have hfits : 0 < (P.compress data).length ∧ (P.compress data).length ≤ OS_MAXSTR - 12 :=
      ⟨hpos, by simp only [OS_MAXSTR]; omega⟩
    simp only [Crypto.osZlibCompress, hfits, and_self, if_true]
  -- so does the ciphertext
  obtain ⟨hdvd, hbangs⟩ := bangs_spec (P.compress data).length
  have hpad := length_padMsg (P.compress data)
  have hne : padMsg (P.compress data) ≠ [] := by
    rw [← length_pos_iff, hpad]
    omega
  obtain ⟨output, hencrypt, henc⟩ := doEncryptByMethod_encrypts hP a.entry.crypto_method hne
    (hpad ▸ hdvd) hivlen a.entry.key
  obtain ⟨hidlen, hcut⟩ := length_idPrefix_le hid
  have htoken : (cryptoToken a.entry.crypto_method).length ≤ 5 := by
    rw [length_cryptoToken]
    split <;> omega
  set prefx := idPrefix client a ++ cryptoToken a.entry.crypto_method with hprefx
  have hprefxlen : prefx.length =
      (idPrefix client a).length + (cryptoToken a.entry.crypto_method).length := by
    rw [hprefx, length_append]
  have hsize : max (padMsg (P.compress data)).length
      (cryptoLength a.entry.crypto_method output) = output.length := by
    have hle := henc.le_length
    rcases hm : a.entry.crypto_method with _ | _
    · have hblowfish := henc.length_blowfish hm
      simp only [cryptoLength]
      omega
    · simp only [cryptoLength]
      omega
  have hfin : P.osMD5Bytes (secText rand1 s.drawCounter.2 a.msg) ++
      secText rand1 s.drawCounter.2 a.msg = data := rfl
  refine ⟨output, writeAt (overwrite (prefx ++ [0]) (setByte a.msg_encrypted OS_MAXSTR 0))
    prefx.length output, output.length + prefx.length, ?_, henc, ?_, ?_, ?_⟩
  · unfold createSecMSG
    simp only [hvalid, if_false, hrand, hfin, hcompress, hiv, hencrypt, hsize, ← hprefx,
      take_of_length_le hcut]
  · rw [hprefxlen]
    omega
  · have hle := henc.length_le
    rw [hprefxlen, OS_MAXSTR]
    omega
  · rw [← append_assoc, ← hprefx, add_comm, take_writeAt]

/-- The receiver parses a sent message to its pair and its payload. -/
theorem parseMsg_sent (hP : P.Documented) {cfg : ReadConfig} {e : KeyEntry} {m : CryptMethod}
    {rand1 : UInt16} {c : Counter} {msg output stale : Bytes} {d : Datagram}
    (hm : cfg.client = true → e.crypto_method = m) (hloc : c.loc.toNat ≤ 9997)
    (hmsg : msg.length < 2 ^ 32)
    (henc : Encrypts P m e.key (padMsg (P.compress (finMsg P rand1 c msg))) output)
    (hbuf : d.buffer = cryptoToken m ++ (output ++ stale))
    (hsize : d.buffer_size = output.length + (cryptoToken m).length - 1)
    (hsize_le : d.buffer_size ≤ OS_MAXSTR)
    (hroom : 58 + msg.length < d.buffer_max) :
    ∃ rest, parseMsg P cfg e d = .ok {
      crypto_method := m
      authentic := chr '!' :: secText rand1 c msg
      counter := c
      f_msg := msg ++ 0 :: rest
      format := .compressed msg.length } := by
  have hdata := length_finMsg (P := P) rand1 hloc msg
  have htoken : 1 ≤ (cryptoToken m).length ∧ (cryptoToken m).length ≤ 5 := by
    cases m <;> decide
  obtain ⟨pad, hdecrypt⟩ := henc.decrypt e stale d.cleartext rfl (hsize ▸ hsize_le)
  have hbang : (overwrite (padMsg (P.compress (finMsg P rand1 c msg)) ++ pad)
      (setByte d.cleartext 0 0)).headD 0 = chr '!' := by
    simp [overwrite, padMsg, bangs, replicate_succ]
  have hle := henc.le_length
  have hpos : 0 < (finMsg P rand1 c msg).length := by omega
  have hfits : (finMsg P rand1 c msg).length < d.buffer_max - (cryptoToken m).length := by omega
  have hpadded : (padMsg (P.compress (finMsg P rand1 c msg))).length ≤ d.buffer_size := by omega
  have hinflate := inflateMsg_padMsg hP (output ++ stale) pad (setByte d.cleartext 0 0) hpos hfits
    hpadded
  refine ⟨(output ++ stale).drop ((finMsg P rand1 c msg).length + 1), ?_⟩
  unfold parseMsg
  rw [hbuf, stripPrefix_cryptoToken hm _ (by omega)]
  simp only [hsize, hdecrypt, hbang, if_true]
  rw [← hsize, hinflate]
  exact parseCompressed_secText e m rand1 hloc hmsg _

/-- What the callers of `ReadSecMSG` pass for a datagram of `recv_b` bytes in `buffer`, behind an
id prefix of `skip` bytes. -/
def datagramOf (buffer : Bytes) (recv_b skip : ℕ) (cleartext srcip : Bytes) : Datagram where
  buffer := buffer.drop skip
  buffer_max := buffer.length - skip
  cleartext := cleartext
  buffer_size := recv_b - skip - 1
  srcip := srcip

/-- A message that parses to a pair above the stored one is returned, and sets the stored pair. -/
theorem readSecMSG_of_parseMsg {cfg : ReadConfig} {t : EntryState} {d : Datagram} {m : ParsedMsg}
    {final_size : ℕ} (hm : parseMsg P cfg t.entry d = .ok m)
    (hf : m.format = .compressed final_size)
    (hstored : cfg.verify_counter = true → (t.reload cfg).entry.counter < m.counter) :
    (readSecMSG P cfg t d).1.entry.counter = m.counter ∧
    (readSecMSG P cfg t d).2 = .ok {
      authentic := m.authentic, counter := m.counter, f_msg := m.f_msg,
      final_size := final_size } := by
  have hcall : readSecMSG P cfg t d = acceptCompressed cfg d.srcip t m final_size := by
    simp [readSecMSG, hm, hf]
  rw [hcall, acceptCompressed]
  by_cases hv : cfg.verify_counter = true
  · have hnew := (isNewer_iff _ _).mpr (hstored hv)
    simp [hv, hnew]
  · simp [hv]

/-- The round trip. Whatever an earlier datagram left in the arrays of the receiver, a message
that `CreateSecMSG` made comes back byte for byte if the pair it carries is above the one it is
compared with, and the entry then has the pair the sender stored. -/
theorem readSecMSG_createSecMSG (hP : P.Documented) (client : Bool) (s : SenderState)
    {a : CreateArgs} (hmsg : 1 ≤ a.msg.length ∧ a.msg.length ≤ OS_MAXSTR - OS_HEADER_SIZE)
    (hid : client = true → a.single_host = false → a.entry.id.length ≤ 8)
    {rand1 : UInt16} (hrand : a.rand1 = some rand1) {iv : Bytes} (hiv : a.iv = some iv)
    (hivlen : iv.length = 16) (cfg : ReadConfig) {t : EntryState}
    (hkey : t.entry.key = a.entry.key)
    (hmethod : cfg.client = true → t.entry.crypto_method = a.entry.crypto_method)
    (hstored : cfg.verify_counter = true →
      (t.reload cfg).entry.counter < (createSecMSG P client s a).1.count)
    (buffer cleartext srcip : Bytes) (hbuffer : buffer.length = OS_MAXSTR + 1) :
    let (s', msg_encrypted, n) := createSecMSG P client s a
    let received := overwrite (msg_encrypted.take n) buffer
    let d := datagramOf received n (idPrefix client a).length cleartext srcip
    let (t', r) := readSecMSG P cfg t d
    n ≠ 0 ∧ t'.entry.counter = s'.count ∧
    ∃ m : SecMsg, r = .ok m ∧ m.counter = s'.count ∧ m.final_size = a.msg.length ∧
      m.f_msg.take m.final_size = a.msg := by
  obtain ⟨output, arr, n, hcreate, henc, hn, hmax, hsent⟩ :=
    createSecMSG_sent hP s hmsg hid hrand hiv hivlen
  have hcount : s.drawCounter.1.count = s.drawCounter.2 := SenderState.count_drawCounter s
  rw [hcreate] at hstored ⊢
  simp only [hcount] at hstored ⊢
  set c := s.drawCounter.2
  have hloc : c.loc.toNat ≤ 9997 := (SenderState.loc_increment _).2
  set d := datagramOf (overwrite (arr.take n) buffer) n (idPrefix client a).length cleartext srcip
    with hd
  have hmax' : OS_MAXSTR - OS_HEADER_SIZE = 6016 := rfl
  obtain ⟨hidlen, -⟩ := length_idPrefix_le hid
  have hsentlen : (arr.take n).length = n := by
    rw [hsent, hn, length_append, length_append, Nat.add_assoc]
  -- behind the id prefix stand the token, the ciphertext and old bytes
  have hbuf : d.buffer = cryptoToken a.entry.crypto_method ++ (output ++ buffer.drop n) := by
    simp only [hd, datagramOf, overwrite, hsentlen]
    rw [hsent, append_assoc, append_assoc, drop_left]
  have hroom : d.buffer_max = OS_MAXSTR + 1 - (idPrefix client a).length := by
    simp only [hd, datagramOf, overwrite, length_append, hsentlen, length_drop, hbuffer]
    omega
  have hbytes : d.buffer_size =
      output.length + (cryptoToken a.entry.crypto_method).length - 1 := by
    simp only [hd, datagramOf]
    omega
  obtain ⟨rest, hparse⟩ := parseMsg_sent hP hmethod hloc (by omega) (hkey ▸ henc) hbuf hbytes
    (by omega) (by rw [hroom, OS_MAXSTR]; omega)
  obtain ⟨hset, hret⟩ := readSecMSG_of_parseMsg hparse rfl hstored
  refine ⟨?_, hset, _, hret, rfl, rfl, take_left⟩
  have hle := henc.le_length
  rw [length_padMsg] at hle
  have hbangs : 1 ≤ bangs (P.compress (finMsg P rand1 c a.msg)).length := by simp [bangs]
  omega

/-- An agent with a dynamic address and AES, a payload of separators and a zero byte. -/
theorem readSecMSG_createSecMSG_separators :
    let e : KeyEntry := {
      rcvd := 0, counter := ⟨0, 3⟩, keyid := 0, id := [48, 48, 49], key := [], name := [], ip := [],
      peer_info := [], fp := none, inode := 0, crypto_method := .aes }
    let msg := [chr '!', chr ':', 0, chr '!']
    let a : CreateArgs := {
      entry := e, single_host := false, msg := msg
      msg_encrypted := List.replicate (OS_MAXSTR + 1) 7
      rand1 := some 65535, iv := some (List.replicate 16 1) }
    let cfg : ReadConfig := { client := false, verify_counter := true, recv_flush := 100 }
    let t : EntryState := { rids := .empty, rcv_count := 0, entry := e }
    let (s', msg_encrypted, n) := createSecMSG .plain true ⟨.empty, ⟨0, 9997⟩, none, 0⟩ a
    let received := overwrite (msg_encrypted.take n) (List.replicate (OS_MAXSTR + 1) 58)
    let d := datagramOf received n 5 (List.replicate (OS_MAXSTR + 1) 33) []
    s'.count = ⟨1, 1⟩ ∧ ∃ m : SecMsg, (readSecMSG .plain cfg t d).2 = .ok m ∧
      m.f_msg.take m.final_size = msg := by
  intro e msg a cfg t
  have h := readSecMSG_createSecMSG Crypto.documented_plain true
    ⟨.empty, ⟨0, 9997⟩, none, 0⟩ (a := a) (by decide) (fun _ _ => by decide) rfl rfl rfl
    cfg (t := t) rfl nofun (fun _ => (Counter.lt_iff _ _).mpr (by decide +kernel))
    (List.replicate (OS_MAXSTR + 1) 58) (List.replicate (OS_MAXSTR + 1) 33) []
    length_replicate
  have hcount : (createSecMSG .plain true ⟨.empty, ⟨0, 9997⟩, none, 0⟩ a).1.count = ⟨1, 1⟩ := by
    decide +kernel
  obtain ⟨-, -, m, hm, -, -, hmsg⟩ := h
  exact ⟨hcount, m, hm, hmsg⟩
