import OssecHids.OsCrypto.ReadSecMSG
import OssecHids.OsCrypto.Sender

/-!
# Creating a secure message

`CreateSecMSG`: a header of a random number and the next pair of counters is put in front of the
payload, the text gets its digest, and the result is compressed, padded with `!` to whole
Blowfish blocks and encrypted.

The array `msg_encrypted` is given with its old bytes, since the `!id!` prefix of an agent is
written with a bounded `snprintf` whose return value can be larger than what it wrote.
-/

open CString

/-- `OS_HEADER_SIZE` -/
def OS_HEADER_SIZE : ℕ := 128

/-- The arguments of one call, and what the operating system contributes to it. -/
structure CreateArgs where
  /-- `keys->keyentries[id]` -/
  entry : KeyEntry
  /-- `isSingleHost` of the entry's address. -/
  single_host : Bool
  msg : Bytes
  /-- The array for the result, as it is before the call. -/
  msg_encrypted : Bytes
  /-- What `randombytes_try` gives for `rand1`. -/
  rand1 : Option UInt16
  /-- What `randombytes_try` gives for the IV. -/
  iv : Option Bytes

/-- The header and the payload: `"%05hu%010u:%04u:"` and `msg`. -/
def secText (rand1 : UInt16) (c : Counter) (msg : Bytes) : Bytes :=
  fmtU0 5 rand1.toNat ++ (fmtU0 10 c.glob.toNat ++
    chr ':' :: (fmtU0 4 c.loc.toNat ++ chr ':' :: msg))

/-- The number of `!` in front of a compressed message: one, and what is missing to a multiple
of 8. -/
def bangs (cmp_size : ℕ) : ℕ :=
  let bfsize := 8 - (cmp_size + 1) % 8
  (if bfsize = 8 then 0 else bfsize) + 1

/-- The compressed message with its padding. -/
def padMsg (stream : Bytes) : Bytes := List.replicate (bangs stream.length) (chr '!') ++ stream

/-- `crypto_token` -/
def cryptoToken : CryptMethod → Bytes
  | .blowfish => [chr ':']
  | .aes => aesToken ++ [chr ':']

/-- `doEncryptByMethod` with `OS_ENCRYPT`. -/
def doEncryptByMethod (P : Crypto) (crypto_method : CryptMethod) (iv : Option Bytes)
    (input charkey : Bytes) : Option Bytes :=
  match crypto_method with
  | .blowfish => some (P.osBFStrEncrypt input charkey)
  | .aes => P.osAESStrEncrypt iv input charkey

/-- The return value of `doEncryptByMethod` for an output: only AES returns its length. -/
def cryptoLength : CryptMethod → Bytes → ℕ
  | .blowfish, _ => 1
  | .aes, output => output.length

/-- The `!id!` that an agent with a dynamic address puts in front of the token. -/
def idPrefix (client : Bool) (a : CreateArgs) : Bytes :=
  if client && !a.single_host then chr '!' :: (a.entry.id ++ [chr '!']) else []

/-- Write `bs` into an array from an offset on. -/
def writeAt (buf : Bytes) (offset : ℕ) (bs : Bytes) : Bytes :=
  buf.take offset ++ overwrite bs (buf.drop offset)

/-- `CreateSecMSG`: the sender counter, `msg_encrypted` and the return value. -/
def createSecMSG (P : Crypto) (client : Bool) (s : SenderState) (a : CreateArgs) :
    SenderState × Bytes × ℕ :=
  if a.msg.length > OS_MAXSTR - OS_HEADER_SIZE ∨ a.msg.length < 1 then (s, a.msg_encrypted, 0)
  else
    match a.rand1 with
    | none => (s, a.msg_encrypted, 0)
    | some rand1 =>
      let msg_encrypted := setByte a.msg_encrypted OS_MAXSTR 0
      let (s, c) := s.drawCounter
      let text := secText rand1 c a.msg
      match P.osZlibCompress (P.osMD5Bytes text ++ text) (OS_MAXSTR - 12) with
      | none => (s, msg_encrypted, 0)
      | some stream =>
        let input := padMsg stream
        let prefx := idPrefix client a ++ cryptoToken a.entry.crypto_method
        -- the prefix is cut at the size given to `snprintf`, its length is not
        let size := if client && !a.single_host then 16 else 6
        let msg_encrypted := overwrite (prefx.take (size - 1) ++ [0]) msg_encrypted
        match doEncryptByMethod P a.entry.crypto_method a.iv input a.entry.key with
        | none => (s, msg_encrypted, 0)
        | some output =>
          let cmp_size := max input.length (cryptoLength a.entry.crypto_method output)
          (s, writeAt msg_encrypted prefx.length output, cmp_size + prefx.length)

/-! ## The shape of a message -/

theorem length_secText (rand1 : UInt16) {c : Counter} (hloc : c.loc.toNat ≤ 9997) (msg : Bytes) :
    (secText rand1 c msg).length = 21 + msg.length := by
  have hrand : (fmtU0 5 rand1.toNat).length = 5 :=
    length_fmtU0 (by decide) (lt_trans rand1.toNat_lt (by norm_num))
  have hglob : (fmtU0 10 c.glob.toNat).length = 10 :=
    length_fmtU0 (by decide) (lt_trans c.glob.toNat_lt (by norm_num))
  have hlocal : (fmtU0 4 c.loc.toNat).length = 4 := length_fmtU0 (by decide) (by omega)
  simp only [secText, List.length_append, List.length_cons, hrand, hglob, hlocal]
  omega

theorem bangs_spec (n : ℕ) : 8 ∣ bangs n + n ∧ bangs n ≤ 8 := by
  unfold bangs
  constructor
  · simp only
    split_ifs with h
    · omega
    · omega
  · simp only
    split_ifs with h <;> omega

theorem length_padMsg (stream : Bytes) :
    (padMsg stream).length = bangs stream.length + stream.length := by
  simp [padMsg]

theorem padMsg_cons {b : UInt8} {s : Bytes} (hb : b ≠ chr '!') (rest : Bytes) :
    ((padMsg (b :: s) ++ rest).drop 1).takeWhile (· = chr '!') =
      List.replicate (bangs (b :: s).length - 1) (chr '!') := by
  have hdrop : (padMsg (b :: s) ++ rest).drop 1 =
      List.replicate (bangs (b :: s).length - 1) (chr '!') ++ (b :: s ++ rest) := by
    simp [padMsg, bangs, List.replicate_succ]
  rw [hdrop, List.takeWhile_append_of_pos]
  · simp [hb]
  · intro c hc
    simp [List.eq_of_mem_replicate hc]
