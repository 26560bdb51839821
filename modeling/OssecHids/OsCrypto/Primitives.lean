import OssecHids.Lib.CString

/-!
# Hashing, encryption and compression of secure messages

The wrappers of `os_crypto` and `os_zlib` around OpenSSL and zlib. `Crypto` collects what comes
from those libraries; the wrappers add the text form of the digest, the IV in front of an AES
ciphertext and the size checks of the buffers.

`Crypto.Documented` states what the round trip of a message relies on: decryption undoes
encryption, decompression undoes compression and ignores what follows the compressed stream,
and the bounds the libraries document for the sizes of their outputs.
-/

open CString List

/-- The functions of OpenSSL and zlib behind `os_crypto` and `os_zlib`. -/
structure Crypto where
  /-- The 16 bytes of an MD5 digest. -/
  md5 : Bytes → Fin 16 → UInt8
  /-- `BF_cbc_encrypt` with the fixed IV of `OS_BF_Str`, encrypting. -/
  bfEncrypt : (charkey input : Bytes) → Bytes
  /-- `BF_cbc_encrypt` with the fixed IV of `OS_BF_Str`, decrypting. -/
  bfDecrypt : (charkey input : Bytes) → Bytes
  /-- The ciphertext `encrypt_AES` writes, empty when OpenSSL fails. -/
  encryptAES : (charkey iv plaintext : Bytes) → Bytes
  /-- What `decrypt_AES` writes to its output, and whether the last block was accepted. -/
  decryptAES : (charkey iv ciphertext : Bytes) → Bytes × Bool
  /-- The stream `compress2` produces at `Z_BEST_COMPRESSION`. -/
  compress : Bytes → Bytes
  /-- The data of the stream at the start of the input, if `uncompress` reaches its end. -/
  uncompress : Bytes → Option Bytes

namespace Crypto

variable (P : Crypto)

/-! ## MD5 -/

/-- A digit of `%02x`. -/
def hexDigit (n : ℕ) : UInt8 := UInt8.ofNat (if n < 10 then 48 + n else 87 + n)

/-- `OS_MD5_Bytes`: the digest as 32 hexadecimal characters. -/
def osMD5Bytes (str : Bytes) : Bytes :=
  (List.ofFn (P.md5 str)).flatMap fun b => [hexDigit (b.toNat / 16), hexDigit (b.toNat % 16)]

private theorem hexDigit_ne_zero : ∀ n < 16, hexDigit n ≠ 0 := by decide

@[simp]
theorem length_osMD5Bytes (str : Bytes) : (P.osMD5Bytes str).length = 32 := by
  simp [osMD5Bytes]

theorem osMD5Bytes_ne_zero (str : Bytes) : ∀ b ∈ P.osMD5Bytes str, b ≠ 0 := by
  intro b hb
  obtain ⟨d, -, hb⟩ := mem_flatMap.mp hb
  have hd : d.toNat < 256 := d.toNat_lt
  simp only [mem_cons, not_mem_nil, or_false] at hb
  rcases hb with rfl | rfl
  · exact hexDigit_ne_zero _ (by omega)
  · exact hexDigit_ne_zero _ (by omega)

/-! ## Blowfish and AES -/

/-- The output of `OS_BF_Str(input, output, charkey, size, OS_ENCRYPT)`. -/
def osBFStrEncrypt (input charkey : Bytes) : Bytes := P.bfEncrypt charkey input

/-- The output of `OS_BF_Str(input, output, charkey, size, OS_DECRYPT)`. -/
def osBFStrDecrypt (input charkey : Bytes) : Bytes := P.bfDecrypt charkey input

/-- `OS_AES_Str` with `OS_ENCRYPT`: the random IV followed by the ciphertext. `none` is the
return value 0, when there is no entropy for the IV or OpenSSL fails. -/
def osAESStrEncrypt (iv : Option Bytes) (input charkey : Bytes) : Option Bytes :=
  iv.bind fun iv =>
    let ciphertext := P.encryptAES charkey iv input
    if ciphertext.length = 0 then none else some (iv ++ ciphertext)

/-- `OS_AES_Str` with `OS_DECRYPT`: the bytes written to the output and the return value. -/
def osAESStrDecrypt (input charkey : Bytes) : Bytes × ℕ :=
  if input.length < 16 then ([], 0)
  else
    let (plaintext, final) := P.decryptAES charkey (input.take 16) (input.drop 16)
    (plaintext, if final then plaintext.length else 0)

/-! ## zlib -/

/-- `os_zlib_compress`: the compressed stream if it fits in `dst_size` bytes. `none` is the
return value 0. -/
def osZlibCompress (src : Bytes) (dst_size : ℕ) : Option Bytes :=
  let stream := P.compress src
  if 0 < stream.length ∧ stream.length ≤ dst_size then some stream else none

/-- `os_zlib_uncompress`: the data, if it is not empty and fits in `dst_size` bytes. `none` is
the return value 0. -/
def osZlibUncompress (src : Bytes) (dst_size : ℕ) : Option Bytes :=
  (P.uncompress src).bind fun data =>
    if 0 < data.length ∧ data.length ≤ dst_size then some data else none

/-- What the libraries document and the secure messages rely on. A decryption may put padding
behind the text. -/
structure Documented : Prop where
  /-- Blowfish in CBC mode keeps the length of whole blocks. -/
  length_bfEncrypt : ∀ key x, 8 ∣ x.length → (P.bfEncrypt key x).length = x.length
  bfDecrypt_bfEncrypt : ∀ key x, 8 ∣ x.length → ∃ pad, P.bfDecrypt key (P.bfEncrypt key x) = x ++ pad
  /-- AES in CBC mode pads to the next multiple of 16. -/
  length_encryptAES : ∀ key iv x, (P.encryptAES key iv x).length = (x.length / 16 + 1) * 16
  decryptAES_encryptAES : ∀ key iv x,
    ∃ pad, P.decryptAES key iv (P.encryptAES key iv x) = (x ++ pad, true)
  /-- `compressBound` of zlib. -/
  length_compress_le : ∀ x,
    (P.compress x).length ≤ x.length + x.length / 2 ^ 12 + x.length / 2 ^ 14 + x.length / 2 ^ 25 + 13
  /-- A zlib stream is not empty and its first byte is never `!`. -/
  head_compress : ∀ x, ∃ b s, P.compress x = b :: s ∧ b ≠ chr '!'
  /-- Decompression undoes compression and ignores what follows the stream. -/
  uncompress_compress : ∀ x rest, P.uncompress (P.compress x ++ rest) = some x

/-! ## The checksum of a message -/

/-- `CheckSum`: the text behind the 32 digest characters of a message of `length` bytes, if the
digest is the one of that text. -/
def checkSum (msg : Bytes) (length : ℕ) : Option Bytes :=
  if length ≤ 32 then none
  else
    let recvd_sum := strncpy 32 msg
    let msg := msg.drop 32
    let checksum := P.osMD5Bytes (msg.take (length - 32))
    if strncmpEq 32 checksum recvd_sum then some msg else none

/-- A text with its digest in front of it passes `CheckSum`, whatever is behind it. -/
theorem checkSum_osMD5Bytes {text : Bytes} (ht : text ≠ []) (rest : Bytes) :
    P.checkSum (P.osMD5Bytes text ++ (text ++ rest)) (32 + text.length) = some (text ++ rest) := by
  have hpos : 0 < text.length := length_pos_iff.mpr ht
  have hlen : ¬ 32 + text.length ≤ 32 := by omega
  have hdrop : (P.osMD5Bytes text ++ (text ++ rest)).drop 32 = text ++ rest := by
    rw [← P.length_osMD5Bytes text, drop_left]
  have htake : (text ++ rest).take (32 + text.length - 32) = text := by
    rw [Nat.add_sub_cancel_left, take_left]
  have hrecvd : strncpy 32 (P.osMD5Bytes text ++ (text ++ rest)) = P.osMD5Bytes text :=
    strncpy_append (P.length_osMD5Bytes text) (P.osMD5Bytes_ne_zero text) _
  simp only [checkSum, hlen, if_false, hdrop, htake, hrecvd, strncmpEq_self, if_true]

/-! ## An instance -/

/-- The stream of a compressor that stores its input behind the length: a header byte, the
length divided by 4096 in unary, the rest of it in two bytes, the data. -/
def storeStream (x : Bytes) : Bytes :=
  120 :: (List.replicate (x.length / 4096) 1 ++
    0 :: UInt8.ofNat (x.length % 4096 / 256) :: UInt8.ofNat (x.length % 256) :: x)

/-- Read back the data of a stored stream. -/
def loadStream : Bytes → Option Bytes
  | 120 :: s =>
    match s.dropWhile (· = 1) with
    | 0 :: hi :: lo :: data =>
      let length := (s.takeWhile (· = 1)).length * 4096 + hi.toNat * 256 + lo.toNat
      if length ≤ data.length then some (data.take length) else none
    | _ => none
  | _ => none

theorem loadStream_storeStream (x rest : Bytes) : loadStream (storeStream x ++ rest) = some x := by
  have hone : ∀ b ∈ List.replicate (x.length / 4096) (1 : UInt8), decide (b = 1) = true := by
    intro b hb
    simp [eq_of_mem_replicate hb]
  have hhi : (UInt8.ofNat (x.length % 4096 / 256)).toNat = x.length % 4096 / 256 := by
    rw [UInt8.toNat_ofNat']
    omega
  have hlo : (UInt8.ofNat (x.length % 256)).toNat = x.length % 256 := by
    rw [UInt8.toNat_ofNat']
    omega
  have hlen : x.length / 4096 * 4096 + x.length % 4096 / 256 * 256 + x.length % 256 =
      x.length := by omega
  simp only [storeStream, cons_append, append_assoc, loadStream,
    takeWhile_append_of_pos hone, dropWhile_append_of_pos hone]
  simp [hhi, hlo, hlen]

/-- A constant digest, the identity as a cipher, padding to whole blocks and stored streams. -/
def plain : Crypto where
  md5 := fun _ _ => 0
  bfEncrypt := fun _ x => x
  bfDecrypt := fun _ x => x
  encryptAES := fun _ _ x =>
    x ++ List.replicate (16 - x.length % 16) (UInt8.ofNat (16 - x.length % 16))
  decryptAES := fun _ _ x => (x.take (x.length - (x.getLastD 0).toNat), true)
  compress := storeStream
  uncompress := loadStream

theorem documented_plain : plain.Documented where
  length_bfEncrypt := fun _ _ _ => rfl
  bfDecrypt_bfEncrypt := fun _ x _ => ⟨[], (append_nil x).symm⟩
  length_encryptAES := by
    intro key iv x
    simp only [plain, length_append, length_replicate]
    omega
  decryptAES_encryptAES := by
    intro key iv x
    -- the last byte is the length of the padding
    obtain ⟨k, hk⟩ : ∃ k, 16 - x.length % 16 = k + 1 := ⟨15 - x.length % 16, by omega⟩
    have hlast : ((x ++ List.replicate (k + 1) (UInt8.ofNat (k + 1))).getLastD 0).toNat =
        k + 1 := by
      rw [replicate_succ', ← append_assoc, getLastD_concat, UInt8.toNat_ofNat']
      omega
    have hlen : (x ++ List.replicate (k + 1) (UInt8.ofNat (k + 1))).length - (k + 1) =
        x.length := by simp
    refine ⟨[], ?_⟩
    simp only [plain, hk, hlast, hlen, take_left, append_nil]
  length_compress_le := by
    intro x
    simp only [plain, storeStream, length_cons, length_append, length_replicate]
    omega
  head_compress := fun x => ⟨120, _, rfl, by decide⟩
  uncompress_compress := loadStream_storeStream

end Crypto
