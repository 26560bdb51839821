import OssecHids.OsCrypto.Keystore
import OssecHids.OsCrypto.Primitives

/-!
# Receiving a secure message

`ReadSecMSG`: the stages of the source one by one. Stepping over the cipher token, decrypting
and parsing change nothing and only depend on the datagram and on the key and cipher of the
entry (`parseMsg`). What follows compares the parsed pair with the stored one and updates the
entry, the rids file and the flush counter (`acceptCompressed`, `acceptOld`).

The arrays `buffer` and `cleartext` are given with all their bytes, so what an earlier datagram
left in them is part of the input.
-/

open CString Rids

/-- `OS_MAXSTR` -/
def OS_MAXSTR : ℕ := 6144

/-- What the settings and the build fix for `ReadSecMSG`. -/
structure ReadConfig where
  /-- Whether `CLIENT` is defined. -/
  client : Bool
  /-- `_s_verify_counter` -/
  verify_counter : Bool
  /-- `_s_recv_flush` -/
  recv_flush : UInt32

/-- The arguments of one call: the two arrays from the pointers on, the room left in `buffer`,
the size of the datagram behind the id prefix, and the address it came from. -/
structure Datagram where
  buffer : Bytes
  buffer_max : ℕ
  cleartext : Bytes
  buffer_size : ℕ
  srcip : Bytes
  deriving DecidableEq

/-- Why a message is refused, with the argument of the log message. `duplicate` is the old
format's return without a log message. -/
inductive ReadError
  | encsize (id : Bytes)
  | encformat (id : Bytes)
  | enckey (ip : Bytes)
  | uncompress
  | encsum (ip : Bytes)
  | enctime (name : Bytes)
  | duplicate
  deriving DecidableEq

/-- An accepted message: the returned pointer and `*final_size`, with what the source only keeps
in its local variables: the pair the message carried, and the marker of its format with the bytes
its digest covers. -/
structure SecMsg where
  authentic : Bytes
  counter : Counter
  f_msg : Bytes
  final_size : ℕ
  deriving DecidableEq

/-- The two formats of a cleartext, with what the rest of `ReadSecMSG` needs of them. -/
inductive MsgFormat
  /-- The `!` format, and `*final_size`. -/
  | compressed (final_size : ℕ)
  /-- The `:` format, the cleartext behind the `:` and `buffer_size`. -/
  | old (cleartext : Bytes) (buffer_size : ℕ)

/-- A message whose digest has been checked. -/
structure ParsedMsg where
  crypto_method : CryptMethod
  /-- The marker of the format and the bytes the digest covers. -/
  authentic : Bytes
  /-- `msg_global` and `msg_local`, or `msg_time` and `msg_count`. -/
  counter : Counter
  f_msg : Bytes
  format : MsgFormat

/-! ## Decrypting and parsing -/

/-- The token `#AES`. -/
def aesToken : Bytes := ['#', 'A', 'E', 'S'].map chr

/-- The prefix of a datagram: its cipher, and `buffer` and `buffer_max` behind the `:`. -/
def stripPrefix (cfg : ReadConfig) (e : KeyEntry) (buffer : Bytes) (buffer_max : ℕ) :
    Except ReadError (CryptMethod × Bytes × ℕ) :=
  let aes := strncmpEq 4 buffer aesToken
  -- only the server takes the cipher from the datagram
  let crypto_method :=
    if cfg.client then e.crypto_method else if aes then .aes else .blowfish
  if aes && buffer_max < 4 then .error (.encsize e.id)
  else
    let buffer := if aes then buffer.drop 4 else buffer
    let buffer_max := if aes then buffer_max - 4 else buffer_max
    if buffer.headD 0 = chr ':' then
      if buffer_max < 1 then .error (.encsize e.id)
      else .ok (crypto_method, buffer.drop 1, buffer_max - 1)
    else .error (.encformat e.id)

/-- The array `cleartext` after the decryption. -/
def decryptMsg (P : Crypto) (e : KeyEntry) (crypto_method : CryptMethod)
    (buffer cleartext : Bytes) (buffer_size : ℕ) : Except ReadError Bytes :=
  if buffer_size = 0 ∨ buffer_size > OS_MAXSTR then .error (.encsize e.id)
  else
    let cleartext := setByte cleartext 0 0
    match crypto_method with
    | .blowfish =>
      .ok (overwrite (P.osBFStrDecrypt (buffer.take buffer_size) e.key) cleartext)
    | .aes =>
      -- `buffer_size` still counts the token
      if buffer_size ≤ 4 then .error (.encsize e.id)
      else
        let (output, n) := P.osAESStrDecrypt (buffer.take (buffer_size - 4)) e.key
        if n = 0 then .error (.enckey e.ip) else .ok (overwrite output cleartext)

/-- Remove the padding and inflate back into `buffer`: the new `buffer` and `*final_size`. -/
def inflateMsg (P : Crypto) (buffer cleartext : Bytes) (buffer_max buffer_size : ℕ) :
    Option (Bytes × ℕ) :=
  let cleartext := (setByte cleartext buffer_size 0).drop 1
  let padding := (cleartext.takeWhile (· = chr '!')).length
  let src := (cleartext.drop padding).take (buffer_size - 1 - padding)
  if buffer_max < 1 then none
  else (P.osZlibUncompress src (buffer_max - 1)).map fun data =>
    (overwrite (data ++ [0]) buffer, data.length)

/-- The inflated message: `<md5><random 5><global 10>:<local 4>:<payload>`. -/
def parseCompressed (P : Crypto) (e : KeyEntry) (crypto_method : CryptMethod) (buffer : Bytes)
    (final_size : ℕ) : Except ReadError ParsedMsg :=
  match P.checkSum buffer final_size with
  | none => .error (.encsum e.ip)
  | some f_msg =>
    let authentic := chr '!' :: f_msg.take (final_size - 32)
    -- remove the random number
    let f_msg := f_msg.drop 5
    let msg_global := toUInt32 (atoi f_msg)
    let f_msg := f_msg.drop 10
    if f_msg.headD 0 = chr ':' then
      let f_msg := f_msg.drop 1
      let msg_local := toUInt32 (atoi f_msg)
      let f_msg := f_msg.drop 5
      .ok {
        crypto_method := crypto_method
        authentic := authentic
        counter := { glob := msg_global, loc := msg_local }
        f_msg := f_msg
        format := .compressed (sizeSub final_size (ptrDiff f_msg buffer)) }
    else .error (.encformat e.id)

/-- The old format: `:<md5><time 10>?<count 4>?..:<payload>`. The digest covers `buffer_size`
bytes behind the `:`, so it includes the byte that closes the string. -/
def parseOld (P : Crypto) (e : KeyEntry) (crypto_method : CryptMethod) (cleartext : Bytes)
    (buffer_size : ℕ) : Except ReadError ParsedMsg :=
  let cleartext := (setByte cleartext buffer_size 0).drop 1
  match P.checkSum cleartext buffer_size with
  | none => .error (.encsum e.ip)
  | some f_msg =>
    let authentic := chr ':' :: f_msg.take (buffer_size - 32)
    let msg_time := toUInt32 (atoi f_msg)
    let f_msg := f_msg.drop 11
    let msg_count := toUInt32 (atoi f_msg)
    .ok {
      crypto_method := crypto_method
      authentic := authentic
      counter := { glob := msg_time, loc := msg_count }
      f_msg := f_msg.drop 5
      format := .old cleartext buffer_size }

/-- Everything up to the check of the counters. -/
def parseMsg (P : Crypto) (cfg : ReadConfig) (e : KeyEntry) (d : Datagram) :
    Except ReadError ParsedMsg :=
  match stripPrefix cfg e d.buffer d.buffer_max with
  | .error err => .error err
  | .ok (crypto_method, buffer, buffer_max) =>
    match decryptMsg P e crypto_method buffer d.cleartext d.buffer_size with
    | .error err => .error err
    | .ok cleartext =>
      if cleartext.headD 0 = chr '!' then
        match inflateMsg P buffer cleartext buffer_max d.buffer_size with
        | none => .error .uncompress
        | some (buffer, final_size) => parseCompressed P e crypto_method buffer final_size
      else if cleartext.headD 0 = chr ':' then
        parseOld P e crypto_method cleartext d.buffer_size
      else .error (.enckey d.srcip)

/-! ## Checking and updating the counters -/

/-- What one call can change: the rids files, the flush counter and the entry. -/
structure EntryState where
  rids : Rids.Store
  rcv_count : UInt32
  entry : KeyEntry

namespace EntryState

/-- `ReloadCounter`, when enough messages were received since the last flush. -/
def reload (cfg : ReadConfig) (s : EntryState) : EntryState :=
  if s.rcv_count ≥ cfg.recv_flush then
    let (rids, entry) := reloadCounter s.rids s.entry
    { s with rids := rids, entry := entry }
  else s

/-- Update the current counts, store them when the flush counter is full, and count the
message. -/
def update (cfg : ReadConfig) (s : EntryState) (m : ParsedMsg) : EntryState :=
  let entry := { s.entry with counter := m.counter, crypto_method := m.crypto_method }
  if s.rcv_count ≥ cfg.recv_flush then
    { rids := storeCounter s.rids entry m.counter, rcv_count := 0 + 1, entry := entry }
  else { rids := s.rids, rcv_count := s.rcv_count + 1, entry := entry }

end EntryState

/-- The test of a parsed pair against the stored one. -/
def isNewer (msg stored : Counter) : Bool :=
  msg.glob > stored.glob || (msg.glob = stored.glob && msg.loc > stored.loc)

/-- The rest of `ReadSecMSG` for a message of the `!` format. -/
def acceptCompressed (cfg : ReadConfig) (srcip : Bytes) (s : EntryState) (m : ParsedMsg)
    (final_size : ℕ) : EntryState × Except ReadError SecMsg :=
  let msg : SecMsg := {
    authentic := m.authentic, counter := m.counter, f_msg := m.f_msg, final_size := final_size }
  if !cfg.verify_counter then (s.update cfg m, .ok msg)
  else
    let s := s.reload cfg
    if isNewer m.counter s.entry.counter then (s.update cfg m, .ok msg)
    else if m.counter.glob = s.entry.counter.glob then (s, .error (.enctime s.entry.name))
    else (s, .error (.enckey srcip))

/-- Set the stored pair to `c`, then return the text behind the next `:` of an old message. The
pair stays set when there is no `:`. -/
def returnOld (s : EntryState) (c : Counter) (m : ParsedMsg) (cleartext : Bytes)
    (buffer_size : ℕ) : EntryState × Except ReadError SecMsg :=
  let entry := { s.entry with counter := c }
  match strchr (chr ':') m.f_msg with
  | none => ({ s with entry := entry }, .error (.encformat entry.id))
  | some f_msg =>
    let f_msg := f_msg.drop 1
    ({ s with entry := { entry with crypto_method := m.crypto_method } },
      .ok { authentic := m.authentic, counter := m.counter, f_msg := f_msg,
            final_size := sizeSub buffer_size (ptrDiff f_msg cleartext) })

/-- The rest of `ReadSecMSG` for a message of the old format. -/
def acceptOld (cfg : ReadConfig) (s : EntryState) (m : ParsedMsg) (cleartext : Bytes)
    (buffer_size : ℕ) : EntryState × Except ReadError SecMsg :=
  if !cfg.verify_counter then
    -- the source stores `msg_local`, which is still zero
    returnOld s { glob := m.counter.glob, loc := 0 } m cleartext buffer_size
  else if isNewer m.counter s.entry.counter then returnOld s m.counter m cleartext buffer_size
  else if m.counter = s.entry.counter then (s, .error .duplicate)
  else (s, .error (.enctime s.entry.name))

/-- `ReadSecMSG`, on one entry. -/
def readSecMSG (P : Crypto) (cfg : ReadConfig) (s : EntryState) (d : Datagram) :
    EntryState × Except ReadError SecMsg :=
  match parseMsg P cfg s.entry d with
  | .error err => (s, .error err)
  | .ok m =>
    match m.format with
    | .compressed final_size => acceptCompressed cfg d.srcip s m final_size
    | .old cleartext buffer_size => acceptOld cfg s m cleartext buffer_size
