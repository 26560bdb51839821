import OssecHids.Lib.Stream
import OssecHids.OsCrypto.Rejection

/-!
# The bytes of an accepted message

The digest of a message covers the text behind it. `ReadSecMSG` steps over the header of that text
by fixed amounts and subtracts them from its length, also when the text is shorter.

- `Inside`: the header and the returned bytes are the covered text, in this order;
- `readSecMSG_payload_iff`: this holds of the texts that have room for a header.
-/

open CString Rids List Option

namespace ReadSecMSG

/-- What the header of a text takes at least: a random number, the two counts and their `:`, or the
time, the count, and the zero that closes the old format. -/
def headerSize : MsgFormat → ℕ
  | .compressed _ => 5 + 10 + 1 + 5
  | .old .. => 11 + 5 + 1

/-- The bytes the digest covers are a header, from which the counters were read, and the bytes that
are returned. -/
def Inside (format : MsgFormat) (msg : SecMsg) : Prop :=
  ∃ header payload rest, msg.authentic.tail = header ++ payload ∧
    headerSize format ≤ header.length ∧ msg.f_msg = payload ++ rest ∧
    msg.final_size = payload.length ∧ msg.counter = countersOf msg.authentic

variable {P : Crypto} {cfg : ReadConfig} {s : EntryState} {d : Datagram} {m : ParsedMsg}
  {msg : SecMsg}

theorem strchr_append_zero {c : UInt8} (hc : c ≠ 0) (t r : Bytes) :
    strchr c (t ++ 0 :: r) = (strchr c t).map (· ++ 0 :: r) := by
  induction t with
  | nil =>
    show (if (0 : UInt8) = c then _ else if (0 : UInt8) = 0 then none else strchr c r) = none
    rw [if_neg (Ne.symm hc), if_pos rfl]
  | cons b t ih =>
    rw [cons_append, strchr, strchr]
    split_ifs
    · rfl
    · rfl
    · exact ih

theorem sizeSub_append {header payload : Bytes} (h : payload.length < 2 ^ 64) :
    sizeSub (header ++ payload).length header.length = payload.length := by
  rw [sizeSub, length_append]
  omega

theorem ptrDiff_append (l r : Bytes) : ptrDiff r (l ++ r) = l.length := by
  rw [ptrDiff, length_append, Nat.add_sub_cancel]

/-! ## What was parsed -/

/-- The arrays from which a message was parsed: the inflated data with the byte that closes it, or
the decrypted text behind the marker with the zero that closes it, and what was there before. -/
inductive Parsed (d : Datagram) (m : ParsedMsg) : Prop
  | compressed (data junk : Bytes) (hlen : 32 < data.length) (hmax : data.length < d.buffer_max)
      (hauth : m.authentic = chr '!' :: data.drop 32)
      (hf_msg : m.f_msg = (data ++ 0 :: junk).drop (32 + 21))
      (hformat : m.format =
        .compressed (sizeSub data.length (ptrDiff m.f_msg (data ++ 0 :: junk))))
  | old (text junk : Bytes) (hlen : 32 < text.length + 1) (hmax : text.length + 1 ≤ OS_MAXSTR)
      (hauth : m.authentic = chr ':' :: (text ++ [0]).drop 32)
      (hf_msg : m.f_msg = (text ++ 0 :: junk).drop (32 + 16))
      (hformat : m.format = .old (text ++ 0 :: junk) (text.length + 1))

theorem stripPrefix_le {e : KeyEntry} {buffer : Bytes} {buffer_max : ℕ}
    {r : CryptMethod × Bytes × ℕ} (h : stripPrefix cfg e buffer buffer_max = .ok r) :
    r.2.2 ≤ buffer_max := by
  simp only [stripPrefix] at h
  split_ifs at h <;> rw [← Except.ok.inj h] <;> dsimp only <;> omega

theorem inflateMsg_eq_some {buffer cleartext buffer' : Bytes} {buffer_max buffer_size n : ℕ}
    (h : inflateMsg P buffer cleartext buffer_max buffer_size = some (buffer', n)) :
    ∃ data junk : Bytes, buffer' = data ++ 0 :: junk ∧ n = data.length ∧
      data.length < buffer_max := by
  simp only [inflateMsg, ite_none_left_eq_some, map_eq_some_iff, Prod.mk.injEq]
    at h
  obtain ⟨hmax, data, hdata, rfl, rfl⟩ := h
  refine ⟨data, buffer.drop (data ++ [0]).length, ?_, rfl, ?_⟩
  · rw [overwrite, append_assoc]
    rfl
  · simp only [Crypto.osZlibUncompress, bind_eq_some_iff, ite_none_right_eq_some] at hdata
    obtain ⟨_, -, hsize, heq⟩ := hdata
    cases heq
    omega

theorem decryptMsg_length {e : KeyEntry} {method : CryptMethod} {buffer cleartext out : Bytes}
    {n : ℕ} (h : decryptMsg P e method buffer cleartext n = .ok out) :
    n ≤ OS_MAXSTR ∧ cleartext.length ≤ out.length := by
  have hover : ∀ bs : Bytes, cleartext.length ≤
      (overwrite bs (setByte cleartext 0 0)).length := by
    intro bs
    rw [overwrite, length_append, length_drop, setByte, length_set]
    omega
  rw [decryptMsg] at h
  split at h
  · cases h
  rename_i hsize
  rw [not_or, not_lt] at hsize
  refine ⟨hsize.2, ?_⟩
  cases method with
  | blowfish =>
    rw [← Except.ok.inj h]
    exact hover _
  | aes =>
    simp only at h
    split_ifs at h
    rw [← Except.ok.inj h]
    exact hover _

theorem parsed_compressed {e : KeyEntry} {method : CryptMethod} {data junk : Bytes}
    (h : parseCompressed P e method (data ++ 0 :: junk) data.length = .ok m)
    (hmax : data.length < d.buffer_max) : Parsed d m := by
  unfold parseCompressed at h
  split at h
  · cases h
  · rename_i f_msg hsum
    obtain ⟨hlen, rfl⟩ := checkSum_eq_some hsum
    dsimp only at h
    split_ifs at h
    obtain rfl := (Except.ok.inj h).symm
    have hcovered : ((data ++ 0 :: junk).drop 32).take (data.length - 32) = data.drop 32 := by
      rw [drop_append_of_le_length hlen.le, take_append_of_le_length (by simp),
        take_of_length_le (by simp)]
    refine .compressed data junk hlen hmax ?_ ?_ rfl
    · rw [hcovered]
    · simp only [drop_drop]

theorem parsed_old {e : KeyEntry} {method : CryptMethod} {cleartext : Bytes} {n : ℕ}
    (h : parseOld P e method cleartext n = .ok m) (hn : n ≤ OS_MAXSTR)
    (hlen : n < cleartext.length) : Parsed d m := by
  simp only [parseOld] at h
  split at h
  · cases h
  · rename_i f_msg hsum
    obtain ⟨hpos, rfl⟩ := checkSum_eq_some hsum
    obtain rfl := (Except.ok.inj h).symm
    -- the zero that closes the cleartext is the last byte of the digest
    have hclosed : (setByte cleartext n 0).drop 1 =
        (cleartext.take n).drop 1 ++ 0 :: cleartext.drop (n + 1) := by
      rw [setByte, set_eq_take_append_cons_drop, if_pos hlen,
        drop_append_of_le_length (by rw [length_take]; omega)]
    have htext : ((cleartext.take n).drop 1).length + 1 = n := by
      rw [length_drop, length_take]
      omega
    rw [hclosed]
    refine .old ((cleartext.take n).drop 1) (cleartext.drop (n + 1)) (by omega) (by omega) ?_ ?_ ?_
    · have hcovered : ∀ t : Bytes, t.length + 1 = n → ∀ r : Bytes,
          ((t ++ 0 :: r).drop 32).take (n - 32) = (t ++ [0]).drop 32 := by
        intro t ht r
        rw [append_cons, drop_append_of_le_length (by simp; omega),
          take_append_of_le_length (by simp; omega), take_of_length_le (by simp; omega)]
      rw [hcovered _ htext]
    · simp only [drop_drop]
    · rw [htext]

/-- Every message that is parsed comes from such an array. -/
theorem parsed_of_parseMsg {e : KeyEntry} (hclear : d.buffer_size < d.cleartext.length)
    (h : parseMsg P cfg e d = .ok m) : Parsed d m := by
  unfold parseMsg at h
  split at h
  · cases h
  · rename_i method buffer buffer_max hstrip
    have hle : buffer_max ≤ d.buffer_max := stripPrefix_le hstrip
    split at h
    · cases h
    · rename_i cleartext hdecrypt
      obtain ⟨hsize, hlength⟩ := decryptMsg_length hdecrypt
      split_ifs at h
      · split at h
        · cases h
        · rename_i buffer' final_size hinflate
          obtain ⟨data, junk, rfl, rfl, hmax⟩ := inflateMsg_eq_some hinflate
          exact parsed_compressed h (hmax.trans_le hle)
      · exact parsed_old h hsize (by omega)

/-! ## What is returned -/

/-- The returned pointer and size, by the format. -/
def returned (m : ParsedMsg) : Option (Bytes × ℕ) :=
  match m.format with
  | .compressed final_size => some (m.f_msg, final_size)
  | .old cleartext buffer_size =>
    (strchr (chr ':') m.f_msg).map fun f_msg =>
      (f_msg.drop 1, sizeSub buffer_size (ptrDiff (f_msg.drop 1) cleartext))

theorem returned_of_readSecMSG (hm : parseMsg P cfg s.entry d = .ok m)
    (hok : (readSecMSG P cfg s d).2 = .ok msg) :
    returned m = some (msg.f_msg, msg.final_size) ∧ msg.authentic = m.authentic ∧
      msg.counter = m.counter := by
  rw [returned]
  rcases hf : m.format with final_size | ⟨cleartext, n⟩
  · have hcall : readSecMSG P cfg s d = acceptCompressed cfg d.srcip s m final_size := by
      simp only [readSecMSG, hm, hf]
    rw [hcall, acceptCompressed] at hok
    dsimp only at hok
    split_ifs at hok <;> rw [← Except.ok.inj hok] <;> exact ⟨rfl, rfl, rfl⟩
  · have hcall : readSecMSG P cfg s d = acceptOld cfg s m cleartext n := by
      simp only [readSecMSG, hm, hf]
    have hreturn : ∃ c, (returnOld s c m cleartext n).2 = .ok msg := by
      rw [hcall, acceptOld] at hok
      split_ifs at hok
      · exact ⟨_, hok⟩
      · exact ⟨_, hok⟩
    obtain ⟨c, hreturn⟩ := hreturn
    rw [returnOld] at hreturn
    cases hcolon : strchr (chr ':') m.f_msg with
    | none =>
      rw [hcolon] at hreturn
      cases hreturn
    | some f_msg =>
      rw [hcolon] at hreturn
      rw [← Except.ok.inj hreturn]
      exact ⟨rfl, rfl, rfl⟩

/-! ## The bounds -/

/-- Of a text `sum ++ header ++ payload` in front of other bytes, the payload is returned. -/
theorem inside_of_split {format : MsgFormat} {mark : UInt8} {sum header payload rest : Bytes}
    {n : ℕ} (hheader : headerSize format ≤ header.length) (hpayload : payload.length < 2 ^ 64)
    (hn : n = (sum ++ header ++ payload).length)
    (hauth : msg.authentic = mark :: (header ++ payload))
    (hcounter : msg.counter = countersOf msg.authentic) (hf_msg : msg.f_msg = payload ++ rest)
    (hsize : msg.final_size =
      sizeSub n (ptrDiff msg.f_msg (sum ++ header ++ payload ++ rest))) :
    Inside format msg := by
  refine ⟨header, payload, rest, by rw [hauth, tail_cons], hheader, hf_msg, ?_, hcounter⟩
  rw [hsize, hf_msg, append_assoc _ payload, ptrDiff_append, hn]
  exact sizeSub_append hpayload

/-- The compressed format steps over 21 bytes of the covered text. -/
theorem inside_compressed {data junk : Bytes} (hlen : 32 + 21 ≤ data.length)
    (hmax : data.length < 2 ^ 64) (hauth : msg.authentic = chr '!' :: data.drop 32)
    (hcounter : msg.counter = countersOf msg.authentic)
    (hf_msg : msg.f_msg = (data ++ 0 :: junk).drop (32 + 21))
    (hsize : msg.final_size = sizeSub data.length (ptrDiff msg.f_msg (data ++ 0 :: junk))) (n : ℕ) :
    Inside (.compressed n) msg := by
  have hcovered : data.drop 32 = (data.drop 32).take 21 ++ data.drop (32 + 21) := by
    rw [← drop_drop, take_append_drop]
  have hsplit : data = data.take 32 ++ (data.drop 32).take 21 ++ data.drop (32 + 21) := by
    rw [append_assoc, ← hcovered, take_append_drop]
  rw [drop_append_of_le_length hlen] at hf_msg
  refine inside_of_split ?_ ?_ (congrArg List.length hsplit) (hauth.trans (by rw [← hcovered]))
    hcounter hf_msg (hsize.trans (by rw [← hsplit]))
  · rw [length_take, length_drop]
    exact le_min le_rfl (show 21 ≤ data.length - 32 by omega)
  · rw [length_drop]
    omega

/-- The old format looks for the `:` behind the first 16 bytes, and stops at the zero that closes
the covered text. -/
theorem inside_old {text junk f_msg : Bytes} (hlen : 32 + 16 ≤ text.length)
    (hmax : text.length + 1 ≤ OS_MAXSTR) (hauth : msg.authentic = chr ':' :: (text ++ [0]).drop 32)
    (hcounter : msg.counter = countersOf msg.authentic)
    (hcolon : strchr (chr ':') ((text ++ 0 :: junk).drop (32 + 16)) = some f_msg)
    (hf_msg : msg.f_msg = f_msg.drop 1)
    (hsize : msg.final_size =
      sizeSub (text.length + 1) (ptrDiff msg.f_msg (text ++ 0 :: junk))) (cleartext : Bytes)
    (n : ℕ) : Inside (.old cleartext n) msg := by
  rw [drop_append_of_le_length hlen, strchr_append_zero (by decide), map_eq_some_iff] at hcolon
  obtain ⟨found, hfound, rfl⟩ := hcolon
  obtain ⟨front, payload, hback, rfl, -⟩ := exists_of_strchr_eq_some hfound
  set header := (text.drop 32).take 16 ++ front ++ [chr ':'] with hheader
  have hcovered : text.drop 32 = header ++ payload := by
    rw [hheader, append_assoc, append_assoc, singleton_append, ← hback,
      ← drop_drop, take_append_drop]
  have hsplit : text ++ [0] = text.take 32 ++ header ++ (payload ++ [0]) := by
    rw [← append_assoc, append_assoc (text.take 32), ← hcovered, take_append_drop]
  have harray : text ++ 0 :: junk = text.take 32 ++ header ++ (payload ++ [0]) ++ junk := by
    rw [← hsplit, append_assoc, singleton_append]
  have hpayload : payload.length ≤ text.length := by
    have hle := congrArg List.length hcovered
    rw [length_append, length_drop] at hle
    omega
  refine @inside_of_split _ _ (chr ':') (text.take 32) header (payload ++ [0]) junk _ ?_ ?_
    ?_ ?_ hcounter ?_ (hsize.trans (by rw [harray]))
  · show 17 ≤ header.length
    rw [hheader, length_append, length_append, length_take, length_drop, length_singleton]
    omega
  · rw [length_append, length_singleton]
    rw [OS_MAXSTR] at hmax
    omega
  · rw [← hsplit, length_append, length_singleton]
  · rw [hauth, drop_append_of_le_length (by omega), hcovered, append_assoc]
  · rw [hf_msg, append_assoc]
    rfl

theorem sixteen_le_headerSize (format : MsgFormat) : 16 ≤ headerSize format := by
  cases format with
  | compressed => exact show 16 ≤ 21 by decide
  | old => exact show 16 ≤ 17 by decide

/-- **Payload bounds**: of an accepted message the header and the returned bytes lie inside the
covered text exactly when that text has room for a header. -/
theorem readSecMSG_payload_iff (hclear : d.buffer_size < d.cleartext.length)
    (hmax : d.buffer_max ≤ 2 ^ 64) (hm : parseMsg P cfg s.entry d = .ok m)
    (hok : (readSecMSG P cfg s d).2 = .ok msg) :
    Inside m.format msg ↔ headerSize m.format < m.authentic.length := by
  obtain ⟨hreturned, hauth, hcounter⟩ := returned_of_readSecMSG hm hok
  constructor
  · rintro ⟨header, payload, rest, hcovered, hsize, -⟩
    have hlen := congrArg List.length hcovered
    rw [hauth, length_tail, length_append] at hlen
    have hpos := sixteen_le_headerSize m.format
    omega
  · intro hroom
    have hlong : 16 < m.authentic.length := (sixteen_le_headerSize _).trans_lt hroom
    have hcount : msg.counter = countersOf msg.authentic := by
      rw [hcounter, hauth]
      exact counter_eq_countersOf hm hlong
    rw [returned] at hreturned
    cases parsed_of_parseMsg hclear hm with
    | compressed data junk hlen hdata hparsed hf_msg hformat =>
      rw [hformat] at hreturned hroom ⊢
      obtain ⟨hptr, hsize⟩ := Prod.mk.inj (some.inj hreturned)
      rw [hparsed, length_cons, length_drop] at hroom
      have hlen21 : 21 < data.length - 32 + 1 := hroom
      refine inside_compressed (by omega) (by omega) (hauth.trans hparsed) hcount
        (hptr.symm.trans hf_msg) ?_ _
      rw [← hptr, hsize]
    | old text junk hlen htext hparsed hf_msg hformat =>
      rw [hformat] at hreturned hroom ⊢
      rw [map_eq_some_iff] at hreturned
      obtain ⟨found, hcolon, hreturn⟩ := hreturned
      obtain ⟨hptr, hsize⟩ := Prod.mk.inj hreturn
      rw [hparsed, length_cons, length_drop, length_append] at hroom
      have hlen17 : 17 < text.length + 1 - 32 + 1 := hroom
      refine inside_old (by omega) htext (hauth.trans hparsed) hcount (hf_msg ▸ hcolon)
        hptr.symm ?_ _ _
      rw [← hptr, hsize]

/-! ## A text without room -/

/-- A datagram of the compressed format, in a buffer that holds other bytes behind it. -/
def inBuffer (text behind : Bytes) : Datagram where
  buffer := chr ':' :: chr '!' ::
    (Crypto.storeStream (List.replicate 32 48 ++ text) ++ behind)
  buffer_max := 100
  cleartext := List.replicate 100 0
  buffer_size := 37 + text.length
  srcip := []

theorem exists_ok {ε α : Type} {x : Except ε α} {p : α → Bool}
    (h : x.toOption.any p = true) : ∃ a, x = .ok a ∧ p a = true := by
  cases x with
  | error => cases h
  | ok a => exact ⟨a, rfl, h⟩

/-- A text with a header. -/
theorem readSecMSG_payload_iff_text :
    let cfg : ReadConfig := ⟨false, true, 100⟩
    let d := inBuffer (lit "111110000000002:0003:text") []
    ∃ m msg, parseMsg .plain cfg freshAgent.entry d = .ok m ∧
      (readSecMSG .plain cfg freshAgent d).2 = .ok msg ∧ Inside m.format msg := by
  intro cfg d
  have hparse : (parseMsg .plain cfg freshAgent.entry d).toOption.any
      (fun m => headerSize m.format < m.authentic.length) = true := by decide
  have hread : (readSecMSG .plain cfg freshAgent d).2.toOption.any (fun _ => true) = true := by
    decide
  obtain ⟨m, hm, hroom⟩ := exists_ok hparse
  obtain ⟨msg, hmsg, -⟩ := exists_ok hread
  exact ⟨m, msg, hm, hmsg, (readSecMSG_payload_iff (by decide) (by decide) hm hmsg).mpr
    (of_decide_eq_true hroom)⟩

/-- Of a text of one byte the header and the returned bytes are what was in the buffer. -/
theorem not_inside_short :
    ¬ ∀ P cfg s d m msg, d.buffer_size < d.cleartext.length → d.buffer_max ≤ 2 ^ 64 →
      parseMsg P cfg s.entry d = .ok m → (readSecMSG P cfg s d).2 = .ok msg →
      Inside m.format msg := by
  intro h
  let cfg : ReadConfig := ⟨false, true, 100⟩
  let d := inBuffer (lit "x") (lit "000000000:0001:another agent")
  have hparse : (parseMsg .plain cfg freshAgent.entry d).toOption.any
      (fun m => headerSize m.format = 21) = true := by decide
  have hread : (readSecMSG .plain cfg freshAgent d).2.toOption.any
      (fun msg => msg.authentic.length = 2) = true := by decide
  obtain ⟨m, hm, hsize⟩ := exists_ok hparse
  obtain ⟨msg, hmsg, hlen⟩ := exists_ok hread
  obtain ⟨header, payload, rest, hcovered, hheader, -⟩ :=
    h .plain cfg freshAgent d m msg (by decide) (by decide) hm hmsg
  have hlength := congrArg List.length hcovered
  rw [length_tail, of_decide_eq_true hlen, length_append] at hlength
  rw [of_decide_eq_true hsize] at hheader
  omega

end ReadSecMSG
