import OssecHids.Lib.Words
import OssecHids.OsExecd.Request

/-!
# Valid addresses

`OS_IsValidIP`: an optional `!`, then `any`, an address, or an address and a prefix length. What
the text in front of the first `/` means is up to `inet_pton`; the text behind it goes through
`atoi` when it has at most three characters.

- `OsIp`: an address with a prefix that is not longer than it;
- `osIsValidIP_eq_some_iff`: what is accepted, and what is stored then;
- `osIsValidIP_iff_denotes`: when that is what the grammar of addresses says.
-/

open CString Execd List Option

namespace CString

/-- The text begins with a number above `n`, as `atoi` reads it. -/
def LeadsAbove (n : ℕ) (s : Bytes) : Prop :=
  ∃ blanks sign digits rest, s = blanks ++ sign ++ digits ++ rest ∧
    (∀ b ∈ blanks, isSpace b = true) ∧ (sign = [] ∨ sign = [chr '+']) ∧
    (∀ b ∈ digits, isDigit b = true) ∧ isDigit (rest.headD 0) = false ∧ n < digitsValue digits

/-- A decimal number of one or more digits. -/
def Decimal (s : Bytes) : Prop := s ≠ [] ∧ ∀ b ∈ s, isDigit b = true

instance (s : Bytes) : Decidable (Decimal s) :=
  inferInstanceAs (Decidable (s ≠ [] ∧ ∀ b ∈ s, isDigit b = true))

section Atoi

variable {n : ℕ} {s digits : Bytes}

theorem digitsValue_lt (hd : ∀ b ∈ digits, isDigit b = true) :
    digitsValue digits < 10 ^ digits.length := by
  induction digits using List.reverseRecOn with
  | nil => exact Nat.one_pos
  | append_singleton l b ih =>
    have hb : b.toNat - 48 < 10 := by
      have h := hd b (mem_append_right _ mem_cons_self)
      simp only [isDigit, Bool.and_eq_true, decide_eq_true_eq, UInt8.le_iff_toNat_le] at h
      have hhigh : b.toNat ≤ 57 := h.2
      omega
    have hl := ih fun c hc => hd c (mem_append_left _ hc)
    have hval : digitsValue (l ++ [b]) = 10 * digitsValue l + (b.toNat - 48) := by
      rw [digitsValue, foldl_append]
      rfl
    rw [hval, length_append, length_singleton, pow_succ]
    omega

theorem digitsValue_lt_of_length (hd : ∀ b ∈ digits, isDigit b = true) (hlen : digits.length ≤ 9) :
    digitsValue digits < 10 ^ 9 :=
  (digitsValue_lt hd).trans_le (Nat.pow_le_pow_right (by decide) hlen)

theorem atoi_of_decimal (h : Decimal s) (hlen : s.length ≤ 9) : atoi s = digitsValue s := by
  have hval := @atoi_digits_append s h.1 h.2 [] rfl
  have hlt := digitsValue_lt_of_length h.2 hlen
  rw [append_nil] at hval
  rw [hval, min_eq_left (by omega)]
  exact Int.bmod_eq_of_le (by omega) (by omega)

/-- What `atoi` reads of a short text. -/
theorem atoi_of_length (hlen : s.length ≤ 9) :
    atoi s = if (splitSign s).1 then -(digitsValue ((splitSign s).2.takeWhile isDigit) : ℤ)
      else digitsValue ((splitSign s).2.takeWhile isDigit) := by
  have hle : ((splitSign s).2.takeWhile isDigit).length ≤ 9 := by
    have hdrop : (s.dropWhile isSpace).length ≤ s.length :=
      (dropWhile_suffix isSpace).length_le
    have htake := (List.takeWhile_prefix isDigit (l := (splitSign s).2)).length_le
    have hsplit : (splitSign s).2.length ≤ (s.dropWhile isSpace).length := by
      rw [splitSign]
      split_ifs
      · exact (length_tail ▸ Nat.sub_le _ _)
      · exact (length_tail ▸ Nat.sub_le _ _)
      · exact le_rfl
    omega
  have hlt := digitsValue_lt_of_length
    (fun b hb => mem_takeWhile_imp hb : ∀ b ∈ (splitSign s).2.takeWhile isDigit, _) hle
  rw [atoi, strtol]
  dsimp only
  split_ifs
  · rw [max_eq_right (by omega)]
    exact Int.bmod_eq_of_le (by omega) (by omega)
  · rw [min_eq_left (by omega)]
    exact Int.bmod_eq_of_le (by omega) (by omega)

theorem splitSign_cases (s : Bytes) :
    (∃ t, s.dropWhile isSpace = chr '-' :: t ∧ splitSign s = (true, t)) ∨
    (∃ t, s.dropWhile isSpace = chr '+' :: t ∧ splitSign s = (false, t)) ∨
    splitSign s = (false, s.dropWhile isSpace) := by
  rw [splitSign]
  cases h : s.dropWhile isSpace with
  | nil => exact .inr (.inr rfl)
  | cons b t =>
    by_cases hminus : b = chr '-'
    · exact .inl ⟨t, by rw [hminus], if_pos hminus⟩
    · by_cases hplus : b = chr '+'
      · exact .inr (.inl ⟨t, by rw [hplus], (if_neg hminus).trans (if_pos hplus)⟩)
      · exact .inr (.inr ((if_neg hminus).trans (if_neg hplus)))

theorem isDigit_headD_dropWhile (t : Bytes) : isDigit ((t.dropWhile isDigit).headD 0) = false := by
  cases h : t.dropWhile isDigit with
  | nil => rfl
  | cons b r =>
    have hne : t.dropWhile isDigit ≠ [] := by
      rw [h]
      exact cons_ne_nil b r
    have hhead := head_dropWhile_not isDigit hne
    simp only [h, head_cons] at hhead
    exact hhead

theorem splitSign_blanks_append {blanks : Bytes} (hblanks : ∀ b ∈ blanks, isSpace b = true)
    (rest : Bytes) : splitSign (blanks ++ rest) = splitSign rest := by
  rw [splitSign, splitSign, dropWhile_append_of_pos hblanks]

theorem lt_atoi_iff (hlen : s.length ≤ 9) : (n : ℤ) < atoi s ↔ LeadsAbove n s := by
  rw [atoi_of_length hlen]
  have hs : s.takeWhile isSpace ++ s.dropWhile isSpace = s := takeWhile_append_dropWhile
  have hblanks : ∀ b ∈ s.takeWhile isSpace, isSpace b = true := fun b hb =>
    mem_takeWhile_imp hb
  have hdigits : ∀ t : Bytes, ∀ b ∈ t.takeWhile isDigit, isDigit b = true := fun t b hb =>
    mem_takeWhile_imp hb
  constructor
  · intro h
    rcases splitSign_cases s with ⟨t, ht, hsign⟩ | ⟨t, ht, hsign⟩ | hsign
    · -- a number behind a minus is not above `n`
      rw [hsign, if_pos rfl] at h
      omega
    · rw [hsign, if_neg Bool.false_ne_true] at h
      refine ⟨s.takeWhile isSpace, [chr '+'], t.takeWhile isDigit, t.dropWhile isDigit, ?_, hblanks,
        .inr rfl, hdigits t, isDigit_headD_dropWhile t, Nat.cast_lt.mp h⟩
      rw [append_assoc, takeWhile_append_dropWhile, append_assoc, singleton_append, ← ht, hs]
    · rw [hsign, if_neg Bool.false_ne_true] at h
      refine ⟨s.takeWhile isSpace, [], _, (s.dropWhile isSpace).dropWhile isDigit, ?_, hblanks,
        .inl rfl, hdigits _, isDigit_headD_dropWhile _, Nat.cast_lt.mp h⟩
      rw [append_assoc, takeWhile_append_dropWhile, append_nil, hs]
  · rintro ⟨blanks, sign, digits, rest, rfl, hspaces, hsign, hd, hrest, hn⟩
    -- a number above `n` has a digit
    obtain ⟨d, ds, rfl⟩ : ∃ d ds, digits = d :: ds := by
      apply exists_cons_of_ne_nil
      rintro rfl
      exact absurd hn (Nat.not_lt_zero n)
    have hnumber : splitSign (d :: ds ++ rest) = (false, d :: ds ++ rest) :=
      splitSign_of_isDigit (hd d mem_cons_self)
    have hsplit : splitSign (blanks ++ sign ++ d :: ds ++ rest) = (false, d :: ds ++ rest) := by
      rw [append_assoc, append_assoc, splitSign_blanks_append hspaces]
      rcases hsign with rfl | rfl
      · exact hnumber
      · rfl
    rw [hsplit, if_neg Bool.false_ne_true, takeWhile_isDigit_append hd hrest]
    exact Nat.cast_lt.mpr hn

end Atoi

end CString

namespace ValidateOp

/-! ## The code -/

/-- The bits of an address of the family. -/
def width : Sockaddr → ℕ
  | .inet _ => 32
  | .inet6 _ => 128

/-- `os_ip`: a configured address, with the text it comes from. -/
structure OsIp where
  ip : Bytes
  ss : Sockaddr
  prefixlength : ℕ
  /-- A prefix is not longer than the address. -/
  prefixlength_le : prefixlength ≤ width ss
  deriving DecidableEq

/-- What `OS_IsValidIP` makes of the number behind the `/`; -1 when there is none. -/
def prefixOf (ss : Sockaddr) (cidr : ℤ) : Option { n : ℕ // n ≤ width ss } :=
  if h : 0 ≤ cidr ∧ cidr ≤ width ss then some ⟨cidr.toNat, by omega⟩
  else if cidr < 0 then some ⟨width ss, Nat.le_refl _⟩
  else none

/-- The text behind the optional `!`. -/
def unnegated (in_address : Bytes) : Bytes :=
  if in_address.headD 0 = chr '!' then in_address.drop 1 else in_address

/-- The address and the number behind its `/`; `any` is an address with an empty prefix. -/
def addressParts (in_address : Bytes) : Option (Bytes × ℤ) :=
  let ip_address := unnegated in_address
  let ip_address := if ip_address = lit "any" then lit "::/0" else ip_address
  match cutAt (chr '/') ip_address with
  | none => some (ip_address, -1)
  | some (ip_address, tmp_str) =>
    if tmp_str.length ≤ 3 then some (ip_address, atoi tmp_str) else none

/-- `OS_IsValidIP`: what it returns when that is not 0, and `final_ip` then. -/
def osIsValidIP (inet : Inet) (in_address : Bytes) : Option (ℕ × OsIp) :=
  (addressParts in_address).bind fun (ip_address, cidr) =>
    (osPtonSockaddr inet ip_address).bind fun ss =>
      (prefixOf ss cidr).map fun ⟨prefixlength, prefixlength_le⟩ =>
        (if 0 ≤ cidr then 2 else 1,
          { ip := in_address, ss, prefixlength, prefixlength_le })

/-! ## The grammar -/

/-- What a text in front of which no `!` stands denotes: everything, an address, or a network. -/
inductive Denotes (inet : Inet) : Bytes → Sockaddr → ℕ → Prop
  | any : Denotes inet (lit "any") (.inet6 0) 0
  | address {t ss} : osPtonSockaddr inet t = some ss → Denotes inet t ss (width ss)
  | network {t ss digits} : osPtonSockaddr inet t = some ss → Decimal digits →
    digitsValue digits ≤ width ss → Denotes inet (t ++ chr '/' :: digits) ss (digitsValue digits)

/-- What is known about `inet_pton`. -/
structure Documented (inet : Inet) : Prop where
  /-- A numeric address has no slash. -/
  slash : ∀ t ss, osPtonSockaddr inet t = some ss → chr '/' ∉ t
  /-- Letters behind the hexadecimal digits make no address. -/
  any : osPtonSockaddr inet (lit "any") = none
  unspecified : osPtonSockaddr inet (lit "::") = some (.inet6 0)

/-- The text accepted is stored as what it denotes. -/
def Grammatical (inet : Inet) (in_address : Bytes) : Prop :=
  ∀ e : OsIp, (∃ ret, osIsValidIP inet in_address = some (ret, e)) ↔
    e.ip = in_address ∧ Denotes inet (unnegated in_address) e.ss e.prefixlength

/-- A suffix that `atoi` and the test of its length do not misjudge: a decimal number of at most
three digits or above the width, or another text, of more than three characters or leading with a
number above the width. -/
def Judged (w : ℕ) (tmp_str : Bytes) : Prop :=
  if Decimal tmp_str then tmp_str.length ≤ 3 ∨ w < digitsValue tmp_str
  else 3 < tmp_str.length ∨ LeadsAbove w tmp_str

section Grammar

variable {inet : Inet} {in_address t : Bytes} {ss : Sockaddr} {e : OsIp}

theorem prefixOf_natCast {n : ℕ} : prefixOf ss n = if h : n ≤ width ss then some ⟨n, h⟩ else none := by
  rw [prefixOf]
  by_cases h : n ≤ width ss
  · rw [dif_pos ⟨Int.natCast_nonneg n, Int.ofNat_le.mpr h⟩, dif_pos h]
    rfl
  · rw [dif_neg (fun hn => h (Int.ofNat_le.mp hn.2)), dif_neg h, if_neg (by omega)]

theorem prefixOf_eq_none {cidr : ℤ} : prefixOf ss cidr = none ↔ (width ss : ℤ) < cidr := by
  rw [prefixOf]
  split_ifs with h hneg
  · exact ⟨nofun, fun hlt => by omega⟩
  · exact ⟨nofun, fun hlt => by omega⟩
  · exact ⟨fun _ => by omega, fun _ => rfl⟩

/-- The parts the address is made of decide. -/
theorem osIsValidIP_eq_some_iff :
    (∃ ret, osIsValidIP inet in_address = some (ret, e)) ↔
      ∃ address cidr, addressParts in_address = some (address, cidr) ∧
        osPtonSockaddr inet address = some e.ss ∧ e.ip = in_address ∧
        (prefixOf e.ss cidr).map Subtype.val = some e.prefixlength := by
  constructor
  · rintro ⟨ret, h⟩
    obtain ⟨⟨address, cidr⟩, hparts, h⟩ := bind_eq_some_iff.mp h
    obtain ⟨ss, hss, h⟩ := bind_eq_some_iff.mp h
    obtain ⟨⟨n, hn⟩, hcidr, h⟩ := map_eq_some_iff.mp h
    cases h
    exact ⟨address, cidr, hparts, hss, rfl, map_eq_some_iff.mpr ⟨_, hcidr, rfl⟩⟩
  · rintro ⟨address, cidr, hparts, hss, hip, hcidr⟩
    obtain ⟨ip, ss, n, hn⟩ := e
    obtain rfl : ip = in_address := hip
    obtain ⟨⟨m, hm⟩, hcidr, hval⟩ := map_eq_some_iff.mp hcidr
    obtain rfl : m = n := hval
    refine ⟨if 0 ≤ cidr then 2 else 1, ?_⟩
    have hbind : osIsValidIP inet ip = (osPtonSockaddr inet address).bind fun ss =>
        (prefixOf ss cidr).map fun ⟨prefixlength, prefixlength_le⟩ =>
          (if 0 ≤ cidr then 2 else 1, { ip, ss, prefixlength, prefixlength_le }) := by
      rw [osIsValidIP, hparts]
      rfl
    rw [hbind, hss, bind_some, hcidr]
    rfl

theorem denotes_any_iff (hdoc : Documented inet) {n : ℕ} :
    Denotes inet (lit "any") ss n ↔ ss = .inet6 0 ∧ n = 0 := by
  constructor
  · intro h
    generalize ht : lit "any" = t at h
    cases h with
    | any => exact ⟨rfl, rfl⟩
    | address hpton =>
      rw [← ht, hdoc.any] at hpton
      exact nomatch hpton
    | @network t ss digits _ _ _ =>
      have hmem : chr '/' ∈ lit "any" := by
        rw [ht]
        exact mem_append_right _ mem_cons_self
      exact absurd hmem (by decide)
  · rintro ⟨rfl, rfl⟩
    exact .any

theorem denotes_iff_of_notMem {n : ℕ} (hany : t ≠ lit "any") (hslash : chr '/' ∉ t) :
    Denotes inet t ss n ↔ osPtonSockaddr inet t = some ss ∧ n = width ss := by
  constructor
  · intro h
    cases h with
    | any => exact absurd rfl hany
    | address hpton => exact ⟨hpton, rfl⟩
    | network => exact absurd (mem_append_right _ mem_cons_self) hslash
  · rintro ⟨hpton, rfl⟩
    exact .address hpton

theorem denotes_append_iff (hdoc : Documented inet) {n : ℕ} {tmp_str : Bytes}
    (hslash : chr '/' ∉ t) :
    Denotes inet (t ++ chr '/' :: tmp_str) ss n ↔
      osPtonSockaddr inet t = some ss ∧ Decimal tmp_str ∧ digitsValue tmp_str ≤ width ss ∧
        n = digitsValue tmp_str := by
  constructor
  · intro h
    generalize ht : t ++ chr '/' :: tmp_str = t' at h
    have hmem : chr '/' ∈ t' := by
      rw [← ht]
      exact mem_append_right _ mem_cons_self
    cases h with
    | any => exact absurd hmem (by decide)
    | address hpton => exact absurd hmem (hdoc.slash _ _ hpton)
    | network hpton hdecimal hle =>
      obtain ⟨rfl, rfl⟩ := Words.append_cons_inj hslash (hdoc.slash _ _ hpton) ht
      exact ⟨hpton, hdecimal, hle, rfl⟩
  · rintro ⟨hpton, hdecimal, hle, rfl⟩
    exact .network hpton hdecimal hle

theorem prefixOf_atoi_eq_some_iff {tmp_str : Bytes} (hlen : tmp_str.length ≤ 3) {n : ℕ}
    (hdecimal : Decimal tmp_str) :
    (prefixOf ss (atoi tmp_str)).map Subtype.val = some n ↔
      digitsValue tmp_str ≤ width ss ∧ n = digitsValue tmp_str := by
  rw [atoi_of_decimal hdecimal (by omega), prefixOf_natCast]
  split_ifs with h
  · rw [map_some, some.injEq]
    exact ⟨fun heq => ⟨h, heq.symm⟩, fun heq => heq.2.symm⟩
  · exact ⟨nofun, fun heq => absurd heq.1 h⟩

end Grammar

/-- For every text, `OS_IsValidIP` accepts what the grammar of addresses says, with the prefix that
is written, if and only if the suffix behind the first `/` of an address is judged rightly. -/
theorem grammatical_iff {inet : Inet} (hdoc : Documented inet) {in_address : Bytes}
    (hzero : ∀ b ∈ in_address, b ≠ 0) :
    Grammatical inet in_address ↔
      ∀ address tmp_str ss, cutAt (chr '/') (unnegated in_address) = some (address, tmp_str) →
        osPtonSockaddr inet address = some ss → Judged (width ss) tmp_str := by
  have hz : ∀ b ∈ unnegated in_address, b ≠ 0 := by
    intro b hb
    rw [unnegated] at hb
    split_ifs at hb
    · exact hzero b (mem_of_mem_drop hb)
    · exact hzero b hb
  have hcode : ∀ {address : Bytes} {cidr : ℤ}, addressParts in_address = some (address, cidr) →
      ∀ e : OsIp, (∃ ret, osIsValidIP inet in_address = some (ret, e)) ↔
        osPtonSockaddr inet address = some e.ss ∧ e.ip = in_address ∧
          (prefixOf e.ss cidr).map Subtype.val = some e.prefixlength := by
    intro address cidr hparts e
    rw [osIsValidIP_eq_some_iff, hparts]
    constructor
    · rintro ⟨_, _, heq, h⟩
      obtain ⟨rfl, rfl⟩ := Prod.mk.inj (some.inj heq)
      exact h
    · exact fun h => ⟨address, cidr, rfl, h⟩
  by_cases hany : unnegated in_address = lit "any"
  · -- everything
    have hparts : addressParts in_address = some (lit "::", 0) := by
      rw [addressParts, hany]
      rfl
    have hcut : cutAt (chr '/') (lit "any") = none := rfl
    rw [hany, hcut]
    refine ⟨fun _ _ _ _ h => (nomatch h), fun _ e => ?_⟩
    rw [hcode hparts, hany, denotes_any_iff hdoc, hdoc.unspecified, some.injEq]
    constructor
    · rintro ⟨hss, hip, hcidr⟩
      rw [← hss] at hcidr
      exact ⟨hip, hss.symm, (some.inj hcidr).symm⟩
    · rintro ⟨hip, hss, hn⟩
      rw [hss, hn]
      exact ⟨rfl, hip, rfl⟩
  · cases hcut : cutAt (chr '/') (unnegated in_address) with
    | none =>
      have hslash : chr '/' ∉ unnegated in_address := by
        intro hmem
        obtain ⟨l, r, heq, hl⟩ := eq_append_cons_of_mem hmem
        rw [heq, cutAt_append hl fun b hb => hz b (by rw [heq]; exact mem_append_left _ hb)]
          at hcut
        exact nomatch hcut
      have hparts : addressParts in_address = some (unnegated in_address, -1) := by
        rw [addressParts, if_neg hany, hcut]
      refine ⟨fun _ _ _ _ h => (nomatch h), fun _ e => ?_⟩
      rw [hcode hparts, denotes_iff_of_notMem hany hslash]
      have hwidth : (prefixOf e.ss (-1)).map Subtype.val = some (width e.ss) := rfl
      rw [hwidth, some.injEq]
      constructor
      · exact fun h => ⟨h.2.1, h.1, h.2.2.symm⟩
      · exact fun h => ⟨h.2.1, h.1, h.2.2.symm⟩
    | some parts =>
      obtain ⟨address, tmp_str⟩ := parts
      obtain ⟨htext, hslash⟩ := exists_of_cutAt_eq_some hcut
      have hgrammar : Grammatical inet in_address ↔
          ∀ e : OsIp, (∃ ret, osIsValidIP inet in_address = some (ret, e)) ↔
            e.ip = in_address ∧ osPtonSockaddr inet address = some e.ss ∧ Decimal tmp_str ∧
              digitsValue tmp_str ≤ width e.ss ∧ e.prefixlength = digitsValue tmp_str := by
        apply forall_congr'
        intro e
        rw [htext, denotes_append_iff hdoc hslash]
      have hcondition : (∀ address' tmp_str' ss, some (address, tmp_str) = some (address', tmp_str') →
          osPtonSockaddr inet address' = some ss → Judged (width ss) tmp_str') ↔
          ∀ ss, osPtonSockaddr inet address = some ss → Judged (width ss) tmp_str := by
        constructor
        · exact fun h ss => h address tmp_str ss rfl
        · rintro h _ _ ss heq
          obtain ⟨rfl, rfl⟩ := Prod.mk.inj (some.inj heq)
          exact h ss
      rw [hgrammar, hcondition]
      have hparts : addressParts in_address =
          if tmp_str.length ≤ 3 then some (address, atoi tmp_str) else none := by
        rw [addressParts, if_neg hany, hcut]
      have hlong : 3 < tmp_str.length → ∀ e : OsIp, ¬ ∃ ret, osIsValidIP inet in_address =
          some (ret, e) := by
        intro hlen e h
        obtain ⟨_, _, heq, -⟩ := osIsValidIP_eq_some_iff.mp h
        rw [hparts, if_neg (by omega)] at heq
        exact nomatch heq
      by_cases hdecimal : Decimal tmp_str
      · by_cases hlen : tmp_str.length ≤ 3
        · -- the number is read
          rw [if_pos hlen] at hparts
          refine ⟨fun _ ss _ => (if_pos hdecimal).mpr (.inl hlen), fun _ e => ?_⟩
          rw [hcode hparts, prefixOf_atoi_eq_some_iff hlen hdecimal]
          constructor
          · exact fun h => ⟨h.2.1, h.1, hdecimal, h.2.2⟩
          · exact fun h => ⟨h.2.1, h.1, h.2.2.2⟩
        · -- the number is not looked at
          have hnot := hlong (by omega)
          constructor
          · intro h ss hss
            refine (if_pos hdecimal).mpr (.inr (Nat.lt_of_not_le fun hle => ?_))
            have hmem := (h ⟨in_address, ss, digitsValue tmp_str, hle⟩).mpr
              ⟨rfl, hss, hdecimal, hle, rfl⟩
            exact hnot _ hmem
          · intro h e
            refine ⟨fun hacc => absurd hacc (hnot e), fun ⟨_, hss, _, hle, _⟩ => ?_⟩
            have hjudged := (if_pos hdecimal).mp (h e.ss hss)
            omega
      · have hjudged : ∀ w, Judged w tmp_str ↔ 3 < tmp_str.length ∨ LeadsAbove w tmp_str := fun w =>
          iff_of_eq (if_neg hdecimal)
        by_cases hlen : tmp_str.length ≤ 3
        · -- `atoi` finds some number
          rw [if_pos hlen] at hparts
          constructor
          · intro h ss hss
            refine (hjudged _).mpr (.inr ((lt_atoi_iff (by omega)).mp (prefixOf_eq_none.mp ?_)))
            rw [eq_none_iff_forall_not_mem]
            rintro ⟨n, hn⟩ hcidr
            have hacc := (hcode hparts ⟨in_address, ss, n, hn⟩).mpr
              ⟨hss, rfl, by rw [hcidr]; rfl⟩
            exact hdecimal ((h _).mp hacc).2.2.1
          · intro h e
            refine ⟨fun hacc => ?_, fun hg => absurd hg.2.2.1 hdecimal⟩
            obtain ⟨hss, -, hcidr⟩ := (hcode hparts e).mp hacc
            have habove := ((hjudged _).mp (h e.ss hss)).resolve_left (by omega)
            rw [prefixOf_eq_none.mpr ((lt_atoi_iff (by omega)).mpr habove)] at hcidr
            exact nomatch hcidr
        · have hnot := hlong (by omega)
          refine ⟨fun _ ss _ => (hjudged _).mpr (.inl (by omega)), fun _ e => ?_⟩
          exact ⟨fun hacc => absurd hacc (hnot e), fun hg => absurd hg.2.2.1 hdecimal⟩


/-- Two addresses. -/
def inetTen : Inet where
  inet_pton t := if t = lit "10.0.0.1" then some 0x0a000001 else none
  inet_pton6 t := if t = lit "::" then some 0 else none
  inet_ntop _ := lit "10.0.0.1"
  inet_ntop6 _ := lit "::"

theorem documented_inetTen : Documented inetTen where
  slash t ss h := by
    by_cases hten : t = lit "10.0.0.1"
    · rw [hten]
      decide
    · by_cases hzero : t = lit "::"
      · rw [hzero]
        decide
      · have hnone : osPtonSockaddr inetTen t = none := by
          rw [osPtonSockaddr, inetTen]
          dsimp only
          rw [if_neg hten, if_neg hzero]
          rfl
        rw [hnone] at h
        exact nomatch h
  any := by decide
  unspecified := by decide

/-- A network is stored with the prefix that is written. -/
theorem grammatical_iff_network :
    Grammatical inetTen (lit "10.0.0.1/24") ↔
      ∀ address tmp_str ss, cutAt (chr '/') (unnegated (lit "10.0.0.1/24")) =
        some (address, tmp_str) →
        osPtonSockaddr inetTen address = some ss → Judged (width ss) tmp_str :=
  grammatical_iff documented_inetTen (forall_mem_of_all (by decide))

/-- Nothing behind the slash makes the network of all addresses. -/
theorem not_grammatical :
    Documented inetTen ∧ ¬ Grammatical inetTen (lit "10.0.0.1/") := by
  refine ⟨documented_inetTen, fun h => ?_⟩
  have haccepted : osIsValidIP inetTen (lit "10.0.0.1/") =
      some (2, ⟨lit "10.0.0.1/", .inet 0x0a000001, 0, Nat.zero_le _⟩) := by decide
  have hdenotes := ((h _).mp ⟨2, haccepted⟩).2
  have htext : unnegated (lit "10.0.0.1/") = lit "10.0.0.1" ++ chr '/' :: [] := by decide
  rw [htext, denotes_append_iff documented_inetTen (by decide)] at hdenotes
  exact hdenotes.2.1.1 rfl

end ValidateOp

/-- The keys file asks only for the value that is returned. -/
theorem osIsValidIP_keysEnv (inet : Inet) {in_address : Bytes} (hzero : ∀ b ∈ in_address, b ≠ 0) :
    osIsValidIP inet.keysEnv in_address =
      ((ValidateOp.osIsValidIP inet in_address).map Prod.fst).getD 0 := by
  have hstr : str (ValidateOp.unnegated in_address) = ValidateOp.unnegated in_address := by
    refine str_eq_self fun b hb => hzero b ?_
    rw [ValidateOp.unnegated] at hb
    split_ifs at hb
    · exact mem_of_mem_drop hb
    · exact hb
  have htext : (if in_address.headD 0 = chr '!' then in_address.drop 1 else in_address) =
      ValidateOp.unnegated in_address := rfl
  have hletters : ['a', 'n', 'y'].map chr = lit "any" ∧ [':', ':', '/', '0'].map chr = lit "::/0" :=
    ⟨rfl, rfl⟩
  rw [osIsValidIP, htext]
  rw [hstr, hletters.1, hletters.2, ValidateOp.osIsValidIP, ValidateOp.addressParts]
  -- the text is only looked at as a C string when it is `any`
  cases hcut : cutAt (chr '/') (if ValidateOp.unnegated in_address = lit "any" then lit "::/0"
      else ValidateOp.unnegated in_address) with
  | none =>
    rw [bind_some, Inet.keysEnv]
    dsimp only
    cases osPtonSockaddr inet _ with
    | none => rfl
    | some ss =>
      -- without a prefix length
      rw [bind_some]
      cases ss <;> rfl
  | some parts =>
    dsimp only
    split_ifs
    · rw [bind_some, Inet.keysEnv]
      dsimp only
      cases osPtonSockaddr inet _ with
      | none => rfl
      | some ss =>
        rw [bind_some]
        have hwidth := @ValidateOp.prefixOf_eq_none ss (atoi parts.2)
        cases hn : ValidateOp.prefixOf ss (atoi parts.2) with
        | none =>
          rw [hn] at hwidth
          cases ss <;> exact if_pos (hwidth.mp rfl)
        | some n =>
          rw [hn] at hwidth
          cases ss <;> exact if_neg fun h => absurd (hwidth.mpr h) (by simp)
    · rfl
