import OssecHids.Lib.Framing
import OssecHids.Lib.Pcre2

/-!
# The name of a manager in its certificate

`check_x509_cert` compares the name or the address of a manager with the alternative names and the
common names of a certificate.

- `checkHostname_iff`: which names match;
- `checkSubjectCn_eq`: the common names that are compared;
- `checkX509Cert_law`: which certificates are accepted.
-/

open CString Framing Pcre2

namespace CheckCert

inductive Verify
  | TRUE
  | FALSE
  | ERROR
  deriving DecidableEq, Repr

def DNS_MAX_LABELS : ℕ := 127

def DNS_MAX_LABEL_LEN : ℕ := 63

/-- The number that OpenSSL gives to common names. -/
def NID_commonName : ℕ := 13

/-- An entry of the subject alternative names; `A` is the type of the strings of OpenSSL. -/
inductive GeneralName (A : Type)
  | dNSName (astr : A)
  | iPAddress (data : Bytes)
  | other

/-- The names in a certificate, as far as it has them. -/
structure Cert (A : Type) where
  subject_alt_names : Option (List (GeneralName A))
  subject : Option (List (ℕ × A))

/-- What is used of OpenSSL and of the C library. -/
structure Library (A : Type) where
  /-- `ASN1_STRING_to_UTF8` -/
  toUTF8 : A → Option Bytes
  /-- `X509_NAME_get_index_by_NID` -/
  indexByNid : List (ℕ × A) → ℕ → ℤ → ℤ
  /-- `inet_pton(AF_INET, ..)` -/
  pton : Bytes → Option (Vector UInt8 4)
  /-- `inet_pton(AF_INET6, ..)` -/
  pton6 : Bytes → Option (Vector UInt8 16)

/-! ## Labels -/

def isalpha (b : UInt8) : Bool := chr 'a' ≤ tolower b && tolower b ≤ chr 'z'

def isalnum (b : UInt8) : Bool := isalpha b || (chr '0' ≤ b && b ≤ chr '9')

/-- The loop of `label_array`: the labels so far, and the one that has begun. -/
def labelLoop : List Bytes → Bytes → Bytes → Option (List Bytes)
  | result, label, [] =>
    if result.length = DNS_MAX_LABELS then none
    else if label.length > DNS_MAX_LABEL_LEN then none
    else some (result ++ [label])
  | result, label, b :: domain_name =>
    if result.length = DNS_MAX_LABELS then none
    else if b = chr '.' then
      if label.length > DNS_MAX_LABEL_LEN then none
      else labelLoop (result ++ [label]) [] domain_name
    else labelLoop result (label ++ [b]) domain_name

/-- `label_array`: no labels are found when it returns `VERIFY_FALSE`. -/
def labelArray (domain_name : Bytes) : List Bytes :=
  match labelLoop [] [] domain_name with
  | none => []
  | some result =>
    -- a label of length zero at the end is ignored
    if (result.getLastD []).length > 0 then result else result.dropLast

/-- `label_valid` -/
def labelValid (l : Bytes) : Bool :=
  0 < l.length && l.length ≤ DNS_MAX_LABEL_LEN && isalpha (l.headD 0) && isalnum (l.getLastD 0) &&
    l.all fun b => isalnum b || b == chr '-'

/-- `label_match` -/
def labelMatch (label1 label2 : Bytes) : Bool :=
  label1.length == label2.length &&
    (label1.zip label2).all fun (a, b) => tolower a == tolower b

/-- The loop of `check_hostname`, over as many labels on both sides. -/
def hostnameLoop : List Bytes → List Bytes → Bool
  | m :: m_labels, c :: c_labels =>
    labelValid m && labelMatch m c && hostnameLoop m_labels c_labels
  | _, _ => true

/-! ## Names -/

variable {A : Type}

/-- `asn1_to_cstr` -/
def asn1ToCstr (lib : Library A) (astr : A) : Option Bytes :=
  match lib.toUTF8 astr with
  | none => none
  | some tmp => if tmp = [] ∨ 0 ∈ tmp then none else some tmp

/-- `check_hostname` -/
def checkHostname (lib : Library A) (cert_astr : A) (manager : Bytes) : Verify :=
  match asn1ToCstr lib cert_astr with
  | none => .FALSE
  | some cert_cstr =>
    let c_labels := labelArray cert_cstr
    let m_labels := labelArray manager
    if m_labels.length = 0 ∨ c_labels.length = 0 then .FALSE
    else if m_labels.length ≠ c_labels.length then .FALSE
    else
      let wildcard_cert :=
        if labelValid (m_labels.headD []) && c_labels.headD [] == lit "*" then 1 else 0
      if hostnameLoop (m_labels.drop wildcard_cert) (c_labels.drop wildcard_cert) then .TRUE
      else .FALSE

/-- `asn1_ip_match`, and the address that it is given. -/
def asn1IpMatch {n : ℕ} (data : Bytes) (addr : Vector UInt8 n) : Bool :=
  data.length == n && data == addr.toList

/-- `check_ipaddr` -/
def checkIpaddr (lib : Library A) (data manager : Bytes) : Verify :=
  match lib.pton manager with
  | some addr => if asn1IpMatch data addr then .TRUE else .FALSE
  | none =>
    match lib.pton6 manager with
    | some addr => if asn1IpMatch data addr then .TRUE else .FALSE
    | none => .FALSE

/-- The loop of `check_subject_alt_names`, which goes on as long as nothing is found. -/
def altNamesLoop (lib : Library A) (manager : Bytes) : Verify → List (GeneralName A) → Verify
  | result, [] => result
  | result, name :: names =>
    if result = .FALSE then
      altNamesLoop lib manager
        (match name with
          | .dNSName astr => checkHostname lib astr manager
          | .iPAddress data => checkIpaddr lib data manager
          | .other => result) names
    else result

/-- `check_subject_alt_names` -/
def checkSubjectAltNames (lib : Library A) (cert : Cert A) (manager : Bytes) : Verify :=
  cert.subject_alt_names.elim .FALSE (altNamesLoop lib manager .FALSE)

/-- The loop of `check_subject_cn`. -/
def subjectCnLoop (lib : Library A) (manager : Bytes) (name : List (ℕ × A)) :
    ℕ → ℤ → Verify → Option Verify
  | 0, _, _ => none
  | fuel + 1, i, result =>
    let i := lib.indexByNid name NID_commonName i
    if i ≥ 0 ∧ result = .FALSE then
      match name[i.toNat]? with
      | none => none
      | some (_, data) => subjectCnLoop lib manager name fuel i (checkHostname lib data manager)
    else some result

/-- `check_subject_cn` -/
def checkSubjectCn (lib : Library A) (cert : Cert A) (manager : Bytes) : Option Verify :=
  match cert.subject with
  | none => some .FALSE
  | some name => subjectCnLoop lib manager name (name.length + 1) 0 .FALSE

/-- `check_x509_cert`, where a peer may have no certificate. -/
def checkX509Cert (lib : Library A) (cert : Option (Cert A)) (manager : Bytes) : Option Verify :=
  match cert with
  | none => some .ERROR
  | some cert =>
    match checkSubjectAltNames lib cert manager with
    | .ERROR => some .ERROR
    | .TRUE => some .TRUE
    | .FALSE => checkSubjectCn lib cert manager

/-! ## What is promised -/

/-- The labels of a name, with or without a dot at the end. -/
def nameLabels (name : Bytes) : List Bytes :=
  frames (chr '.') name ++ if rest (chr '.') name = [] then [] else [rest (chr '.') name]

/-- The name in a certificate is that of the manager. -/
structure HostMatches (cert manager : Bytes) : Prop where
  count : (nameLabels cert).length = (nameLabels manager).length
  valid : ∀ l ∈ nameLabels manager, labelValid l = true
  first : ∀ c ∈ (nameLabels cert).head?, ∀ m ∈ (nameLabels manager).head?,
    c = lit "*" ∨ c.map tolower = m.map tolower
  others : (nameLabels cert).tail.map (List.map tolower) =
    (nameLabels manager).tail.map (List.map tolower)

/-- The address that a manager is given by. -/
def address (lib : Library A) (manager : Bytes) : Option Bytes :=
  ((lib.pton manager).map Vector.toList).or ((lib.pton6 manager).map Vector.toList)

/-- A name of the certificate is the manager's, among names within a limit, and common names from a
position on. -/
inductive Matches (lib : Library A) (cert : Cert A) (manager : Bytes) (limit : Bytes → Prop)
    (start : ℕ) : Prop
  | dns {names : List (GeneralName A)} {astr : A} {name : Bytes}
      (h : cert.subject_alt_names = some names) (hmem : .dNSName astr ∈ names)
      (hname : asn1ToCstr lib astr = some name) (hlimit : limit name ∧ limit manager)
      (hhost : HostMatches name manager)
  | ip {names : List (GeneralName A)} {data : Bytes} (h : cert.subject_alt_names = some names)
      (hmem : .iPAddress data ∈ names) (haddress : address lib manager = some data)
  | cn {subject : List (ℕ × A)} {p : ℕ} {data : A} {name : Bytes}
      (h : cert.subject = some subject) (hp : start ≤ p)
      (hentry : subject[p]? = some (NID_commonName, data)) (hname : asn1ToCstr lib data = some name)
      (hlimit : limit name ∧ limit manager) (hhost : HostMatches name manager)

/-- The name can be split: a dot at the end is followed by a piece. -/
def Splits (name : Bytes) : Prop := (name.splitOn (chr '.')).length ≤ DNS_MAX_LABELS

/-- `X509_NAME_get_index_by_NID` finds the first entry behind a position. -/
structure Library.Documented (lib : Library A) : Prop where
  first : ∀ name nid lastpos,
    (∃ p : ℕ, lib.indexByNid name nid lastpos = p ∧ lastpos < p ∧
      (∃ data, name[p]? = some (nid, data)) ∧
      ∀ q : ℕ, lastpos < q → q < p → ∀ data, name[q]? ≠ some (nid, data)) ∨
    lib.indexByNid name nid lastpos < 0 ∧
      ∀ q : ℕ, lastpos < q → ∀ data, name[q]? ≠ some (nid, data)

variable {lib : Library A} {cert : Cert A} {manager : Bytes} {label s name : Bytes}
  {result labels c_labels m_labels : List Bytes} {astr : A}

/-! ## Splitting -/

theorem splitOn_eq (s : Bytes) : s.splitOn (chr '.') = frames (chr '.') s ++ [rest (chr '.') s] := by
  rw [frames, rest, List.getLastD_eq_getLast?, List.getLast?_eq_some_getLast (List.splitOn_ne_nil _ s),
    Option.getD_some, List.dropLast_append_getLast]

/-- The pieces fit in the array, and each in a label. -/
def Fits (count : ℕ) (pieces : List Bytes) : Prop :=
  count + pieces.length ≤ DNS_MAX_LABELS ∧ ∀ l ∈ pieces, l.length ≤ DNS_MAX_LABEL_LEN

instance (count : ℕ) (pieces : List Bytes) : Decidable (Fits count pieces) :=
  inferInstanceAs (Decidable (_ ∧ _))

theorem fits_cons {count : ℕ} {l : Bytes} {pieces : List Bytes} :
    Fits count (l :: pieces) ↔ l.length ≤ DNS_MAX_LABEL_LEN ∧ Fits (count + 1) pieces := by
  rw [Fits, Fits, List.length_cons, List.forall_mem_cons, add_assoc, add_comm 1, and_left_comm]

theorem labelLoop_eq (hresult : result.length ≤ DNS_MAX_LABELS) (hlabel : chr '.' ∉ label) :
    labelLoop result label s =
      if Fits result.length ((label ++ s).splitOn (chr '.')) then
        some (result ++ (label ++ s).splitOn (chr '.'))
      else none := by
  have hfull : ∀ (result pieces : List Bytes), pieces ≠ [] → result.length = DNS_MAX_LABELS →
      ¬Fits result.length pieces := by
    intro result pieces hne hcount hfits
    have hpos := List.length_pos_iff.mpr hne
    have hle := hfits.1
    omega
  induction s generalizing result label with
  | nil =>
    rw [labelLoop, List.append_nil, List.splitOn_eq_singleton hlabel]
    by_cases hcount : result.length = DNS_MAX_LABELS
    · rw [if_pos hcount, if_neg (hfull _ _ (List.cons_ne_nil _ _) hcount)]
    · have hlt : result.length + 1 ≤ DNS_MAX_LABELS := by omega
      rw [if_neg hcount]
      by_cases hlen : label.length > DNS_MAX_LABEL_LEN
      · rw [if_pos hlen, if_neg fun hfits => absurd (fits_cons.mp hfits).1 (not_le.mpr hlen)]
      · rw [if_neg hlen, if_pos ⟨hlt, List.forall_mem_singleton.mpr (not_lt.mp hlen)⟩]
  | cons b s ih =>
    rw [labelLoop]
    by_cases hcount : result.length = DNS_MAX_LABELS
    · rw [if_pos hcount, if_neg (hfull _ _ (List.splitOn_ne_nil _ _) hcount)]
    rw [if_neg hcount]
    by_cases hb : b = chr '.'
    case pos =>
      -- the end of a label
      rw [if_pos hb, hb, List.splitOn_append_cons_self_of_not_mem hlabel]
      by_cases hlen : label.length > DNS_MAX_LABEL_LEN
      · rw [if_pos hlen, if_neg fun hfits => absurd (fits_cons.mp hfits).1 (not_le.mpr hlen)]
      · have hnext : (result ++ [label]).length ≤ DNS_MAX_LABELS := by
          rw [List.length_append, List.length_singleton]
          omega
        have hiff : Fits result.length (label :: s.splitOn (chr '.')) ↔
            Fits (result ++ [label]).length (s.splitOn (chr '.')) := by
          rw [fits_cons, and_iff_right (not_lt.mp hlen), List.length_append, List.length_singleton]
        rw [if_neg hlen, ih hnext List.not_mem_nil, List.nil_append, List.append_assoc,
          List.singleton_append]
        exact if_congr hiff.symm rfl rfl
    case neg =>
      have hnot : chr '.' ∉ label ++ [b] := by
        rw [List.mem_append, List.mem_singleton, not_or]
        exact ⟨hlabel, Ne.symm hb⟩
      rw [if_neg hb, ih hresult hnot, List.append_assoc, List.singleton_append]

theorem labelArray_eq (name : Bytes) :
    labelArray name = if Fits 0 (name.splitOn (chr '.')) then nameLabels name else [] := by
  rw [labelArray, labelLoop_eq (Nat.zero_le _) List.not_mem_nil, List.nil_append, List.length_nil]
  split_ifs with hfits
  · dsimp only
    rw [List.nil_append, splitOn_eq, nameLabels, List.getLastD_concat, List.dropLast_concat]
    by_cases hrest : rest (chr '.') name = []
    · rw [if_pos hrest, hrest, if_neg (by decide), List.append_nil]
    · rw [if_neg hrest, if_pos (List.length_pos_iff.mpr hrest)]
  · rfl

theorem nameLabels_ne_nil (h : name ≠ []) : nameLabels name ≠ [] := by
  intro hnil
  rw [nameLabels, List.append_eq_nil_iff] at hnil
  obtain ⟨hframes, hrest⟩ := hnil
  have hsplit := splitOn_eq name
  have hjoin : [chr '.'].intercalate (name.splitOn (chr '.')) = name := List.intercalate_splitOn _
  split_ifs at hrest with hempty
  rw [hsplit, hframes, hempty] at hjoin
  exact h hjoin.symm

/-- The pieces of a name are its labels, and an empty piece behind a dot at the end. -/
theorem forall_piece {p : Bytes → Prop} (hnil : p []) :
    (∀ l ∈ name.splitOn (chr '.'), p l) ↔ ∀ l ∈ nameLabels name, p l := by
  rw [splitOn_eq, nameLabels]
  split_ifs with hrest
  · rw [hrest, List.append_nil, List.forall_mem_append, List.forall_mem_singleton,
      and_iff_left hnil]
  · rfl

/-! ## Labels that match -/

theorem labelMatch_iff {a b : Bytes} : labelMatch a b = true ↔ b.map tolower = a.map tolower := by
  rw [labelMatch, Bool.and_eq_true, beq_iff_eq, List.all_eq_true]
  constructor
  · rintro ⟨hlen, hall⟩
    apply List.ext_getElem
    · rw [List.length_map, List.length_map, hlen]
    · intro i hb ha
      rw [List.length_map] at ha hb
      rw [List.getElem_map, List.getElem_map]
      have hmem : (a[i], b[i]) ∈ a.zip b := by
        rw [← List.getElem_zip (h := by rw [List.length_zip]; omega)]
        exact List.getElem_mem _
      exact (eq_of_beq (hall _ hmem)).symm
  · intro heq
    have hlen : a.length = b.length := by
      have hlen := congrArg List.length heq
      rw [List.length_map, List.length_map] at hlen
      exact hlen.symm
    refine ⟨hlen, ?_⟩
    rintro ⟨x, y⟩ hmem
    obtain ⟨i, hi, hxy⟩ := List.getElem_of_mem hmem
    rw [List.getElem_zip, Prod.mk.injEq] at hxy
    rw [List.length_zip] at hi
    have hget := List.getElem_of_eq heq (i := i) (by rw [List.length_map]; omega)
    rw [List.getElem_map, List.getElem_map, hxy.1, hxy.2] at hget
    exact beq_iff_eq.mpr hget.symm

theorem hostnameLoop_iff (hlen : m_labels.length = c_labels.length) :
    hostnameLoop m_labels c_labels = true ↔ (∀ l ∈ m_labels, labelValid l = true) ∧
      c_labels.map (List.map tolower) = m_labels.map (List.map tolower) := by
  induction m_labels generalizing c_labels with
  | nil =>
    obtain rfl : c_labels = [] := List.length_eq_zero_iff.mp hlen.symm
    exact iff_of_true rfl ⟨fun _ h => absurd h List.not_mem_nil, rfl⟩
  | cons m m_labels ih =>
    cases c_labels with
    | nil => cases hlen
    | cons c c_labels =>
      rw [hostnameLoop, Bool.and_eq_true, Bool.and_eq_true, ih (Nat.succ.inj hlen), labelMatch_iff,
        List.forall_mem_cons, List.map_cons, List.map_cons, List.cons.injEq]
      exact and_and_and_comm

theorem checkHostname_ne_error (lib : Library A) (astr : A) (manager : Bytes) :
    checkHostname lib astr manager ≠ .ERROR := by
  rw [checkHostname]
  split
  · exact nofun
  · dsimp only
    split_ifs <;> exact nofun

/-- Labels of names that match fit in the array when they are not too many. -/
theorem HostMatches.fits (h : HostMatches name manager) (hname : Splits name)
    (hmanager : Splits manager) :
    Fits 0 (name.splitOn (chr '.')) ∧ Fits 0 (manager.splitOn (chr '.')) := by
  have hvalid : ∀ l ∈ nameLabels manager, l.length ≤ DNS_MAX_LABEL_LEN := by
    intro l hl
    have hvalid := h.valid l hl
    rw [labelValid, Bool.and_eq_true, Bool.and_eq_true, Bool.and_eq_true, Bool.and_eq_true] at hvalid
    exact of_decide_eq_true hvalid.1.1.1.2
  have hlength : ∀ {a b : Bytes}, a.map tolower = b.map tolower → a.length = b.length := by
    intro a b heq
    have hlen := congrArg List.length heq
    rwa [List.length_map, List.length_map] at hlen
  refine ⟨⟨(zero_add _).trans_le hname, (forall_piece (Nat.zero_le _)).mpr ?_⟩,
    ⟨(zero_add _).trans_le hmanager, (forall_piece (Nat.zero_le _)).mpr hvalid⟩⟩
  have hcount := h.count
  have hfirst := h.first
  have hothers := h.others
  cases hc : nameLabels name with
  | nil => exact fun _ hl => absurd hl List.not_mem_nil
  | cons c cs =>
    cases hm : nameLabels manager with
    | nil =>
      rw [hc, hm] at hcount
      cases hcount
    | cons m ms =>
      rw [hc, hm] at hfirst hothers
      rw [hm, List.forall_mem_cons] at hvalid
      rw [List.forall_mem_cons]
      constructor
      · obtain rfl | heq := hfirst c rfl m rfl
        · decide
        · rw [hlength heq]
          exact hvalid.1
      · intro l hl
        -- a label of the manager has the same letters
        have hmem : l.map tolower ∈ ms.map (List.map tolower) := hothers ▸ List.mem_map_of_mem hl
        obtain ⟨l', hl', heq⟩ := List.mem_map.mp hmem
        rw [← hlength heq]
        exact hvalid.2 l' hl'

theorem hostMatches_iff {c m : Bytes} {cs ms : List Bytes} (hc : nameLabels name = c :: cs)
    (hm : nameLabels manager = m :: ms) (hcount : ms.length = cs.length) :
    HostMatches name manager ↔ (labelValid m = true ∧ ∀ l ∈ ms, labelValid l = true) ∧
      (c = lit "*" ∨ c.map tolower = m.map tolower) ∧
        cs.map (List.map tolower) = ms.map (List.map tolower) := by
  constructor
  · intro h
    have hvalid := h.valid
    have hfirst := h.first
    have hothers := h.others
    rw [hm, List.forall_mem_cons] at hvalid
    rw [hc, hm] at hfirst hothers
    exact ⟨hvalid, hfirst c rfl m rfl, hothers⟩
  · rintro ⟨hvalid, hfirst, hothers⟩
    refine ⟨?_, ?_, ?_, ?_⟩
    · rw [hc, hm, List.length_cons, List.length_cons, hcount]
    · rw [hm, List.forall_mem_cons]
      exact hvalid
    · rw [hc, hm]
      rintro _ ⟨⟩ _ ⟨⟩
      exact hfirst
    · rw [hc, hm]
      exact hothers

/-- The loop, which begins behind a wildcard. -/
theorem hostnameLoop_wildcard {c m : Bytes} {cs ms : List Bytes} (hcount : ms.length = cs.length) :
    hostnameLoop ((m :: ms).drop (if labelValid m && c == lit "*" then 1 else 0))
        ((c :: cs).drop (if labelValid m && c == lit "*" then 1 else 0)) = true ↔
      (labelValid m = true ∧ ∀ l ∈ ms, labelValid l = true) ∧
        (c = lit "*" ∨ c.map tolower = m.map tolower) ∧
          cs.map (List.map tolower) = ms.map (List.map tolower) := by
  by_cases hwild : (labelValid m && c == lit "*") = true
  case pos =>
    rw [if_pos hwild, List.drop_succ_cons, List.drop_succ_cons, List.drop_zero, List.drop_zero]
    rw [Bool.and_eq_true, beq_iff_eq] at hwild
    have hstar : c = lit "*" ∨ c.map tolower = m.map tolower := .inl hwild.2
    rw [and_iff_right hwild.1, and_iff_right hstar, hostnameLoop_iff hcount]
  case neg =>
    rw [if_neg hwild, List.drop_zero, List.drop_zero,
      hostnameLoop_iff (by rw [List.length_cons, List.length_cons, hcount]),
      List.forall_mem_cons, List.map_cons, List.map_cons, List.cons.injEq]
    rw [Bool.and_eq_true, beq_iff_eq] at hwild
    refine and_congr_right fun hvalid => and_congr_left fun _ => ?_
    rw [or_iff_right fun hstar => hwild ⟨hvalid.1, hstar⟩]

/-- **Host names** match when they are split and have the same labels. -/
theorem checkHostname_iff : checkHostname lib astr manager = .TRUE ↔
    ∃ name, asn1ToCstr lib astr = some name ∧ (Splits name ∧ Splits manager) ∧
      HostMatches name manager := by
  rw [checkHostname]
  cases hname : asn1ToCstr lib astr with
  | none => exact iff_of_false nofun nofun
  | some name =>
    have hne : name ≠ [] := by
      rw [asn1ToCstr] at hname
      split at hname
      · cases hname
      · split_ifs at hname with hbad
        cases hname
        exact fun h => hbad (.inl h)
    have hex : (∃ n, some name = some n ∧ (Splits n ∧ Splits manager) ∧ HostMatches n manager) ↔
        (Splits name ∧ Splits manager) ∧ HostMatches name manager :=
      ⟨fun ⟨n, hn, h⟩ => Option.some.inj hn ▸ h, fun h => ⟨name, rfl, h⟩⟩
    rw [hex]
    dsimp only
    rw [labelArray_eq, labelArray_eq]
    by_cases hfits : Fits 0 (name.splitOn (chr '.')) ∧ Fits 0 (manager.splitOn (chr '.'))
    case neg =>
      -- a name that cannot be split
      have hnot : ¬((Splits name ∧ Splits manager) ∧ HostMatches name manager) :=
        fun h => hfits (h.2.fits h.1.1 h.1.2)
      refine iff_of_false ?_ hnot
      rw [if_pos]
      · exact nofun
      · rw [not_and_or] at hfits
        rcases hfits with h | h
        · exact .inr (by rw [if_neg h]; rfl)
        · exact .inl (by rw [if_neg h]; rfl)
    case pos =>
      have hsplits : Splits name ∧ Splits manager :=
        ⟨(zero_add _).symm.trans_le hfits.1.1, (zero_add _).symm.trans_le hfits.2.1⟩
      rw [if_pos hfits.1, if_pos hfits.2, and_iff_right hsplits]
      obtain ⟨c, cs, hc⟩ := List.exists_cons_of_ne_nil (nameLabels_ne_nil hne)
      cases hm : nameLabels manager with
      | nil =>
        refine iff_of_false (by rw [if_pos (.inl rfl)]; exact nofun) fun h => ?_
        have hcount := h.count
        rw [hc, hm] at hcount
        cases hcount
      | cons m ms =>
        rw [hc, if_neg (by simp)]
        by_cases hcount : ms.length = cs.length
        case neg =>
          rw [if_pos (by simpa using hcount)]
          refine iff_of_false nofun fun h => hcount ?_
          have hcount := h.count
          rw [hc, hm] at hcount
          exact (Nat.succ.inj hcount).symm
        case pos =>
          rw [if_neg (by simpa using hcount), hostMatches_iff hc hm hcount,
            ← hostnameLoop_wildcard hcount, List.headD_cons, List.headD_cons]
          generalize hostnameLoop _ _ = found
          cases found with
          | true => exact iff_of_true rfl rfl
          | false => exact iff_of_false nofun nofun

/-! ## Loops over names -/

theorem checkIpaddr_iff {data : Bytes} :
    checkIpaddr lib data manager = .TRUE ↔ address lib manager = some data := by
  have hmatch : ∀ {n : ℕ} (addr : Vector UInt8 n),
      asn1IpMatch data addr = true ↔ some addr.toList = some data := by
    intro n addr
    rw [asn1IpMatch, Bool.and_eq_true, beq_iff_eq, beq_iff_eq, Option.some.injEq]
    constructor
    · exact fun h => h.2.symm
    · rintro rfl
      exact ⟨Vector.length_toList, rfl⟩
  rw [checkIpaddr, address]
  cases lib.pton manager with
  | some addr =>
    show (if asn1IpMatch data addr then Verify.TRUE else .FALSE) = _ ↔ some addr.toList = _
    rw [← hmatch]
    split_ifs with h
    · exact iff_of_true rfl h
    · exact iff_of_false nofun h
  | none =>
    cases lib.pton6 manager with
    | some addr =>
      show (if asn1IpMatch data addr then Verify.TRUE else .FALSE) = _ ↔ some addr.toList = _
      rw [← hmatch]
      split_ifs with h
      · exact iff_of_true rfl h
      · exact iff_of_false nofun h
    | none => exact iff_of_false nofun nofun

theorem checkIpaddr_ne_error (lib : Library A) (data manager : Bytes) :
    checkIpaddr lib data manager ≠ .ERROR := by
  rw [checkIpaddr]
  split
  · split_ifs <;> exact nofun
  · split
    · split_ifs <;> exact nofun
    · exact nofun

/-- An alternative name is the manager's. -/
def nameMatches (lib : Library A) (manager : Bytes) : GeneralName A → Prop
  | .dNSName astr => checkHostname lib astr manager = .TRUE
  | .iPAddress data => checkIpaddr lib data manager = .TRUE
  | .other => False

theorem altNamesLoop_of_ne {r : Verify} (h : r ≠ .FALSE) (names : List (GeneralName A)) :
    altNamesLoop lib manager r names = r := by
  cases names with
  | nil => rfl
  | cons name names => exact if_neg h

/-- **Alternative names**: none is left out, up to the first that matches. -/
theorem altNamesLoop_spec (lib : Library A) (manager : Bytes) (names : List (GeneralName A)) :
    altNamesLoop lib manager .FALSE names ≠ .ERROR ∧
      (altNamesLoop lib manager .FALSE names = .TRUE ↔
        ∃ name ∈ names, nameMatches lib manager name) := by
  induction names with
  | nil => exact ⟨nofun, iff_of_false nofun nofun⟩
  | cons name names ih =>
    obtain ⟨r, hr, hne, hiff⟩ : ∃ r, altNamesLoop lib manager .FALSE (name :: names) =
        altNamesLoop lib manager r names ∧ r ≠ .ERROR ∧
          (r = .TRUE ↔ nameMatches lib manager name) := by
      cases name with
      | dNSName astr => exact ⟨_, if_pos rfl, checkHostname_ne_error lib astr manager, .rfl⟩
      | iPAddress data => exact ⟨_, if_pos rfl, checkIpaddr_ne_error lib data manager, .rfl⟩
      | other => exact ⟨_, if_pos rfl, nofun, iff_of_false nofun id⟩
    rw [hr, List.exists_mem_cons_iff, ← hiff]
    cases r with
    | TRUE =>
      have hstop : Verify.TRUE ≠ .FALSE := nofun
      rw [altNamesLoop_of_ne hstop]
      exact ⟨nofun, iff_of_true rfl (.inl rfl)⟩
    | FALSE => exact ⟨ih.1, by rw [ih.2, or_iff_right nofun]⟩
    | ERROR => exact absurd rfl hne

/-- **Common names**: the entries behind a position are compared, up to the first that matches. -/
theorem subjectCnLoop_spec (hlib : lib.Documented) (manager : Bytes) {subject : List (ℕ × A)}
    {fuel i : ℕ} (hfuel : subject.length < fuel + i) (hpos : 0 < fuel) :
    ∃ r, subjectCnLoop lib manager subject fuel i .FALSE = some r ∧ r ≠ .ERROR ∧
      (r = .TRUE ↔ ∃ p data, i < p ∧ subject[p]? = some (NID_commonName, data) ∧
        checkHostname lib data manager = .TRUE) := by
  induction fuel generalizing i with
  | zero => cases hpos
  | succ fuel ih =>
    rw [subjectCnLoop]
    obtain ⟨p, hindex, hlt, ⟨data, hdata⟩, hfirst⟩ | ⟨hindex, hnone⟩ :=
      hlib.first subject NID_commonName i
    case inl =>
      have hlt := Int.ofNat_lt.mp hlt
      obtain ⟨hp, -⟩ := List.getElem?_eq_some_iff.mp hdata
      have hstep : lib.indexByNid subject NID_commonName i ≥ 0 ∧ Verify.FALSE = .FALSE := by
        rw [hindex]
        exact ⟨Int.natCast_nonneg p, rfl⟩
      rw [if_pos hstep, hindex, Int.toNat_natCast, hdata]
      dsimp only
      have hfuel' : 0 < fuel := by omega
      cases hcheck : checkHostname lib data manager with
      | TRUE =>
        -- found: the loop stops at its next condition
        obtain ⟨fuel, rfl⟩ := Nat.exists_eq_succ_of_ne_zero hfuel'.ne'
        refine ⟨.TRUE, ?_, nofun, iff_of_true rfl ⟨p, data, hlt, hdata, hcheck⟩⟩
        exact if_neg fun h => absurd h.2 nofun
      | FALSE =>
        obtain ⟨r, hr, hne, hiff⟩ := ih (by omega : subject.length < fuel + p) hfuel'
        refine ⟨r, hr, hne, hiff.trans ⟨?_, ?_⟩⟩
        · rintro ⟨q, data', hq, hmatch⟩
          exact ⟨q, data', hlt.trans hq, hmatch⟩
        · rintro ⟨q, data', hq, hentry, hmatch⟩
          refine ⟨q, data', ?_, hentry, hmatch⟩
          -- not in front of the first entry, and not the entry that did not match
          rcases lt_trichotomy q p with hqp | rfl | hqp
          · exact absurd hentry (hfirst q (Int.ofNat_lt.mpr hq) hqp data')
          · rw [hdata] at hentry
            obtain rfl := (Prod.mk.inj (Option.some.inj hentry)).2
            rw [hcheck] at hmatch
            cases hmatch
          · exact hqp
      | ERROR => exact absurd hcheck (checkHostname_ne_error lib data manager)
    case inr =>
      refine ⟨.FALSE, ?_, nofun, iff_of_false nofun ?_⟩
      · exact if_neg fun h => absurd h.1 (not_le.mpr hindex)
      · rintro ⟨p, data, hp, hentry, -⟩
        exact hnone p (Int.ofNat_lt.mpr hp) data hentry

/-- **Certificates**: what is accepted are the names within the limit of the array, and the common names
behind the first entry of the subject. -/
theorem checkX509Cert_spec (hlib : lib.Documented) (cert : Cert A) (manager : Bytes) :
    ∃ r, checkX509Cert lib (some cert) manager = some r ∧
      (r = .TRUE ↔ Matches lib cert manager Splits 1) := by
  -- the alternative names
  have halt : checkSubjectAltNames lib cert manager ≠ .ERROR ∧
      (checkSubjectAltNames lib cert manager = .TRUE ↔
        ∃ names, cert.subject_alt_names = some names ∧
          ∃ name ∈ names, nameMatches lib manager name) := by
    rw [checkSubjectAltNames]
    cases cert.subject_alt_names with
    | none => exact ⟨nofun, iff_of_false nofun nofun⟩
    | some names =>
      refine ⟨(altNamesLoop_spec lib manager names).1, ?_⟩
      rw [Option.elim_some, (altNamesLoop_spec lib manager names).2]
      exact ⟨fun h => ⟨names, rfl, h⟩, fun ⟨_, hnames, h⟩ => Option.some.inj hnames ▸ h⟩
  -- the common names
  obtain ⟨r, hr, hiff⟩ : ∃ r, checkSubjectCn lib cert manager = some r ∧
      (r = .TRUE ↔ ∃ subject p data, cert.subject = some subject ∧ 0 < p ∧
        subject[p]? = some (NID_commonName, data) ∧ checkHostname lib data manager = .TRUE) := by
    rw [checkSubjectCn]
    cases cert.subject with
    | none => exact ⟨_, rfl, iff_of_false nofun nofun⟩
    | some subject =>
      obtain ⟨r, hr, -, hiff⟩ := @subjectCnLoop_spec _ lib hlib manager subject
        (subject.length + 1) 0 (Nat.lt_succ_self _) (Nat.succ_pos _)
      refine ⟨r, hr, hiff.trans ⟨?_, ?_⟩⟩
      · rintro ⟨p, data, hp, hentry, hmatch⟩
        exact ⟨subject, p, data, rfl, hp, hentry, hmatch⟩
      · rintro ⟨_, p, data, hsubject, hp, hentry, hmatch⟩
        cases hsubject
        exact ⟨p, data, hp, hentry, hmatch⟩
  have hmatches : Matches lib cert manager Splits 1 ↔
      checkSubjectAltNames lib cert manager = .TRUE ∨ r = .TRUE := by
    rw [halt.2, hiff]
    constructor
    · intro h
      cases h with
      | dns h hmem hname hlimit hhost =>
        exact .inl ⟨_, h, _, hmem, checkHostname_iff.mpr ⟨_, hname, hlimit, hhost⟩⟩
      | ip h hmem haddress => exact .inl ⟨_, h, _, hmem, checkIpaddr_iff.mpr haddress⟩
      | cn h hp hentry hname hlimit hhost =>
        exact .inr ⟨_, _, _, h, hp, hentry, checkHostname_iff.mpr ⟨_, hname, hlimit, hhost⟩⟩
    · rintro (⟨names, h, name, hmem, hmatch⟩ | ⟨subject, p, data, h, hp, hentry, hmatch⟩)
      · cases name with
        | dNSName astr =>
          obtain ⟨name, hname, hlimit, hhost⟩ := checkHostname_iff.mp hmatch
          exact .dns h hmem hname hlimit hhost
        | iPAddress data => exact .ip h hmem (checkIpaddr_iff.mp hmatch)
        | other => exact hmatch.elim
      · obtain ⟨name, hname, hlimit, hhost⟩ := checkHostname_iff.mp hmatch
        exact .cn h hp hentry hname hlimit hhost
  rw [checkX509Cert, hmatches]
  cases hcheck : checkSubjectAltNames lib cert manager with
  | ERROR => exact absurd hcheck halt.1
  | TRUE => exact ⟨_, rfl, iff_of_true rfl (.inl rfl)⟩
  | FALSE => exact ⟨r, hr, by rw [or_iff_right nofun]⟩

/-- **The name of a manager** is accepted exactly when a name of the certificate is the manager's, as
long as a name that is, if there is one, is among the names within the limit of the array and is not
the first entry of the subject. -/
theorem checkX509Cert_law (hlib : lib.Documented) (cert : Cert A) (manager : Bytes) :
    ∃ r, checkX509Cert lib (some cert) manager = some r ∧
      ((r = .TRUE ↔ Matches lib cert manager (fun _ => True) 0) ↔
        (Matches lib cert manager (fun _ => True) 0 → Matches lib cert manager Splits 1)) := by
  have hmono : Matches lib cert manager Splits 1 → Matches lib cert manager (fun _ => True) 0 := by
    intro h
    cases h with
    | dns h hmem hname _ hhost => exact .dns h hmem hname ⟨trivial, trivial⟩ hhost
    | ip h hmem haddress => exact .ip h hmem haddress
    | cn h _ hentry hname _ hhost =>
      exact .cn h (Nat.zero_le _) hentry hname ⟨trivial, trivial⟩ hhost
  obtain ⟨r, hr, hiff⟩ := checkX509Cert_spec hlib cert manager
  refine ⟨r, hr, ?_⟩
  rw [hiff]
  exact ⟨fun h => h.mpr, fun h => ⟨hmono, h⟩⟩

/-- A search for an entry behind a position, among strings that are UTF-8. -/
def searchLibrary : Library Bytes where
  toUTF8 := some
  indexByNid name nid lastpos :=
    ((List.range name.length).find? fun (p : ℕ) =>
      lastpos < p && name[p]?.map Prod.fst == some nid).elim (-1) Int.ofNat
  pton _ := none
  pton6 _ := none

theorem documented_searchLibrary : searchLibrary.Documented where
  first := by
    intro name nid lastpos
    have hentry : ∀ q : ℕ, lastpos < q → ∀ data : Bytes, name[q]? = some (nid, data) →
        q ∈ List.range name.length ∧
          (decide (lastpos < q) && name[q]?.map Prod.fst == some nid) = true := by
      intro q hq data hdata
      obtain ⟨hlt, -⟩ := List.getElem?_eq_some_iff.mp hdata
      refine ⟨List.mem_range.mpr hlt, ?_⟩
      rw [hdata, decide_eq_true hq, Option.map_some, beq_self_eq_true, Bool.and_self]
    rw [searchLibrary]
    dsimp only
    cases hfind : (List.range name.length).find? fun (p : ℕ) =>
        lastpos < p && name[p]?.map Prod.fst == some nid with
    | none =>
      rw [List.find?_eq_none] at hfind
      refine .inr ⟨by decide, fun q hq data hdata => ?_⟩
      obtain ⟨hmem, htest⟩ := hentry q hq data hdata
      exact hfind q hmem htest
    | some p =>
      obtain ⟨htest, -, hfirst⟩ := List.find?_range_eq_some.mp hfind
      rw [Bool.and_eq_true, beq_iff_eq, Option.map_eq_some_iff] at htest
      obtain ⟨hlt, ⟨n, data⟩, hdata, rfl⟩ := htest
      refine .inl ⟨p, rfl, of_decide_eq_true hlt, ⟨data, hdata⟩, fun q hq hqp data' hdata' => ?_⟩
      have hnot := hfirst q hqp
      rw [(hentry q hq data' hdata').2] at hnot
      cases hnot

/-- A wildcard behind other entries. -/
theorem checkX509Cert_law_wildcard : ∃ r, checkX509Cert searchLibrary
    (some ⟨some [.other, .dNSName (lit "a.org")], some [(6, lit "US"), (13, lit "*.Example.com.")]⟩)
    (lit "ossec.example.com") = some r ∧ r = .TRUE ∧
      ((r = .TRUE ↔ Matches searchLibrary
        ⟨some [.other, .dNSName (lit "a.org")], some [(6, lit "US"), (13, lit "*.Example.com.")]⟩
        (lit "ossec.example.com") (fun _ => True) 0) ↔ True) := by
  obtain ⟨r, hr, hiff⟩ := checkX509Cert_law documented_searchLibrary
    ⟨some [.other, .dNSName (lit "a.org")], some [(6, lit "US"), (13, lit "*.Example.com.")]⟩
    (lit "ossec.example.com")
  obtain ⟨r', hr', hspec⟩ := checkX509Cert_spec documented_searchLibrary
    ⟨some [.other, .dNSName (lit "a.org")], some [(6, lit "US"), (13, lit "*.Example.com.")]⟩
    (lit "ossec.example.com")
  obtain rfl := Option.some.inj (hr.symm.trans hr')
  have htrue : checkX509Cert searchLibrary
      (some ⟨some [.other, .dNSName (lit "a.org")],
        some [(6, lit "US"), (13, lit "*.Example.com.")]⟩)
      (lit "ossec.example.com") = some .TRUE := by decide
  have heq := Option.some.inj (hr.symm.trans htrue)
  exact ⟨r, hr, heq, hiff.trans (iff_true_intro fun _ => hspec.mp heq)⟩

/-- The only name of a certificate is the manager's, and is not accepted. -/
theorem not_checkX509Cert : ¬ ∀ (lib : Library Bytes) (cert : Cert Bytes) (manager : Bytes),
    lib.Documented → (checkX509Cert lib (some cert) manager = some .TRUE ↔
      Matches lib cert manager (fun _ => True) 0) := by
  intro h
  have hhost : HostMatches (lit "ossec") (lit "ossec") := by
    refine ⟨rfl, List.forall_mem_singleton.mpr (by decide), ?_, rfl⟩
    rintro _ ⟨⟩ _ ⟨⟩
    exact .inr rfl
  have hmatches : Matches searchLibrary ⟨none, some [(13, lit "ossec")]⟩ (lit "ossec")
      (fun _ => True) 0 := .cn rfl (Nat.zero_le 0) rfl rfl ⟨trivial, trivial⟩ hhost
  have htrue := (h searchLibrary _ _ documented_searchLibrary).mpr hmatches
  exact absurd htrue (by decide)

end CheckCert
