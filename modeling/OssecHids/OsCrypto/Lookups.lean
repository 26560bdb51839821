import OssecHids.AddAgent.Roster
import OssecHids.OsCrypto.Reload

/-!
# Looking agents up

`OS_ReadKeys` adds the agents of the active lines to an array and to two hashes, which
`OS_IsAllowedIP`, `OS_IsAllowedID` and `OS_IsAllowedName` search.

- `Active`: the active lines, and their fields;
- `keyLine_eq_some_iff`: the parser accepts just these;
- `readKeyLines_eq`: the entries are those of the active lines, in order;
- `lookups_of_readKeys`: what the searches find after `OS_ReadKeys`.
-/

open CString List Option

namespace KeyTable

/-! ## Functions -/

/-- `OSHash_Get`: the entry that a hash of the keystore points to. -/
def get (t : KeyTable) (hash : List (Bytes × ℕ)) (key : Bytes) : Option KeyEntry :=
  (hash.lookup key).bind fun i => t.keyentries[i]?

/-- `OS_IsAllowedIP` -/
def osIsAllowedIP (t : KeyTable) : Option Bytes → ℤ
  | none => -1
  | some srcip =>
    match t.get t.keyhash_ip srcip with
    | some entry => entry.keyid
    | none => -1

/-- `OS_IsAllowedID` -/
def osIsAllowedID (t : KeyTable) : Option Bytes → ℤ
  | none => -1
  | some id =>
    match t.get t.keyhash_id id with
    | some entry => entry.keyid
    | none => -1

/-- The loop of `OS_IsAllowedName`. -/
def allowedNameLoop (name : Bytes) : ℕ → List KeyEntry → ℤ
  | _, [] => -1
  | i, entry :: entries => if entry.name = name then i else allowedNameLoop name (i + 1) entries

/-- `OS_IsAllowedName` -/
def osIsAllowedName (t : KeyTable) (name : Bytes) : ℤ := allowedNameLoop name 0 t.keyentries

/-! ## Active lines -/

/-- The text of a line, up to its newline or to a zero byte, with an id, a name, an address and a
key, each but the first 127 bytes of the field. The id is not empty, and neither it nor the name
begins with a `#`. -/
def Active (buffer : Bytes) (l : KeyLine) : Prop :=
  ∃ id name ip key, str buffer = id ++ chr ' ' :: (name ++ chr ' ' :: (ip ++ chr ' ' :: key)) ∧
    chr ' ' ∉ id ∧ chr ' ' ∉ name ∧ chr ' ' ∉ ip ∧
    id ≠ [] ∧ id.headD 0 ≠ chr '#' ∧ name.headD 0 ≠ chr '#' ∧
    l = { id := id.take (KEYSIZE - 1)
          name := name.take (KEYSIZE - 1)
          ip := ip.take (KEYSIZE - 1)
          key := (key.takeWhile (· != chr '\n')).take (KEYSIZE - 1) }

variable {c : UInt8} {s l r t buffer : Bytes}

theorem cutAt_cons (b : UInt8) (s : Bytes) :
    cutAt c (b :: s) =
      if b = c then some ([], s)
      else if b = 0 then none
      else (cutAt c s).map fun (l, r) => (b :: l, r) := by
  rw [cutAt, strchr]
  split
  case isTrue hb =>
    rw [map_some, ptrDiff, Nat.sub_self]
    rfl
  case isFalse hb =>
    split
    case isTrue => rfl
    case isFalse =>
      rw [cutAt]
      cases hp : strchr c s with
      | none => rfl
      | some p =>
        obtain ⟨l, r, rfl, rfl, -⟩ := exists_of_strchr_eq_some hp
        have hfirst : ptrDiff (c :: r) (b :: (l ++ c :: r)) = l.length + 1 := by
          rw [ptrDiff, length_cons, length_append]
          omega
        have hrest : ptrDiff (c :: r) (l ++ c :: r) = l.length := by
          rw [ptrDiff, length_append]
          omega
        rw [map_some, map_some, map_some, hfirst, hrest, take_succ_cons]

theorem str_cons (b : UInt8) (s : Bytes) : str (b :: s) = if b = 0 then [] else b :: str s := by
  rw [str, str, takeWhile_cons]
  by_cases hb : b = 0
  · simp [hb]
  · simp [hb]

/-- The cut of the text of a string. -/
theorem cutAt_iff (hc : c ≠ 0) :
    (∃ r, cutAt c s = some (l, r) ∧ str r = t) ↔ str s = l ++ c :: t ∧ c ∉ l := by
  induction s generalizing l with
  | nil =>
    refine iff_of_false ?_ ?_
    · rintro ⟨r, h, -⟩
      cases h
    · rintro ⟨h, -⟩
      exact absurd h.symm (by simp [str])
  | cons b s ih =>
    rw [cutAt_cons, str_cons]
    by_cases hb : b = c
    · subst hb
      rw [if_pos rfl, if_neg hc]
      constructor
      · rintro ⟨r, h, rfl⟩
        cases h
        exact ⟨rfl, not_mem_nil⟩
      · rintro ⟨h, hl⟩
        cases l with
        | nil => exact ⟨s, rfl, (List.cons.inj h).2⟩
        | cons x l =>
          obtain rfl := (List.cons.inj h).1
          exact absurd mem_cons_self hl
    · rw [if_neg hb]
      by_cases hz : b = 0
      · rw [if_pos hz, if_pos hz]
        refine iff_of_false ?_ fun h => absurd h.1.symm (by simp)
        rintro ⟨_, h, -⟩
        cases h
      · rw [if_neg hz, if_neg hz]
        constructor
        · rintro ⟨r, h, rfl⟩
          obtain ⟨⟨l', r'⟩, hcut, heq⟩ := map_eq_some_iff.mp h
          obtain ⟨rfl, rfl⟩ := Prod.mk.inj heq
          obtain ⟨hstr, hl⟩ := ih.mp ⟨r', hcut, rfl⟩
          exact ⟨congrArg (b :: ·) hstr, by simp [hl, Ne.symm hb]⟩
        · rintro ⟨h, hl⟩
          cases l with
          | nil => exact absurd (List.cons.inj h).1 hb
          | cons x l =>
            obtain ⟨rfl, hstr⟩ := List.cons.inj h
            obtain ⟨r, hcut, hr⟩ := ih.mpr ⟨hstr, fun h => hl (mem_cons_of_mem _ h)⟩
            exact ⟨r, by rw [hcut]; rfl, hr⟩

theorem strncpy_eq_take (n : ℕ) (s : Bytes) : strncpy n s = (str s).take n := by
  rw [strncpy]
  induction s generalizing n with
  | nil => simp [str]
  | cons b s ih =>
    cases n with
    | zero => rfl
    | succ n =>
      rw [take_succ_cons, str_cons, str_cons]
      split
      · rfl
      · rw [take_succ_cons, ih]

/-- The text up to the first `c`, or the whole text. -/
theorem str_beforeCut (hc : c ≠ 0) (s : Bytes) :
    str (((cutAt c s).map Prod.fst).getD s) = (str s).takeWhile (· != c) := by
  induction s with
  | nil => rfl
  | cons b s ih =>
    rw [cutAt_cons, str_cons]
    by_cases hb : b = c
    · subst hb
      rw [if_pos rfl, if_neg hc, takeWhile_cons_of_neg (by simp)]
      rfl
    · by_cases hz : b = 0
      · subst hz
        rw [if_neg hb, if_pos rfl, if_pos rfl]
        rfl
      · have hrest : (((cutAt c s).map fun (l, r) => (b :: l, r)).map Prod.fst).getD (b :: s) =
            b :: ((cutAt c s).map Prod.fst).getD s := by
          cases cutAt c s <;> rfl
        rw [if_neg hb, if_neg hz, if_neg hz, hrest, str_cons, if_neg hz, ih,
          takeWhile_cons_of_pos (by simpa using hb)]

theorem headD_str (s : Bytes) : (str s).headD 0 = s.headD 0 := by
  cases s with
  | nil => rfl
  | cons b s =>
    rw [str_cons]
    split
    case isTrue hb => exact hb.symm
    case isFalse => rfl

theorem str_of_append (h : str s = l ++ r) : str l = l := by
  apply str_eq_self
  intro b hb
  have hmem : b ∈ str s := h ▸ mem_append_left r hb
  simpa using mem_takeWhile_imp hmem

/-- The parser takes the active lines, and no others. -/
theorem keyLine_eq_some_iff (buffer : Bytes) (l : KeyLine) :
    keyLine buffer = some l ↔ Active buffer l := by
  have hblank : chr ' ' ≠ 0 := by decide
  constructor
  · intro h
    unfold keyLine at h
    split at h
    case isTrue => exact nomatch h
    case isFalse hhead =>
    obtain ⟨⟨id, tmp₁⟩, hid, h⟩ := bind_eq_some_iff.mp h
    dsimp only at h
    split at h
    case isTrue => exact nomatch h
    case isFalse hremoved =>
    obtain ⟨⟨name, tmp₂⟩, hname, h⟩ := bind_eq_some_iff.mp h
    obtain ⟨⟨ip, tmp₃⟩, hip, rfl⟩ := map_eq_some_iff.mp h
    obtain ⟨hstr, hid'⟩ := (cutAt_iff hblank).mp ⟨tmp₁, hid, rfl⟩
    obtain ⟨hstr₁, hname'⟩ := (cutAt_iff hblank).mp ⟨tmp₂, hname, rfl⟩
    obtain ⟨hstr₂, hip'⟩ := (cutAt_iff hblank).mp ⟨tmp₃, hip, rfl⟩
    rw [← headD_str, hstr] at hhead
    rw [← headD_str, hstr₁] at hremoved
    refine ⟨id, name, ip, str tmp₃, by rw [hstr, hstr₁, hstr₂], hid', hname', hip', ?_, ?_, ?_, ?_⟩
    · rintro rfl
      exact hhead (.inr rfl)
    · cases id with
      | nil => decide
      | cons b id => exact fun h => hhead (.inl h)
    · cases name with
      | nil => decide
      | cons b name => exact hremoved
    · simp only [strncpy_eq_take, str_of_append hstr, str_of_append hstr₁, str_of_append hstr₂,
        str_beforeCut (show chr '\n' ≠ 0 by decide)]
  · rintro ⟨id, name, ip, key, hstr, hid, hname, hip, hne, hhash, hremoved, rfl⟩
    obtain ⟨tmp₁, hcut, hstr₁⟩ := (cutAt_iff hblank).mpr ⟨hstr, hid⟩
    obtain ⟨tmp₂, hcut₁, hstr₂⟩ := (cutAt_iff hblank).mpr ⟨hstr₁, hname⟩
    obtain ⟨tmp₃, hcut₂, hstr₃⟩ := (cutAt_iff hblank).mpr ⟨hstr₂, hip⟩
    have hhead : ¬ (buffer.headD 0 = chr '#' ∨ buffer.headD 0 = chr ' ') := by
      rw [← headD_str, hstr]
      cases id with
      | nil => exact absurd rfl hne
      | cons b id =>
        rintro (h | h)
        · exact hhash h
        · exact hid (h ▸ mem_cons_self)
    have hremoved' : ¬ tmp₁.headD 0 = chr '#' := by
      rw [← headD_str, hstr₁]
      cases name with
      | nil => exact (by decide : chr ' ' ≠ chr '#')
      | cons b name => exact hremoved
    rw [keyLine, if_neg hhead, hcut, bind_some]
    dsimp only
    rw [if_neg hremoved', hcut₁, bind_some, hcut₂, map_some]
    simp only [strncpy_eq_take, str_of_append hstr, str_of_append hstr₁, str_of_append hstr₂,
      str_beforeCut (show chr '\n' ≠ 0 by decide), hstr₃]

/-! ## The entries -/

variable {P : Crypto} {env : KeysEnv} {lines : List KeyLine} {keys keys' : KeyTable}

/-- An address without the length of its prefix. -/
def addressOf (ip : Bytes) : Bytes := ((cutAt (chr '/') ip).map Prod.fst).getD ip

/-- The entry of a line. -/
def entryOf (P : Crypto) (keyid : ℕ) (l : KeyLine) : KeyEntry where
  rcvd := 0
  counter := .zero
  keyid := keyid
  id := l.id
  key := finalKey P l
  name := l.name
  ip := addressOf l.ip
  peer_info := []
  fp := none
  inode := 0
  crypto_method := .aes

/-- The array and the hashes of some lines: a hash has the first entry with a key. -/
structure Loaded (P : Crypto) (lines : List KeyLine) (keys : KeyTable) : Prop where
  keyentries_eq : keys.keyentries = lines.mapIdx (entryOf P)
  keyhash_id : ∀ id, keys.keyhash_id.lookup id = (lines.map KeyLine.id).idxOf? id
  keyhash_ip : ∀ ip, keys.keyhash_ip.lookup ip = (lines.map fun l => addressOf l.ip).idxOf? ip

/-- `__chash` adds the entry of its line. -/
theorem Loaded.add (h : Loaded P lines keys) {l : KeyLine}
    (hchash : chash P env keys l = some keys') :
    Loaded P (lines ++ [l]) keys' := by
  have hlength : keys.keyentries.length = lines.length := by
    rw [h.keyentries_eq, length_mapIdx]
  unfold chash at hchash
  split at hchash
  case isTrue => exact nomatch hchash
  case isFalse =>
    cases hchash
    refine ⟨?_, fun id => ?_, fun ip => ?_⟩
    · dsimp only
      rw [mapIdx_concat, ← h.keyentries_eq, hlength]
      rfl
    · have hadd := lookup_osHashAdd h.keyhash_id l.id id
      rw [length_map, ← hlength] at hadd
      rw [map_append]
      exact hadd
    · have hadd := lookup_osHashAdd h.keyhash_ip (addressOf l.ip) ip
      rw [length_map, ← hlength] at hadd
      rw [map_append]
      exact hadd

/-- The lines that are read add the entries of those that are active. -/
theorem Loaded.readLines (h : Loaded P lines keys) {pieces : List Bytes}
    (hread : readKeyLines P env keys pieces = some keys') :
    Loaded P (lines ++ pieces.filterMap keyLine) keys' := by
  induction pieces generalizing keys lines with
  | nil =>
    cases hread
    rwa [filterMap_nil, append_nil]
  | cons buffer pieces ih =>
    rw [readKeyLines.eq_def] at hread
    dsimp only at hread
    cases hline : keyLine buffer with
    | none =>
      rw [hline] at hread
      rw [filterMap_cons_none hline]
      exact ih h hread
    | some l =>
      rw [hline] at hread
      obtain ⟨keys₁, hchash, hrest⟩ := bind_eq_some_iff.mp hread
      split at hrest
      case isTrue => cases hrest
      case isFalse =>
        rw [filterMap_cons_some hline, append_cons]
        exact ih (h.add hchash) hrest

/-- The active lines of a file, in the pieces in which they are read. -/
def activeLines (content : Bytes) : List KeyLine :=
  (fgetsAll (OS_BUFFER_SIZE - 1) [] content).filterMap keyLine

theorem loaded_of_readKeys {content : Bytes} (h : osReadKeys P env content = some keys) :
    Loaded P (activeLines content) keys := by
  obtain ⟨keys', hread, h⟩ := bind_eq_some_iff.mp h
  split at h
  case isTrue => exact nomatch h
  case isFalse =>
    cases h
    have hempty : Loaded P [] { keyentries := [], keyhash_id := [], keyhash_ip := [] } :=
      ⟨rfl, fun _ => rfl, fun _ => rfl⟩
    exact hempty.readLines hread

/-- What is left at the end of a file, without a newline. -/
theorem fgetsAll_last {n : ℕ} {acc last : Bytes} (hlast : chr '\n' ∉ last)
    (hlen : acc.length + last.length < n) :
    fgetsAll n acc last = if acc ++ last = [] then [] else [acc ++ last] := by
  induction last generalizing acc with
  | nil =>
    rw [append_nil]
    cases acc <;> rfl
  | cons b last ih =>
    rw [mem_cons, not_or] at hlast
    rw [length_cons] at hlen
    have hlen' : (acc ++ [b]).length = acc.length + 1 := length_append
    rw [AddAgent.fgetsAll_cons, if_neg, ih hlast.2 (by omega), append_assoc, singleton_append]
    rintro (hb | hb)
    · exact hlast.1 hb.symm
    · omega

theorem activeLines_unlines {texts : List Bytes} {last : Bytes}
    (htexts : ∀ text ∈ texts, chr '\n' ∉ text ∧ text.length < OS_BUFFER_SIZE - 1)
    (hlast : chr '\n' ∉ last ∧ last.length < OS_BUFFER_SIZE - 1) :
    activeLines (unlines texts ++ last) =
      (texts.map (· ++ [chr '\n']) ++ [last]).filterMap keyLine := by
  rw [activeLines]
  induction texts with
  | nil =>
    rw [unlines_nil, nil_append, fgetsAll_last hlast.1 (by simpa using hlast.2)]
    cases last <;> rfl
  | cons text texts ih =>
    obtain ⟨⟨htext, hlen⟩, hrest⟩ := forall_mem_cons.mp htexts
    rw [unlines_cons, append_assoc, cons_append, AddAgent.fgetsAll_line htext (by simpa using hlen),
      nil_append, filterMap_cons, ih hrest, map_cons, cons_append, filterMap_cons]

/-! ## The searches -/

/-- The answer of a search: the index of the first line that has what is looked for, or -1. -/
def Finds (p : KeyLine → Prop) (lines : List KeyLine) (ret : ℤ) : Prop :=
  (ret = -1 ∧ ∀ l ∈ lines, ¬ p l) ∨
    ∃ i : ℕ, ∃ l, ret = i ∧ lines[i]? = some l ∧ p l ∧
      ∀ j < i, ∀ l', lines[j]? = some l' → ¬ p l'

theorem idxOf?_spec (f : KeyLine → Bytes) (lines : List KeyLine) (x : Bytes) :
    match (lines.map f).idxOf? x with
    | none => ∀ l ∈ lines, f l ≠ x
    | some i => ∃ l, lines[i]? = some l ∧ f l = x ∧
      ∀ j < i, ∀ l', lines[j]? = some l' → f l' ≠ x := by
  rw [List.idxOf?, findIdx?_map]
  split
  case h_1 hnone =>
    intro l hl
    simpa using findIdx?_eq_none_iff.mp hnone l hl
  case h_2 i hi =>
    obtain ⟨hlt, hfound, hfirst⟩ := findIdx?_eq_some_iff_getElem.mp hi
    refine ⟨lines[i], getElem?_eq_getElem hlt, by simpa using hfound, fun j hj l' hl' => ?_⟩
    obtain ⟨hlt', rfl⟩ := List.getElem?_eq_some_iff.mp hl'
    simpa using hfirst j hj

/-- The entry that a hash has for a key is the first one with the key. -/
theorem Loaded.get_eq (h : Loaded P lines keys) {hash : List (Bytes × ℕ)} {f : KeyLine → Bytes}
    (hhash : ∀ x, hash.lookup x = (lines.map f).idxOf? x) (x : Bytes) :
    (keys.get hash x = none ∧ ∀ l ∈ lines, f l ≠ x) ∨
      ∃ i l, keys.get hash x = some (entryOf P i l) ∧ lines[i]? = some l ∧ f l = x ∧
        ∀ j < i, ∀ l', lines[j]? = some l' → f l' ≠ x := by
  have hspec := idxOf?_spec f lines x
  rw [get, hhash]
  cases hidx : (lines.map f).idxOf? x with
  | none =>
    rw [hidx] at hspec
    exact .inl ⟨rfl, hspec⟩
  | some i =>
    rw [hidx] at hspec
    obtain ⟨l, hl, hrest⟩ := hspec
    refine .inr ⟨i, l, ?_, hl, hrest⟩
    rw [bind_some, h.keyentries_eq, getElem?_mapIdx, hl]
    rfl

theorem Loaded.finds_osIsAllowedID (h : Loaded P lines keys) (id : Bytes) :
    Finds (fun l => l.id = id) lines (osIsAllowedID keys (some id)) := by
  rw [osIsAllowedID]
  rcases h.get_eq h.keyhash_id id with ⟨hget, hnone⟩ | ⟨i, l, hget, hfound⟩
  · rw [hget]
    exact .inl ⟨rfl, hnone⟩
  · rw [hget]
    exact .inr ⟨i, l, rfl, hfound⟩

theorem Loaded.finds_osIsAllowedIP (h : Loaded P lines keys) (srcip : Bytes) :
    Finds (fun l => addressOf l.ip = srcip) lines (osIsAllowedIP keys (some srcip)) := by
  rw [osIsAllowedIP]
  rcases h.get_eq h.keyhash_ip srcip with ⟨hget, hnone⟩ | ⟨i, l, hget, hfound⟩
  · rw [hget]
    exact .inl ⟨rfl, hnone⟩
  · rw [hget]
    exact .inr ⟨i, l, rfl, hfound⟩

theorem allowedNameLoop_eq (name : Bytes) (i : ℕ) (entries : List KeyEntry) :
    allowedNameLoop name i entries =
      match (entries.map KeyEntry.name).idxOf? name with
      | none => -1
      | some k => ((i + k : ℕ) : ℤ) := by
  induction entries generalizing i with
  | nil => rfl
  | cons entry entries ih =>
    rw [allowedNameLoop, map_cons, idxOf?_cons]
    by_cases hname : entry.name = name
    · rw [if_pos hname, if_pos (by simpa using hname)]
      rfl
    · rw [if_neg hname, if_neg (by simpa using hname), ih]
      cases (entries.map KeyEntry.name).idxOf? name with
      | none => rfl
      | some k =>
        rw [map_some]
        dsimp only
        rw [add_right_comm, add_assoc]

theorem Loaded.finds_osIsAllowedName (h : Loaded P lines keys) (name : Bytes) :
    Finds (fun l => l.name = name) lines (osIsAllowedName keys name) := by
  have hnames : keys.keyentries.map KeyEntry.name = lines.map KeyLine.name := by
    rw [h.keyentries_eq]
    apply ext_getElem?
    intro i
    rw [getElem?_map, getElem?_map, getElem?_mapIdx]
    cases lines[i]? <;> rfl
  have hspec := idxOf?_spec KeyLine.name lines name
  rw [osIsAllowedName, allowedNameLoop_eq, hnames]
  cases hidx : (lines.map KeyLine.name).idxOf? name with
  | none =>
    rw [hidx] at hspec
    exact .inl ⟨rfl, hspec⟩
  | some i =>
    rw [hidx] at hspec
    obtain ⟨l, hl⟩ := hspec
    refine .inr ⟨i, l, ?_, hl⟩
    dsimp only
    rw [zero_add]

/-- After `OS_ReadKeys` the entries are those of the active lines, in order, each with its index.
The hash of the ids has an entry with the id that is asked for, and the hash of the addresses one
with the address, which is kept without the length of its prefix. The searches return the index of
the first active line that has what is asked for, or -1. Lines that fit in the buffer are read as
they are, and those that are not active do not count. -/
theorem lookups_of_readKeys {content : Bytes} (h : osReadKeys P env content = some keys) :
    keys.keyentries = (activeLines content).mapIdx (entryOf P) ∧
      (∀ (i : ℕ) (e : KeyEntry), keys.keyentries[i]? = some e → e.keyid = i) ∧
      (∀ id e, keys.get keys.keyhash_id id = some e → e.id = id) ∧
      (∀ ip e, keys.get keys.keyhash_ip ip = some e → e.ip = ip) ∧
      (∀ id, Finds (fun l => l.id = id) (activeLines content) (osIsAllowedID keys (some id))) ∧
      (∀ ip, Finds (fun l => addressOf l.ip = ip) (activeLines content)
        (osIsAllowedIP keys (some ip))) ∧
      (∀ name, Finds (fun l => l.name = name) (activeLines content)
        (osIsAllowedName keys name)) ∧
      (∀ texts last, content = unlines texts ++ last →
        (∀ text ∈ texts, chr '\n' ∉ text ∧ text.length < OS_BUFFER_SIZE - 1) →
        chr '\n' ∉ last ∧ last.length < OS_BUFFER_SIZE - 1 →
        activeLines content = (texts.map (· ++ [chr '\n']) ++ [last]).filterMap keyLine) ∧
      ∀ buffer l, keyLine buffer = some l ↔ Active buffer l := by
  have hloaded := loaded_of_readKeys h
  refine ⟨hloaded.keyentries_eq, fun i e he => ?_, fun id e he => ?_, fun ip e he => ?_,
    hloaded.finds_osIsAllowedID, hloaded.finds_osIsAllowedIP, hloaded.finds_osIsAllowedName, ?_,
    keyLine_eq_some_iff⟩
  · rw [hloaded.keyentries_eq, getElem?_mapIdx] at he
    obtain ⟨l, -, rfl⟩ := map_eq_some_iff.mp he
    rfl
  · rcases hloaded.get_eq hloaded.keyhash_id id with ⟨hget, -⟩ | ⟨i, l, hget, -, hid, -⟩
    · exact nomatch hget.symm.trans he
    · obtain rfl := some.inj (hget.symm.trans he)
      exact hid
  · rcases hloaded.get_eq hloaded.keyhash_ip ip with ⟨hget, -⟩ | ⟨i, l, hget, -, hip, -⟩
    · exact nomatch hget.symm.trans he
    · obtain rfl := some.inj (hget.symm.trans he)
      exact hip
  · rintro texts last rfl htexts hlast
    exact activeLines_unlines htexts hlast

/-- A comment, an agent of a network, and one that was removed. -/
def networkKeys : Bytes :=
  lit "# 009 c any k\n001 a 10.0.0.0/24 k\n002 #*#*#*# any k\n"

/-- The address of an agent is not found with the length of its prefix. -/
theorem not_allowed_network :
    ∃ keys, osReadKeys .plain Keystore.sampleEnv networkKeys = some keys ∧
      (∃ l ∈ activeLines networkKeys, l.ip = lit "10.0.0.0/24") ∧
      osIsAllowedIP keys (some (lit "10.0.0.0/24")) = -1 := by
  have hread : (osReadKeys .plain Keystore.sampleEnv networkKeys).map
      (fun keys => osIsAllowedIP keys (some (lit "10.0.0.0/24"))) = some (-1) := by decide
  obtain ⟨keys, hkeys, hip⟩ := map_eq_some_iff.mp hread
  have hlines : activeLines networkKeys =
      [⟨lit "001", lit "a", lit "10.0.0.0/24", lit "k"⟩] := by decide
  exact ⟨keys, hkeys, hlines ▸ ⟨_, mem_cons_self, rfl⟩, hip⟩

/-- The one agent of the file is found by its name. -/
theorem lookups_of_readKeys_network :
    ∃ keys, osReadKeys .plain Keystore.sampleEnv networkKeys = some keys ∧
      Finds (fun l => l.name = lit "a") (activeLines networkKeys)
        (osIsAllowedName keys (lit "a")) := by
  have hread : (osReadKeys .plain Keystore.sampleEnv networkKeys).isSome := by decide
  obtain ⟨keys, hkeys⟩ := isSome_iff_exists.mp hread
  exact ⟨keys, hkeys, (lookups_of_readKeys hkeys).2.2.2.2.2.2.1 _⟩

end KeyTable
