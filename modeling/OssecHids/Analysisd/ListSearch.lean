import OssecHids.Analysisd.ListRules

/-!
# Looking up a key in a list

`OS_DBSearch`: six kinds of lookup in a file of keys and values, of which the ones for addresses
also look for the networks that an address lies in, `10.0.` and `10.` for `10.0.1`.

- `networkLoop_spec`: the loop over the networks finds the narrowest one that is there;
- `osDBSearch_law`: the kinds of lookup that answer as they should.
-/

open CString List Option

namespace ListSearch

def LR_STRING_MATCH : ℕ := 0
def LR_STRING_NOT_MATCH : ℕ := 1
def LR_STRING_MATCH_VALUE : ℕ := 2
def LR_ADDRESS_MATCH : ℕ := 10
def LR_ADDRESS_NOT_MATCH : ℕ := 11
def LR_ADDRESS_MATCH_VALUE : ℕ := 12

/-- What `cdb_find` finds and `cdb_read` reads: the value of a key. -/
abbrev Cdb := Bytes → Option Bytes

/-- What is behind a lookup. -/
structure Env where
  /-- `open` and `cdb_init` for the name of a file. -/
  cdbInit : Bytes → Option Cdb
  /-- `OSMatch_Execute` for a value, its length and the pattern of the lookup. -/
  osMatchExecute : Bytes → ℕ → Option Bytes → Bool

variable (env : Env)

/-- `_OS_CDBOpen`; there is nothing if the file cannot be opened. -/
def osCDBOpen (lnode : ListNode Cdb) : Option (Cdb × ListNode Cdb) :=
  match lnode.cdb with
  | some cdb => some (cdb, lnode)
  | none => (env.cdbInit lnode.cdb_filename).map fun cdb => (cdb, { lnode with cdb := some cdb })

/-- The result of `OSMatch_Execute` for the value of an entry. -/
def matchValue (lrule : ListRuleNode) (val : Bytes) : ℤ :=
  if env.osMatchExecute val val.length lrule.matcher then 1 else 0

/-- `OS_DBSearchKeyValue` -/
def osDBSearchKeyValue (lrule : ListRuleNode) (lnode : ListNode Cdb) (key : Bytes) :
    ℤ × ListNode Cdb :=
  match osCDBOpen env lnode with
  | none => (0, lnode)
  | some (cdb, lnode) =>
    match cdb key with
    | some val => (matchValue env lrule val, lnode)
    | none => (0, lnode)

/-- `OS_DBSeachKey` -/
def osDBSeachKey (lnode : ListNode Cdb) (key : Bytes) : ℤ × ListNode Cdb :=
  match osCDBOpen env lnode with
  | none => (-1, lnode)
  | some (cdb, lnode) => (if (cdb key).isSome then 1 else 0, lnode)

/-- The loop over the shorter and shorter `tmpkey`: the value at the first network that is found. -/
def networkLoop (cdb : Cdb) : ℕ → Bytes → Option Bytes
  | 0, _ => none
  | n + 1, tmpkey =>
    if tmpkey = [] then none
    else
      match if tmpkey.getLast? = some (chr '.') then cdb tmpkey else none with
      | some val => some val
      | none => networkLoop cdb n tmpkey.dropLast

/-- `OS_DBSeachKeyAddress` -/
def osDBSeachKeyAddress (lnode : ListNode Cdb) (key : Bytes) : ℤ × ListNode Cdb :=
  match osCDBOpen env lnode with
  | none => (-1, lnode)
  | some (cdb, lnode) =>
    if (cdb key).isSome then (1, lnode)
    else (if (networkLoop cdb key.length key).isSome then 1 else 0, lnode)

/-- `OS_DBSearchKeyAddressValue` -/
def osDBSearchKeyAddressValue (lrule : ListRuleNode) (lnode : ListNode Cdb) (key : Bytes) :
    ℤ × ListNode Cdb :=
  match osCDBOpen env lnode with
  | none => (0, lnode)
  | some (cdb, lnode) =>
    match cdb key with
    | some val => (matchValue env lrule val, lnode)
    | none =>
      match networkLoop cdb key.length key with
      | some val => (matchValue env lrule val, lnode)
      | none => (0, lnode)

/-- The `switch` of `OS_DBSearch`. -/
def lookup (lrule : ListRuleNode) (lnode : ListNode Cdb) (key : Bytes) : ℤ × ListNode Cdb :=
  if lrule.lookup_type = LR_STRING_MATCH then
    (osDBSeachKey env lnode key).map (fun result => if result = 1 then 1 else 0) id
  else if lrule.lookup_type = LR_STRING_NOT_MATCH then
    (osDBSeachKey env lnode key).map (fun result => if result = 1 then 0 else 1) id
  else if lrule.lookup_type = LR_STRING_MATCH_VALUE then
    (osDBSearchKeyValue env lrule lnode key).map (fun result => if result = 1 then 1 else 0) id
  else if lrule.lookup_type = LR_ADDRESS_MATCH then osDBSeachKeyAddress env lnode key
  else if lrule.lookup_type = LR_ADDRESS_NOT_MATCH then
    (osDBSeachKeyAddress env lnode key).map (fun result => if result = 0 then 1 else 0) id
  else if lrule.lookup_type = LR_ADDRESS_MATCH_VALUE then
    (osDBSearchKeyAddressValue env lrule lnode key).map
      (fun result => if result = 0 then 1 else 0) id
  else (0, lnode)

/-- The list of a lookup, which is looked for once. -/
def load (listnodes : List (ListNode Cdb)) (lrule : ListRuleNode) : ListRuleNode :=
  if lrule.loaded then lrule
  else { lrule with db := osFindList listnodes lrule.filename, loaded := true }

/-- `OS_DBSearch`, with the lists and the lookup afterwards. -/
def osDBSearch (listnodes : List (ListNode Cdb)) (lrule : ListRuleNode) (key : Bytes) :
    ℤ × List (ListNode Cdb) × ListRuleNode :=
  let lrule := load listnodes lrule
  match lrule.db.bind fun db => (listnodes[db]?).map fun lnode => (db, lnode) with
  | none => (0, listnodes, lrule)
  | some (db, lnode) =>
    let (result, lnode) := lookup env lrule lnode key
    (result, listnodes.set db lnode, lrule)

/-! ## What a lookup is to answer -/

/-- A network of an address, as the lists write it. -/
def IsNetwork (key p : Bytes) : Prop := p <+: key ∧ p.getLast? = some (chr '.')

/-- The key itself is there, or one of its networks. -/
def Contains (cdb : Cdb) (key : Bytes) : Prop :=
  (cdb key).isSome ∨ ∃ p, IsNetwork key p ∧ (cdb p).isSome

/-- The value at the key, or else at the narrowest of its networks that is there. -/
def HasValue (cdb : Cdb) (key val : Bytes) : Prop :=
  cdb key = some val ∨ cdb key = none ∧ ∃ p, IsNetwork key p ∧ cdb p = some val ∧
    ∀ q, IsNetwork key q → (cdb q).isSome → q.length ≤ p.length

/-- What the kinds of lookup ask of the entries of a list. -/
def Asks (lrule : ListRuleNode) (cdb : Cdb) (key : Bytes) : Prop :=
  if lrule.lookup_type = LR_STRING_MATCH then ∃ val, cdb key = some val
  else if lrule.lookup_type = LR_STRING_NOT_MATCH then cdb key = none
  else if lrule.lookup_type = LR_STRING_MATCH_VALUE then
    ∃ val, cdb key = some val ∧ env.osMatchExecute val val.length lrule.matcher
  else if lrule.lookup_type = LR_ADDRESS_MATCH then Contains cdb key
  else if lrule.lookup_type = LR_ADDRESS_NOT_MATCH then ¬Contains cdb key
  else if lrule.lookup_type = LR_ADDRESS_MATCH_VALUE then
    ∃ val, HasValue cdb key val ∧ env.osMatchExecute val val.length lrule.matcher
  else False

/-- A lookup that does not ask for the absence of something. -/
def Positive (lrule : ListRuleNode) : Prop :=
  lrule.lookup_type ≠ LR_STRING_NOT_MATCH ∧ lrule.lookup_type ≠ LR_ADDRESS_NOT_MATCH

/-- The list of a lookup, if there is one. -/
def listOf (listnodes : List (ListNode Cdb)) (lrule : ListRuleNode) : Option (ListNode Cdb) :=
  (load listnodes lrule).db.bind fun db => listnodes[db]?

/-- What `OS_DBSearch` is to answer; without a list that can be opened, the positive lookups answer
no. -/
def Answers (listnodes : List (ListNode Cdb)) (lrule : ListRuleNode) (key : Bytes) : Prop :=
  match (listOf listnodes lrule).bind (osCDBOpen env) with
  | none => Positive lrule → (osDBSearch env listnodes lrule key).1 = 0
  | some (cdb, _) => (osDBSearch env listnodes lrule key).1 ≠ 0 ↔ Asks env lrule cdb key

variable {env} {cdb : Cdb} {key tmpkey : Bytes}

/-- A network of a key is the key or a network of the key without its last letter. -/
theorem isNetwork_iff (hne : tmpkey ≠ []) (p : Bytes) : IsNetwork tmpkey p ↔
    (p = tmpkey ∧ tmpkey.getLast? = some (chr '.')) ∨ IsNetwork tmpkey.dropLast p := by
  have hprefix : p <+: tmpkey ↔ p = tmpkey ∨ p <+: tmpkey.dropLast := by
    conv_lhs => rw [← dropLast_append_getLast hne]
    rw [prefix_concat_iff, dropLast_append_getLast hne]
  rw [IsNetwork, IsNetwork, hprefix]
  constructor
  · rintro ⟨rfl | hp, hlast⟩
    · exact .inl ⟨rfl, hlast⟩
    · exact .inr ⟨hp, hlast⟩
  · rintro (⟨rfl, hlast⟩ | ⟨hp, hlast⟩)
    · exact ⟨.inl rfl, hlast⟩
    · exact ⟨.inr hp, hlast⟩

theorem not_isNetwork_nil (p : Bytes) : ¬IsNetwork [] p := by
  rintro ⟨hp, hlast⟩
  rw [prefix_nil.mp hp] at hlast
  cases hlast

/-- The loop stops at the narrowest network that is there. -/
theorem networkLoop_spec (cdb : Cdb) {n : ℕ} (hn : tmpkey.length ≤ n) :
    (networkLoop cdb n tmpkey = none ∧ ∀ p, IsNetwork tmpkey p → cdb p = none) ∨
      ∃ p val, networkLoop cdb n tmpkey = some val ∧ IsNetwork tmpkey p ∧ cdb p = some val ∧
        ∀ q, IsNetwork tmpkey q → (cdb q).isSome → q.length ≤ p.length := by
  induction n generalizing tmpkey with
  | zero =>
    obtain rfl := length_eq_zero_iff.mp (Nat.le_zero.mp hn)
    exact .inl ⟨rfl, fun p hp => absurd hp (not_isNetwork_nil p)⟩
  | succ n ih =>
    by_cases hne : tmpkey = []
    · subst hne
      exact .inl ⟨if_pos rfl, fun p hp => absurd hp (not_isNetwork_nil p)⟩
    · rw [networkLoop, if_neg hne]
      have hlength : tmpkey.dropLast.length ≤ n := by
        rw [length_dropLast]
        omega
      -- either the whole text is a network that is there, or it is passed over
      cases hfound : if tmpkey.getLast? = some (chr '.') then cdb tmpkey else none with
      | some val =>
        rw [ite_eq_iff] at hfound
        obtain ⟨hlast, hval⟩ | ⟨-, hval⟩ := hfound
        · exact .inr ⟨tmpkey, val, rfl, ⟨prefix_rfl, hlast⟩, hval, fun q hq _ => hq.1.length_le⟩
        · exact absurd hval (some_ne_none _).symm
      | none =>
        have hpass : tmpkey.getLast? = some (chr '.') → cdb tmpkey = none := fun hlast => by
          rwa [if_pos hlast] at hfound
        rcases ih hlength with ⟨hnone, hall⟩ | ⟨p, val, hsome, hp, hval, hlongest⟩
        · refine .inl ⟨hnone, fun p hp => ?_⟩
          rcases (isNetwork_iff hne p).mp hp with ⟨rfl, hlast⟩ | hp
          · exact hpass hlast
          · exact hall p hp
        · refine .inr ⟨p, val, hsome, (isNetwork_iff hne p).mpr (.inr hp), hval,
            fun q hq hthere => ?_⟩
          rcases (isNetwork_iff hne q).mp hq with ⟨rfl, hlast⟩ | hq
          · rw [hpass hlast] at hthere
            cases hthere
          · exact hlongest q hq hthere

theorem contains_iff : Contains cdb key ↔
    (cdb key).isSome ∨ (networkLoop cdb key.length key).isSome := by
  refine or_congr_right ?_
  rcases networkLoop_spec cdb (le_refl key.length) with
    ⟨hnone, hall⟩ | ⟨p, val, hsome, hp, hval, -⟩
  · rw [hnone]
    refine iff_of_false ?_ Bool.false_ne_true
    rintro ⟨p, hp, hsome⟩
    rw [hall p hp] at hsome
    exact Bool.false_ne_true hsome
  · rw [hsome]
    exact iff_of_true ⟨p, hp, by rw [hval]; rfl⟩ rfl

/-- The value that the address lookups read. -/
theorem hasValue_iff (val : Bytes) : HasValue cdb key val ↔
    (cdb key).or (networkLoop cdb key.length key) = some val := by
  rw [HasValue]
  cases hkey : cdb key with
  | some v => simp
  | none =>
    rw [none_or, or_iff_right (some_ne_none _).symm, and_iff_right rfl]
    rcases networkLoop_spec cdb (le_refl key.length) with
      ⟨hnone, hall⟩ | ⟨p, v, hsome, hp, hv, hlongest⟩
    · rw [hnone]
      refine iff_of_false ?_ (some_ne_none _).symm
      rintro ⟨p, hp, hval, -⟩
      rw [hall p hp] at hval
      exact some_ne_none _ hval.symm
    · rw [hsome, some.injEq]
      constructor
      · rintro ⟨q, hq, hval, hmax⟩
        -- two prefixes of one length are one
        have hlen : q.length = p.length :=
          le_antisymm (hlongest q hq (by rw [hval]; rfl)) (hmax p hp (by rw [hv]; rfl))
        have heq : q = p := prefix_of_prefix_length_le hq.1 hp.1 hlen.le |>.eq_of_length hlen
        rw [heq, hv] at hval
        exact some.inj hval
      · rintro rfl
        exact ⟨p, hp, hv, hlongest⟩

variable {listnodes : List (ListNode Cdb)} {lrule : ListRuleNode} {lnode lnode' : ListNode Cdb}

theorem load_lookup_type : (load listnodes lrule).lookup_type = lrule.lookup_type := by
  rw [load]
  split_ifs <;> rfl

theorem load_matcher : (load listnodes lrule).matcher = lrule.matcher := by
  rw [load]
  split_ifs <;> rfl

theorem osDBSearch_of_none (h : listOf listnodes lrule = none) :
    (osDBSearch env listnodes lrule key).1 = 0 := by
  have hnone : (load listnodes lrule).db.bind
      (fun db => (listnodes[db]?).map fun lnode => (db, lnode)) = none := by
    rw [listOf, bind_eq_none_iff] at h
    rw [bind_eq_none_iff]
    exact fun db hdb => by rw [h db hdb, map_none]
  rw [osDBSearch, hnone]

theorem osDBSearch_of_some (h : listOf listnodes lrule = some lnode) :
    (osDBSearch env listnodes lrule key).1 = (lookup env (load listnodes lrule) lnode key).1 := by
  obtain ⟨db, hdb, hlnode⟩ := bind_eq_some_iff.mp h
  have hsome : (load listnodes lrule).db.bind
      (fun db => (listnodes[db]?).map fun lnode => (db, lnode)) = some (db, lnode) := by
    rw [hdb, bind_some, hlnode, map_some]
  rw [osDBSearch, hsome]

theorem matchValue_cases (env : Env) (lrule : ListRuleNode) (val : Bytes) :
    (matchValue env lrule val = 1 ∧ env.osMatchExecute val val.length lrule.matcher) ∨
      (matchValue env lrule val = 0 ∧ ¬env.osMatchExecute val val.length lrule.matcher) := by
  rw [matchValue]
  split_ifs with h
  · exact .inl ⟨rfl, h⟩
  · exact .inr ⟨rfl, h⟩

/-! ## The four functions, for a list that can be opened -/

theorem osDBSeachKey_of_open (h : osCDBOpen env lnode = some (cdb, lnode')) (key : Bytes) :
    ((osDBSeachKey env lnode key).1 = 1 ∧ ∃ val, cdb key = some val) ∨
      ((osDBSeachKey env lnode key).1 = 0 ∧ cdb key = none) := by
  rw [osDBSeachKey, h]
  cases hkey : cdb key with
  | none => exact .inr ⟨by simp [hkey], rfl⟩
  | some val => exact .inl ⟨by simp [hkey], val, rfl⟩

theorem osDBSeachKeyAddress_of_open (h : osCDBOpen env lnode = some (cdb, lnode')) (key : Bytes) :
    ((osDBSeachKeyAddress env lnode key).1 = 1 ∧ Contains cdb key) ∨
      ((osDBSeachKeyAddress env lnode key).1 = 0 ∧ ¬Contains cdb key) := by
  rw [osDBSeachKeyAddress, h, contains_iff]
  dsimp only
  split_ifs with hkey hnetwork
  · exact .inl ⟨rfl, .inl hkey⟩
  · exact .inl ⟨rfl, .inr hnetwork⟩
  · exact .inr ⟨rfl, not_or.mpr ⟨hkey, hnetwork⟩⟩

theorem osDBSearchKeyValue_of_open (h : osCDBOpen env lnode = some (cdb, lnode'))
    (lrule : ListRuleNode) (key : Bytes) :
    let P := ∃ val, cdb key = some val ∧ env.osMatchExecute val val.length lrule.matcher
    ((osDBSearchKeyValue env lrule lnode key).1 = 1 ∧ P) ∨
      ((osDBSearchKeyValue env lrule lnode key).1 = 0 ∧ ¬P) := by
  intro P
  rw [osDBSearchKeyValue, h]
  dsimp only
  cases hkey : cdb key with
  | none => exact .inr ⟨rfl, by simp [P, hkey]⟩
  | some val =>
    rcases matchValue_cases env lrule val with ⟨hres, hmatch⟩ | ⟨hres, hmatch⟩
    · exact .inl ⟨hres, val, hkey, hmatch⟩
    · exact .inr ⟨hres, by simpa [P, hkey] using hmatch⟩

theorem osDBSearchKeyAddressValue_of_open (h : osCDBOpen env lnode = some (cdb, lnode'))
    (lrule : ListRuleNode) (key : Bytes) :
    let P := ∃ val, HasValue cdb key val ∧ env.osMatchExecute val val.length lrule.matcher
    ((osDBSearchKeyAddressValue env lrule lnode key).1 = 1 ∧ P) ∨
      ((osDBSearchKeyAddressValue env lrule lnode key).1 = 0 ∧ ¬P) := by
  intro P
  have hP : P ↔ ∃ val, (cdb key).or (networkLoop cdb key.length key) = some val ∧
      env.osMatchExecute val val.length lrule.matcher := by simp only [P, hasValue_iff]
  have hres : (osDBSearchKeyAddressValue env lrule lnode key).1 =
      match (cdb key).or (networkLoop cdb key.length key) with
      | some val => matchValue env lrule val
      | none => 0 := by
    rw [osDBSearchKeyAddressValue, h]
    dsimp only
    cases cdb key with
    | some val => rfl
    | none => cases networkLoop cdb key.length key <;> rfl
  rw [hres, hP]
  cases (cdb key).or (networkLoop cdb key.length key) with
  | none => exact .inr ⟨rfl, by simp⟩
  | some val =>
    rcases matchValue_cases env lrule val with ⟨hres, hmatch⟩ | ⟨hres, hmatch⟩
    · exact .inl ⟨hres, val, rfl, hmatch⟩
    · exact .inr ⟨hres, by simpa using hmatch⟩

/-- In a list that can be opened one kind of lookup answers no for yes and yes for no. -/
theorem lookup_of_open (h : osCDBOpen env lnode = some (cdb, lnode')) (lrule : ListRuleNode)
    (key : Bytes) :
    (lookup env lrule lnode key).1 ≠ 0 ↔
      if lrule.lookup_type = LR_ADDRESS_MATCH_VALUE then ¬Asks env lrule cdb key
      else Asks env lrule cdb key := by
  rw [lookup, Asks]
  by_cases hvalue : lrule.lookup_type = LR_ADDRESS_MATCH_VALUE
  · have hothers : ∀ kind, kind ≠ LR_ADDRESS_MATCH_VALUE → lrule.lookup_type ≠ kind :=
      fun kind hne heq => hne (heq.symm.trans hvalue)
    simp only [if_pos hvalue, if_neg (hothers _ (show LR_STRING_MATCH ≠ _ by decide)),
      if_neg (hothers _ (show LR_STRING_NOT_MATCH ≠ _ by decide)),
      if_neg (hothers _ (show LR_STRING_MATCH_VALUE ≠ _ by decide)),
      if_neg (hothers _ (show LR_ADDRESS_MATCH ≠ _ by decide)),
      if_neg (hothers _ (show LR_ADDRESS_NOT_MATCH ≠ _ by decide))]
    rcases osDBSearchKeyAddressValue_of_open h lrule key with ⟨hres, hP⟩ | ⟨hres, hP⟩
    · simpa [hres] using hP
    · simpa [hres] using hP
  · simp only [if_neg hvalue]
    split_ifs
    · rcases osDBSeachKey_of_open h key with ⟨hres, hkey⟩ | ⟨hres, hkey⟩ <;> simp [hres, hkey]
    · rcases osDBSeachKey_of_open h key with ⟨hres, val, hkey⟩ | ⟨hres, hkey⟩ <;>
        simp [hres, hkey]
    · rcases osDBSearchKeyValue_of_open h lrule key with ⟨hres, hP⟩ | ⟨hres, hP⟩
      · simpa [hres] using hP
      · simpa [hres] using hP
    · rcases osDBSeachKeyAddress_of_open h key with ⟨hres, hP⟩ | ⟨hres, hP⟩ <;> simp [hres, hP]
    · rcases osDBSeachKeyAddress_of_open h key with ⟨hres, hP⟩ | ⟨hres, hP⟩ <;> simp [hres, hP]
    · simp

/-- In a list that cannot be opened the lookups of addresses answer yes. -/
theorem lookup_of_not_open (h : osCDBOpen env lnode = none) (lrule : ListRuleNode)
    (key : Bytes) :
    (Positive lrule → (lookup env lrule lnode key).1 = 0) ↔
      lrule.lookup_type ≠ LR_ADDRESS_MATCH ∧ lrule.lookup_type ≠ LR_ADDRESS_MATCH_VALUE := by
  rw [Positive, lookup, osDBSeachKey, osDBSeachKeyAddress, osDBSearchKeyValue,
    osDBSearchKeyAddressValue, h]
  by_cases h₁ : lrule.lookup_type = LR_STRING_MATCH
  · rw [if_pos h₁, h₁]
    exact iff_of_true (fun _ => rfl) ⟨by decide, by decide⟩
  by_cases h₂ : lrule.lookup_type = LR_STRING_NOT_MATCH
  · rw [h₂]
    exact iff_of_true (fun hpos => absurd rfl hpos.1) ⟨by decide, by decide⟩
  by_cases h₃ : lrule.lookup_type = LR_STRING_MATCH_VALUE
  · rw [if_neg h₁, if_neg h₂, if_pos h₃, h₃]
    exact iff_of_true (fun _ => rfl) ⟨by decide, by decide⟩
  by_cases h₄ : lrule.lookup_type = LR_ADDRESS_MATCH
  · rw [if_neg h₁, if_neg h₂, if_neg h₃, if_pos h₄, h₄]
    exact iff_of_false (fun hno => absurd (hno ⟨by decide, by decide⟩) (by simp)) fun h => h.1 rfl
  by_cases h₅ : lrule.lookup_type = LR_ADDRESS_NOT_MATCH
  · rw [h₅]
    exact iff_of_true (fun hpos => absurd rfl hpos.2) ⟨by decide, by decide⟩
  by_cases h₆ : lrule.lookup_type = LR_ADDRESS_MATCH_VALUE
  · rw [if_neg h₁, if_neg h₂, if_neg h₃, if_neg h₄, if_neg h₅, if_pos h₆, h₆]
    exact iff_of_false (fun hno => absurd (hno ⟨by decide, by decide⟩) (by simp)) fun h => h.2 rfl
  · rw [if_neg h₁, if_neg h₂, if_neg h₃, if_neg h₄, if_neg h₅, if_neg h₆]
    exact iff_of_true (fun _ => rfl) ⟨h₄, h₆⟩

theorem asks_load : Asks env (load listnodes lrule) cdb key ↔ Asks env lrule cdb key := by
  rw [Asks, Asks, load_lookup_type, load_matcher]

/-- A lookup answers as it should exactly when it does not ask for the value of an address, and
does not ask for an address in a list that cannot be opened; any lookup does that has no list. -/
theorem osDBSearch_law (env : Env) (listnodes : List (ListNode Cdb)) (lrule : ListRuleNode)
    (key : Bytes) :
    Answers env listnodes lrule key ↔
      ∀ lnode, listOf listnodes lrule = some lnode →
        lrule.lookup_type ≠ LR_ADDRESS_MATCH_VALUE ∧
        (lrule.lookup_type = LR_ADDRESS_MATCH → osCDBOpen env lnode ≠ none) := by
  rw [Answers]
  cases hlist : listOf listnodes lrule with
  | none =>
    rw [bind_none]
    exact iff_of_true (fun _ => osDBSearch_of_none hlist) fun _ h => absurd h (by simp)
  | some lnode =>
    rw [bind_some, osDBSearch_of_some hlist]
    have hone : ∀ P : ListNode Cdb → Prop, (∀ l, some lnode = some l → P l) ↔ P lnode := by simp
    rw [hone]
    cases hopen : osCDBOpen env lnode with
    | none =>
      have hnot := lookup_of_not_open hopen (load listnodes lrule) key
      rw [load_lookup_type] at hnot
      have hpos : Positive (load listnodes lrule) ↔ Positive lrule := by
        rw [Positive, Positive, load_lookup_type]
      dsimp only
      rw [← hpos, hnot, and_comm]
      refine and_congr_right fun _ => ⟨fun hne heq => absurd heq hne, fun himp heq => ?_⟩
      exact himp heq rfl
    | some opened =>
      obtain ⟨cdb, lnode'⟩ := opened
      have hans := lookup_of_open hopen (load listnodes lrule) key
      rw [load_lookup_type, asks_load] at hans
      dsimp only
      rw [hans]
      by_cases hvalue : lrule.lookup_type = LR_ADDRESS_MATCH_VALUE
      · rw [if_pos hvalue]
        exact iff_of_false (fun h => (not_iff_self (a := Asks env lrule cdb key)).elim h)
          fun h => h.1 hvalue
      · rw [if_neg hvalue]
        exact iff_of_true Iff.rfl ⟨hvalue, fun _ => (some_ne_none _)⟩

/-- A list of addresses and networks. -/
def networks : Cdb := fun key =>
  if key = lit "10." then some (lit "inside") else if key = lit "10.0.0.66" then some (lit "bad")
  else none

/-- The file of the list. -/
def networksEnv (readable : Bool) : Env where
  cdbInit _ := if readable then some networks else none
  osMatchExecute val _ pattern := some val == pattern

def networksNode : ListNode Cdb := { cdb_filename := lit "net.cdb", txt_filename := lit "net" }

/-- A lookup of the source address in the list. -/
def networksRule (lookup_type : ℕ) : ListRuleNode where
  field := RULE_SRCIP
  lookup_type := lookup_type
  matcher := some (lit "bad")
  filename := lit "net"
  loaded := false
  db := none
  next := none

/-- The value of the address is the pattern, and the answer is no; and a list that cannot be opened
has every address. -/
theorem not_answers :
    ¬Answers (networksEnv true) [networksNode] (networksRule LR_ADDRESS_MATCH_VALUE)
        (lit "10.0.0.66") ∧
    ¬Answers (networksEnv false) [networksNode] (networksRule LR_ADDRESS_MATCH)
        (lit "10.0.0.66") := by
  constructor
  · intro h
    have hopen : (listOf [networksNode] (networksRule LR_ADDRESS_MATCH_VALUE)).bind
        (osCDBOpen (networksEnv true)) =
          some (networks, { networksNode with cdb := some networks }) := rfl
    have hasks : Asks (networksEnv true) (networksRule LR_ADDRESS_MATCH_VALUE) networks
        (lit "10.0.0.66") := ⟨lit "bad", Or.inl rfl, rfl⟩
    rw [Answers, hopen] at h
    exact h.mpr hasks rfl
  · intro h
    have hopen : (listOf [networksNode] (networksRule LR_ADDRESS_MATCH)).bind
        (osCDBOpen (networksEnv false)) = none := rfl
    rw [Answers, hopen] at h
    exact absurd (h ⟨by decide, by decide⟩) (by decide)

end ListSearch
