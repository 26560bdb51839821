import OssecHids.Lib.Buckets
import OssecHids.Lib.Pcre2
import OssecHids.Lib.Words

/-!
# The groups of a rule in JSON

`W_JSON_ParseGroups` takes the group string of a rule apart and puts the names into arrays of the
rule object; `add_groupPCI` and `add_groupCIS` take those that name a requirement. The copy of such
a name is a string only by what the stack has behind it.

- `addGroup_eq`: the array of a kind is made for its first name and found for the others;
- `groupsLoop_eq`: the arrays after all names;
- `parseGroups_law`: when the arrays have the names, whatever is on the stack.
-/

open List

open CString Buckets Pcre2

namespace JsonGroups

/-! ## The objects of cJSON -/

inductive Json
  | number (n : ℤ)
  | string (s : Bytes)
  | array (items : List Bytes)
  deriving DecidableEq

abbrev Object := List (Bytes × Json)

/-- `cJSON_AddItemToObject` -/
def addItemToObject (object : Object) (name : Bytes) (item : Json) : Object :=
  object ++ [(name, item)]

/-- The names of `cJSON_GetObjectItem` are the same whatever their case. -/
def sameName (name name' : Bytes) : Bool := name.map tolower == name'.map tolower

/-- `cJSON_GetObjectItem`: the place of the item. -/
def getObjectItem (object : Object) (name : Bytes) : Option ℕ :=
  object.findIdx? fun item => sameName item.1 name

/-- `cJSON_AddItemToArray`, for the array at a place of an object. -/
def addItemToArray (object : Object) (array : Option ℕ) (s : Bytes) : Object :=
  match array with
  | none => object
  | some i => object.modify i fun item =>
    match item with
    | (name, .array items) => (name, .array (items ++ [s]))
    | item => item

/-- What is read of the rule that generated the alert. -/
structure RuleInfo where
  level : ℤ
  comment : Option Bytes
  sigid : ℤ
  cve : Option Bytes
  info : Option Bytes
  frequency : ℤ
  firedtimes : ℤ

def numberItem (name : Bytes) (n : ℤ) : Object := if n = 0 then [] else [(name, .number n)]

def stringItem (name : Bytes) (s : Option Bytes) : Object :=
  s.toList.map fun s => (name, .string s)

/-- The object `rule` when `Eventinfo_to_jsonstr` calls `W_ParseJSON`. -/
def ruleObject (rule : RuleInfo) : Object :=
  numberItem (lit "level") rule.level ++ stringItem (lit "comment") rule.comment ++
    numberItem (lit "sidid") rule.sigid ++ stringItem (lit "cve") rule.cve ++
    stringItem (lit "info") rule.info ++ numberItem (lit "frequency") rule.frequency ++
    numberItem (lit "firedtimes") rule.firedtimes

/-! ## The groups -/

/-- `MAX_STRING` -/
def MAX_STRING : ℕ := 1024

def startsWith (pre s : Bytes) : Bool :=
  if s.length < pre.length then false else strncmpEq pre.length pre s

/-- `str_cut`, in the memory that `mem` starts. -/
def strCut (mem : Bytes) (begin len : ℤ) : Bytes :=
  let l : ℤ := (str mem).length
  let len := if len < 0 then l - begin else len
  let len := if begin + len > l then l - begin else len
  -- `memmove`, terminator included
  mem.take begin.toNat ++
    overwrite ((mem.drop (begin + len).toNat).take (l - begin - len + 1).toNat)
      (mem.drop begin.toNat)

/-- The array `aux` and what is behind it, after all but the last character of `group` is copied.
The `stack` is what was there before, up to a zero byte. -/
def aux (stack group : Bytes) : Bytes :=
  group.take (group.length - 1) ++ (stack.drop (group.length - 1) ++ [0])

/-- `add_groupPCI` and `add_groupCIS`, for names that start with `pre`. -/
def addGroup (pre key : Bytes) (cut : ℤ) (stack : Bytes) (rule : Object) (group : Bytes)
    (first : Bool) : Object × Bool :=
  if startsWith pre group then
    let pointed :=
      if first then (addItemToObject rule key (.array []), some rule.length)
      else (rule, getObjectItem rule key)
    (addItemToArray pointed.1 pointed.2 (str (strCut (aux stack group) 0 cut)), true)
  else (rule, false)

/-- `add_groupPCI` -/
def addGroupPCI (stack : Bytes) (rule : Object) (group : Bytes) (firstPCI : Bool) :
    Object × Bool :=
  addGroup (lit "pci_dss_") (lit "PCI_DSS") 8 stack rule group firstPCI

/-- `add_groupCIS` -/
def addGroupCIS (stack : Bytes) (rule : Object) (group : Bytes) (firstCIS : Bool) :
    Object × Bool :=
  addGroup (lit "cis_") (lit "CIS") 4 stack rule group firstCIS

/-- The loop of `W_JSON_ParseGroups`; `stack i` is on the stack at the token `i`. -/
def groupsLoop (stack : ℕ → Bytes) (groups : ℕ) :
    ℕ → List Bytes → Object → Bool → Bool → Object
  | _, [], rule, _, _ => rule
  | i, token :: tokens, rule, firstPCI, firstCIS =>
    let pci := addGroupPCI (stack i) rule token firstPCI
    let cis := if !pci.2 then addGroupCIS (stack i) pci.1 token firstCIS else (pci.1, false)
    let rule := if !pci.2 && !cis.2 then addItemToArray cis.1 (some groups) token else cis.1
    groupsLoop stack groups (i + 1) tokens rule (firstPCI && !pci.2) (firstCIS && !cis.2)

/-- `strtok_r(buffer, ",", &saveptr)`, called until it returns `NULL` -/
def strtokGroups (buffer : Bytes) : List Bytes := (buffer.splitOn (chr ',')).filter (· ≠ [])

/-- `W_JSON_ParseGroups`, for the object `rule` -/
def parseGroups (stack : ℕ → Bytes) (rule : Object) (group : Bytes) : Object :=
  let rule := addItemToObject rule (lit "group") (.string group)
  let groups := rule.length
  let rule := addItemToObject rule (lit "groups") (.array [])
  let buffer := strncpy (MAX_STRING - 1) group
  groupsLoop stack groups 0 (strtokGroups buffer) rule true true

/-! ## What the arrays are to have -/

/-- A name without what it starts with. -/
def strip (pre name : Bytes) : Option Bytes :=
  if pre <+: name then some (name.drop pre.length) else none

/-- Each name is in the array of its kind, and there is one array of a kind at most. -/
structure Parsed (names : List Bytes) (rule : Object) : Prop where
  groups : named (lit "groups") rule =
    [.array (names.filter fun name => ¬lit "pci_dss_" <+: name ∧ ¬lit "cis_" <+: name)]
  pci : named (lit "PCI_DSS") rule = (single (names.filterMap (strip (lit "pci_dss_")))).map .array
  cis : named (lit "CIS") rule = (single (names.filterMap (strip (lit "cis_")))).map .array

/-- The names of a group string. -/
structure GroupString (names : List Bytes) : Prop where
  name : ∀ name ∈ names, name ≠ [] ∧ chr ',' ∉ name ∧ 0 ∉ name
  length_lt : ([chr ','].intercalate names).length < MAX_STRING

variable {pre key group name text : Bytes} {stack : ℕ → Bytes} {names tokens gs : List Bytes}
  {bs : List (Bytes × List Bytes)} {front : Object} {info : RuleInfo}

/-! ## Pieces of the code -/

theorem startsWith_iff (hpre : 0 ∉ pre) : startsWith pre name = true ↔ pre <+: name := by
  rw [startsWith]
  split
  case isTrue hlt => exact iff_of_false Bool.false_ne_true fun h => absurd h.length_le (by omega)
  case isFalse => exact strncmpEq_iff_isPrefix (ne_zero_of_notMem hpre)

/-- Each text with a zero byte behind it is a string and more. -/
theorem exists_str_append (s : Bytes) : ∃ r, s ++ [0] = str s ++ 0 :: r ∧ 0 ∉ str s := by
  induction s with
  | nil => exact ⟨[], rfl, not_mem_nil⟩
  | cons b s ih =>
    by_cases hb : b = 0
    case pos =>
      obtain rfl := hb
      exact ⟨s ++ [0], rfl, not_mem_nil⟩
    case neg =>
      obtain ⟨r, hr, hzero⟩ := ih
      have hstr : str (b :: s) = b :: str s := takeWhile_cons_of_pos (by simpa using hb)
      refine ⟨r, ?_, ?_⟩
      · rw [hstr, cons_append, cons_append, hr]
      · rw [hstr, mem_cons, not_or]
        exact ⟨Ne.symm hb, hzero⟩

/-- The terminator is moved, too. -/
theorem str_strCut (ht : 0 ∉ text) (r : Bytes) (n : ℕ) :
    str (strCut (text ++ 0 :: r) 0 n) = text.drop n := by
  have hstr : str (text ++ 0 :: r) = text := str_append_zero (ne_zero_of_notMem ht) r
  have hlen : (if (0 : ℤ) + n > text.length then (text.length : ℤ) - 0 else n) =
      (min n text.length : ℕ) := by
    split_ifs
    · omega
    · omega
  have hcount : ((text.length : ℤ) - 0 - (min n text.length : ℕ) + 1).toNat =
      (text.drop n ++ [0]).length := by
    rw [length_append, length_drop, length_singleton]
    omega
  have hdrop : (text ++ 0 :: r).drop (min n text.length) = text.drop n ++ [0] ++ r := by
    rw [drop_append_of_le_length (Nat.min_le_right _ _), append_assoc]
    by_cases h : n ≤ text.length
    · rw [min_eq_left h]
      rfl
    · have hle : text.length ≤ n := by omega
      rw [min_eq_right hle, drop_length, drop_eq_nil_of_le hle]
      rfl
  have hneg : ¬(n : ℤ) < 0 := by omega
  rw [strCut, hstr, if_neg hneg, hlen, hcount, Int.zero_add, Int.toNat_natCast, hdrop, take_left]
  show str (overwrite (text.drop n ++ [0]) (text ++ 0 :: r)) = _
  rw [overwrite, append_assoc]
  exact str_append_zero (fun b hb => ne_zero_of_notMem ht b (mem_of_mem_drop hb)) _

/-- What is put into the array for a name: all but its last character, and what the stack has. -/
def copied (cut : ℕ) (stack group : Bytes) : Bytes :=
  (str (group.take (group.length - 1) ++ stack.drop (group.length - 1))).drop cut

theorem str_strCut_aux (cut : ℕ) (stack group : Bytes) :
    str (strCut (aux stack group) 0 cut) = copied cut stack group := by
  obtain ⟨r, hr, hzero⟩ :=
    exists_str_append (group.take (group.length - 1) ++ stack.drop (group.length - 1))
  rw [aux, ← append_assoc, hr, str_strCut hzero, copied]

/-! ## The arrays -/

/-- The items of some arrays. -/
def items (bs : List (Bytes × List Bytes)) : Object := bs.map fun b => (b.1, .array b.2)

theorem items_append (l r : List (Bytes × List Bytes)) : items (l ++ r) = items l ++ items r :=
  map_append

theorem addItemToArray_append (l : Object) (key : Bytes) (gs : List Bytes) (r : Object)
    (s : Bytes) :
    addItemToArray (l ++ (key, .array gs) :: r) (some l.length) s =
      l ++ (key, .array (gs ++ [s])) :: r := by
  rw [addItemToArray]
  induction l with
  | nil => rfl
  | cons item l ih =>
    rw [cons_append, length_cons, modify_succ_cons, cons_append]
    exact congrArg _ ih

theorem getObjectItem_append {l r : Object} {v : Json}
    (hl : ∀ item ∈ l, sameName item.1 key = false) :
    getObjectItem (l ++ (key, v) :: r) key = some l.length := by
  induction l with
  | nil =>
    have hself : sameName key key = true := beq_self_eq_true _
    rw [getObjectItem, nil_append, findIdx?_cons, if_pos hself]
    rfl
  | cons item l ih =>
    rw [forall_mem_cons] at hl
    have := ih hl.2
    rw [getObjectItem] at this ⊢
    rw [cons_append, findIdx?_cons, hl.1, if_neg Bool.false_ne_true, this]
    rfl

/-- The array of a kind is made for its first name, and found for the others. -/
theorem addGroup_eq (hpre : 0 ∉ pre) (hname : pre <+: name)
    (hfront : ∀ item ∈ front, sameName item.1 key = false)
    (hbs : ∀ k ∈ bs.map Prod.fst, k = key ∨ sameName k key = false) (cut : ℕ) (stack : Bytes) :
    addGroup pre key cut stack (front ++ items bs) name (decide (key ∉ bs.map Prod.fst)) =
      (front ++ items (put key (copied cut stack name) bs), true) := by
  rw [addGroup, if_pos ((startsWith_iff hpre).mpr hname), str_strCut_aux]
  by_cases hkey : key ∈ bs.map Prod.fst
  case neg =>
    rw [if_pos (decide_eq_true hkey), put_of_notMem hkey, items_append, ← append_assoc]
    dsimp only [addItemToObject]
    rw [addItemToArray_append]
    rfl
  case pos =>
    obtain ⟨l, as, r, rfl, hl, hput⟩ := put_of_mem hkey
    have hother : ∀ item ∈ front ++ items l, sameName item.1 key = false := by
      intro item hitem
      rcases mem_append.mp hitem with hitem | hitem
      · exact hfront item hitem
      · obtain ⟨b, hb, rfl⟩ := mem_map.mp hitem
        have hmem : b.1 ∈ l.map Prod.fst := mem_map_of_mem hb
        refine (hbs b.1 (by simp [hmem])).resolve_left ?_
        rintro rfl
        exact hl hmem
    have hsplit : ∀ as, front ++ items (l ++ (key, as) :: r) =
        (front ++ items l) ++ (key, .array as) :: items r := fun as => by
      rw [items_append, append_assoc]
      rfl
    rw [if_neg (by simp), hput, hsplit, hsplit, getObjectItem_append hother]
    exact Prod.ext (addItemToArray_append _ _ _ _ _) rfl

theorem addGroup_of_not (hpre : 0 ∉ pre) (hname : ¬pre <+: name) (key : Bytes) (cut : ℤ)
    (stack : Bytes) (rule : Object) (first : Bool) :
    addGroup pre key cut stack rule name first = (rule, false) :=
  if_neg fun h => hname ((startsWith_iff hpre).mp h)

/-! ## The loop -/

/-- What is put into the array of a kind, for the names from the token `i` on. -/
def entries (stack : ℕ → Bytes) : ℕ → List Bytes → List (Bytes × Bytes)
  | _, [] => []
  | i, name :: names =>
    (if lit "pci_dss_" <+: name then [(lit "PCI_DSS", copied 8 (stack i) name)]
    else if lit "cis_" <+: name then [(lit "CIS", copied 4 (stack i) name)]
    else []) ++ entries stack (i + 1) names

/-- The names of no kind. -/
def plain (names : List Bytes) : List Bytes :=
  names.filter fun name => ¬lit "pci_dss_" <+: name ∧ ¬lit "cis_" <+: name

/-- There are no other arrays. -/
def Kinds (bs : List (Bytes × List Bytes)) : Prop :=
  ∀ k ∈ bs.map Prod.fst, k = lit "PCI_DSS" ∨ k = lit "CIS"

theorem Kinds.put (h : Kinds bs) (hkey : key = lit "PCI_DSS" ∨ key = lit "CIS") (text : Bytes) :
    Kinds (put key text bs) := by
  intro k hk
  rcases mem_keys_put.mp hk with hk | rfl
  · exact h k hk
  · exact hkey

/-- The items in front of the arrays are none of them. -/
def Apart (front : Object) : Prop :=
  ∀ item ∈ front, sameName item.1 (lit "PCI_DSS") = false ∧ sameName item.1 (lit "CIS") = false

theorem apart_groups (h : Apart front) (gs : List Bytes) :
    Apart (front ++ [(lit "groups", .array gs)]) := by
  intro item hitem
  rcases mem_append.mp hitem with hitem | hitem
  · exact h item hitem
  · have hgroups : sameName (lit "groups") (lit "PCI_DSS") = false ∧
        sameName (lit "groups") (lit "CIS") = false := by decide
    rw [mem_singleton.mp hitem]
    exact hgroups

theorem groupsLoop_eq (hfront : Apart front) (hbs : Kinds bs) (stack : ℕ → Bytes) (i : ℕ)
    (names gs : List Bytes) :
    groupsLoop stack front.length i names (front ++ (lit "groups", .array gs) :: items bs)
        (decide (lit "PCI_DSS" ∉ bs.map Prod.fst)) (decide (lit "CIS" ∉ bs.map Prod.fst)) =
      front ++ (lit "groups", .array (gs ++ plain names)) ::
        items (fill bs (entries stack i names)) := by
  induction names generalizing i gs bs with
  | nil => rw [plain, filter_nil, append_nil]; rfl
  | cons name names ih =>
    have hsplit : ∀ bs, front ++ (lit "groups", .array gs) :: items bs =
        (front ++ [(lit "groups", .array gs)]) ++ items bs := fun bs => by simp
    have hapart := apart_groups hfront gs
    have hpcis : ∀ k ∈ bs.map Prod.fst, k = lit "PCI_DSS" ∨ sameName k (lit "PCI_DSS") = false :=
      fun k hk => (hbs k hk).imp_right fun h => by
        rw [h]
        decide
    have hciss : ∀ k ∈ bs.map Prod.fst, k = lit "CIS" ∨ sameName k (lit "CIS") = false :=
      fun k hk => (hbs k hk).symm.imp_right fun h => by
        rw [h]
        decide
    have hne : lit "PCI_DSS" ≠ lit "CIS" := by decide
    rw [groupsLoop, hsplit, addGroupPCI, entries, plain]
    by_cases hpci : lit "pci_dss_" <+: name
    case pos =>
      have hadd := addGroup_eq (by decide) hpci (fun item h => (hapart item h).1) hpcis 8 (stack i)
      have hfirst : decide (lit "PCI_DSS" ∉
          (put (lit "PCI_DSS") (copied 8 (stack i) name) bs).map Prod.fst) = false := by
        simp [mem_keys_put]
      have hother : decide (lit "CIS" ∉
          (put (lit "PCI_DSS") (copied 8 (stack i) name) bs).map Prod.fst) =
            decide (lit "CIS" ∉ bs.map Prod.fst) := by
        simp [mem_keys_put, hne.symm]
      have hrest := ih (hbs.put (.inl rfl) (copied 8 (stack i) name)) (i + 1) gs
      rw [hfirst, hother] at hrest
      rw [show (8 : ℤ) = (8 : ℕ) from rfl, hadd, if_pos hpci, singleton_append, fill_cons,
        filter_cons_of_neg (by simp [hpci]), ← plain, ← hrest, ← hsplit]
      dsimp only [Bool.not_true, Bool.not_false, Bool.and_true, Bool.false_and]
      simp
    case neg =>
      rw [addGroup_of_not (by decide) hpci, if_neg hpci]
      simp only [Bool.not_false, if_true, Bool.true_and, Bool.and_true]
      rw [addGroupCIS]
      by_cases hcis : lit "cis_" <+: name
      case pos =>
        have hadd := addGroup_eq (by decide) hcis (fun item h => (hapart item h).2) hciss 4
          (stack i)
        have hfirst : decide (lit "CIS" ∉
            (put (lit "CIS") (copied 4 (stack i) name) bs).map Prod.fst) = false := by
          simp [mem_keys_put]
        have hother : decide (lit "PCI_DSS" ∉
            (put (lit "CIS") (copied 4 (stack i) name) bs).map Prod.fst) =
              decide (lit "PCI_DSS" ∉ bs.map Prod.fst) := by
          simp [mem_keys_put, hne]
        have hrest := ih (hbs.put (.inr rfl) (copied 4 (stack i) name)) (i + 1) gs
        rw [hfirst, hother] at hrest
        rw [show (4 : ℤ) = (4 : ℕ) from rfl, hadd, if_pos hcis, singleton_append, fill_cons,
          filter_cons_of_neg (by simp [hcis]), ← plain, ← hrest, ← hsplit]
        simp
      case neg =>
        -- a name of no kind goes to the array that was made first
        rw [addGroup_of_not (by decide) hcis, if_neg hcis, ← hsplit]
        simp only [Bool.not_false, if_true, Bool.and_true]
        rw [addItemToArray_append, ih hbs, nil_append, filter_cons_of_pos (by simp [hpci, hcis]),
          ← plain, append_assoc, singleton_append]

/-- The names of the items in front of the arrays. -/
def ruleKeys : List Bytes :=
  [lit "level", lit "comment", lit "sidid", lit "cve", lit "info", lit "frequency",
    lit "firedtimes", lit "group"]

theorem fst_mem_ruleKeys (info : RuleInfo) (group : Bytes) :
    ∀ item ∈ ruleObject info ++ [(lit "group", .string group)], item.1 ∈ ruleKeys := by
  have hnumber : ∀ name n, ∀ item ∈ numberItem name n, item.1 = name := fun name n item h => by
    rw [numberItem] at h
    split at h
    · cases h
    · rw [mem_singleton.mp h]
  have hstring : ∀ name s, ∀ item ∈ stringItem name s, item.1 = name := fun name s item h => by
    obtain ⟨t, -, rfl⟩ := mem_map.mp h
    rfl
  intro item hitem
  simp only [ruleObject, mem_append, mem_singleton] at hitem
  rcases hitem with (((((((h | h) | h) | h) | h) | h) | h) | rfl)
  · simp [ruleKeys, hnumber _ _ item h]
  · simp [ruleKeys, hstring _ _ item h]
  · simp [ruleKeys, hnumber _ _ item h]
  · simp [ruleKeys, hstring _ _ item h]
  · simp [ruleKeys, hstring _ _ item h]
  · simp [ruleKeys, hnumber _ _ item h]
  · simp [ruleKeys, hnumber _ _ item h]
  · simp [ruleKeys]

theorem apart_ruleObject (info : RuleInfo) (group : Bytes) :
    Apart (ruleObject info ++ [(lit "group", .string group)]) := by
  have hkeys : ∀ key ∈ ruleKeys,
      sameName key (lit "PCI_DSS") = false ∧ sameName key (lit "CIS") = false := by decide
  exact fun item hitem => hkeys _ (fst_mem_ruleKeys info group item hitem)

theorem named_ruleObject (hkey : key ∉ ruleKeys) (info : RuleInfo) (group : Bytes) :
    named key (ruleObject info ++ [(lit "group", .string group)]) = [] := by
  rw [named_eq_nil_iff, mem_map]
  rintro ⟨item, hitem, rfl⟩
  exact hkey (fst_mem_ruleKeys info group item hitem)

/-- The tokens are the names. -/
theorem GroupString.strtok_eq (h : GroupString names) :
    strtokGroups (strncpy (MAX_STRING - 1) ([chr ','].intercalate names)) = names := by
  have hzero : ∀ b ∈ [chr ','].intercalate names, b ≠ 0 :=
    Words.forall_mem_intercalate (by decide)
      fun name hname => ne_zero_of_notMem (h.name name hname).2.2
  have hcopy : strncpy (MAX_STRING - 1) ([chr ','].intercalate names) =
      [chr ','].intercalate names := by
    have hlen := h.length_lt
    rw [strncpy, take_of_length_le (by omega), str, takeWhile_eq_self_iff]
    exact fun b hb => bne_iff_ne.mpr (hzero b hb)
  rw [hcopy, strtokGroups]
  by_cases hne : names = []
  case pos =>
    rw [hne]
    rfl
  case neg =>
    rw [splitOn_intercalate _ (fun name hname => (h.name name hname).2.1) hne, filter_eq_self]
    exact fun name hname => decide_eq_true (h.name name hname).1

theorem parseGroups_eq (h : GroupString names) (info : RuleInfo) (stack : ℕ → Bytes) :
    parseGroups stack (ruleObject info) ([chr ','].intercalate names) =
      (ruleObject info ++ [(lit "group", .string ([chr ','].intercalate names))]) ++
        (lit "groups", .array (plain names)) :: items (fill [] (entries stack 0 names)) := by
  rw [parseGroups, h.strtok_eq]
  have hnone : Kinds [] := fun k hk => absurd hk not_mem_nil
  exact groupsLoop_eq (apart_ruleObject info _) hnone stack 0 names []

/-! ## What the arrays have -/

theorem named_items (key : Bytes) (bs : List (Bytes × List Bytes)) :
    named key (items bs) = (named key bs).map .array :=
  named_map Json.array key bs

theorem filterMap_strip (pre : Bytes) (names : List Bytes) :
    names.filterMap (strip pre) = (names.filter (pre <+: ·)).map (List.drop pre.length) := by
  induction names with
  | nil => rfl
  | cons name names ih =>
    by_cases h : pre <+: name
    · have hsome : strip pre name = some (name.drop pre.length) := if_pos h
      rw [filterMap_cons_some hsome, filter_cons_of_pos (by simpa using h), map_cons, ih]
    · have hnone : strip pre name = none := if_neg h
      rw [filterMap_cons_none hnone, filter_cons_of_neg (by simpa using h), ih]

theorem not_pci_of_cis (h : lit "cis_" <+: name) : ¬lit "pci_dss_" <+: name := by
  rintro ⟨r, rfl⟩
  obtain ⟨r', h⟩ := h
  exact absurd (List.cons.inj h).1 (by decide)

theorem valuesOf_entries_pci (s : Bytes) (i : ℕ) (names : List Bytes) :
    valuesOf (lit "PCI_DSS") (entries (fun _ => s) i names) =
      (names.filter (lit "pci_dss_" <+: ·)).map (copied 8 s) := by
  have hne : lit "CIS" ≠ lit "PCI_DSS" := by decide
  induction names generalizing i with
  | nil => rfl
  | cons name names ih =>
    rw [entries, valuesOf, named_append, ← valuesOf, ← valuesOf, ih]
    by_cases hpci : lit "pci_dss_" <+: name
    · rw [if_pos hpci, filter_cons_of_pos (by simpa using hpci), valuesOf, named_cons_self]
      rfl
    · rw [if_neg hpci, filter_cons_of_neg (by simpa using hpci)]
      split
      · rw [valuesOf, named_cons_of_ne hne]
        rfl
      · rfl

theorem valuesOf_entries_cis (s : Bytes) (i : ℕ) (names : List Bytes) :
    valuesOf (lit "CIS") (entries (fun _ => s) i names) =
      (names.filter (lit "cis_" <+: ·)).map (copied 4 s) := by
  have hne : lit "PCI_DSS" ≠ lit "CIS" := by decide
  induction names generalizing i with
  | nil => rfl
  | cons name names ih =>
    rw [entries, valuesOf, named_append, ← valuesOf, ← valuesOf, ih]
    by_cases hcis : lit "cis_" <+: name
    · rw [if_neg (not_pci_of_cis hcis), if_pos hcis,
        filter_cons_of_pos (by simpa using hcis), valuesOf, named_cons_self]
      rfl
    · rw [if_neg hcis, filter_cons_of_neg (by simpa using hcis)]
      split
      · rw [valuesOf, named_cons_of_ne hne]
        rfl
      · rfl

/-- With letters up to the end of the buffer on the stack, no copy is as long as its name. -/
theorem copied_ne (cut : ℕ) (hcut : cut ≤ name.length) (hzero : 0 ∉ name)
    (hlen : name.length < MAX_STRING) :
    copied cut (List.replicate MAX_STRING (chr 'x')) name ≠ name.drop cut := by
  intro h
  have hstr : str (name.take (name.length - 1) ++
      (List.replicate MAX_STRING (chr 'x')).drop (name.length - 1)) =
      name.take (name.length - 1) ++
        (List.replicate MAX_STRING (chr 'x')).drop (name.length - 1) := by
    rw [str, takeWhile_eq_self_iff]
    intro b hb
    rcases mem_append.mp hb with hb | hb
    · exact bne_iff_ne.mpr (ne_zero_of_notMem hzero b (mem_of_mem_take hb))
    · rw [eq_of_mem_replicate (mem_of_mem_drop hb)]
      decide
  have hlength := congrArg List.length h
  rw [copied, hstr, length_drop, length_append, length_take, length_drop,
    length_replicate, length_drop] at hlength
  omega

theorem length_le_intercalate (h : name ∈ names) :
    name.length ≤ ([chr ','].intercalate names).length := by
  induction names with
  | nil => cases h
  | cons first names ih =>
    cases names with
    | nil =>
      obtain rfl := mem_singleton.mp h
      simp
    | cons next names =>
      rw [intercalate_cons_cons, length_append, length_append]
      rcases mem_cons.mp h with rfl | h
      · omega
      · have := ih h
        omega

theorem single_inj {α : Type*} {as as' : List α} (h : single as = single as') : as = as' := by
  rw [single, single] at h
  split_ifs at h with has has'
  · rw [has, has']
  · exact (List.cons.inj h).1

/-- **When the arrays have the names**, whatever is on the stack: when there are names of no kind
only. -/
theorem parseGroups_law (h : GroupString names) (info : RuleInfo) :
    (∀ stack, Parsed names
        (parseGroups stack (ruleObject info) ([chr ','].intercalate names))) ↔
      ∀ name ∈ names, ¬lit "pci_dss_" <+: name ∧ ¬lit "cis_" <+: name := by
  have hnamed : ∀ stack key, key ≠ lit "groups" → key ∉ ruleKeys →
      named key (parseGroups stack (ruleObject info) ([chr ','].intercalate names)) =
        (single (valuesOf key (entries stack 0 names))).map .array := by
    intro stack key hgroups hkey
    rw [parseGroups_eq h, named_append, named_ruleObject hkey, nil_append,
      named_cons_of_ne hgroups.symm, named_items, named_filed]
  have harray : Function.Injective (List.map Json.array) :=
    map_injective_iff.mpr fun s t h => Json.array.inj h
  constructor
  · intro hparsed name hname
    have hzero := (h.name name hname).2.2
    have hlen := lt_of_le_of_lt (length_le_intercalate hname) h.length_lt
    have hstack := hparsed fun _ => List.replicate MAX_STRING (chr 'x')
    constructor
    · intro hpci
      have heq := hstack.pci
      rw [hnamed _ _ (by decide) (by decide), valuesOf_entries_pci, filterMap_strip] at heq
      have hmap := map_inj_left.mp (single_inj (harray heq)) name
        (mem_filter.mpr ⟨hname, decide_eq_true hpci⟩)
      exact copied_ne 8 hpci.length_le hzero hlen hmap
    · intro hcis
      have heq := hstack.cis
      rw [hnamed _ _ (by decide) (by decide), valuesOf_entries_cis, filterMap_strip] at heq
      have hmap := map_inj_left.mp (single_inj (harray heq)) name
        (mem_filter.mpr ⟨hname, decide_eq_true hcis⟩)
      exact copied_ne 4 hcis.length_le hzero hlen hmap
  · intro hplain stack
    have hentries : ∀ i, entries stack i names = [] := by
      clear h hnamed
      induction names with
      | nil => exact fun i => rfl
      | cons name names ih =>
        rw [forall_mem_cons] at hplain
        intro i
        rw [entries, if_neg hplain.1.1, if_neg hplain.1.2, ih hplain.2]
        rfl
    have hstrip : ∀ pre, (∀ name ∈ names, ¬pre <+: name) → names.filterMap (strip pre) = [] :=
      fun pre hpre => filterMap_eq_nil_iff.mpr fun name hname => if_neg (hpre name hname)
    constructor
    · rw [parseGroups_eq h, named_append, named_ruleObject (by decide), named_cons_self,
        named_items, hentries]
      rfl
    · rw [hnamed _ _ (by decide) (by decide), hentries, hstrip _ fun name hn => (hplain name hn).1]
      rfl
    · rw [hnamed _ _ (by decide) (by decide), hentries, hstrip _ fun name hn => (hplain name hn).2]
      rfl

theorem parseGroups_law_sshd :
    (∀ stack, Parsed [lit "syslog", lit "sshd"]
        (parseGroups stack (ruleObject ⟨5, none, 5710, none, none, 0, 1⟩)
          ([chr ','].intercalate [lit "syslog", lit "sshd"]))) ↔
      ∀ name ∈ [lit "syslog", lit "sshd"], ¬lit "pci_dss_" <+: name ∧ ¬lit "cis_" <+: name :=
  parseGroups_law ⟨by decide, by decide⟩ _

/-- The last digit of a requirement is lost when there is a zero byte on the stack. -/
theorem not_parsed :
    GroupString [lit "pci_dss_10.2.4"] ∧
      ¬Parsed [lit "pci_dss_10.2.4"] (parseGroups (fun _ => [])
        (ruleObject ⟨5, none, 5710, none, none, 0, 1⟩)
        ([chr ','].intercalate [lit "pci_dss_10.2.4"])) := by
  refine ⟨⟨by decide, by decide⟩, fun h => ?_⟩
  exact absurd h.pci (by decide)

end JsonGroups
