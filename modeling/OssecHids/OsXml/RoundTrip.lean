import OssecHids.Lib.SiblingTree
import OssecHids.OsXml.NodeAccess

/-!
# Reading printed elements

A tree of elements is printed as XML, read, and taken out of the arrays again.

- `accepts_print`: what the scanner enters into the arrays for a printed tree;
- `readsBack_items`: what is taken out of the arrays;
- `readXml_print`: what is printed is read.
-/

open CString List

namespace OsXml

/-! ## Printing -/

/-- An element without its children. -/
structure Element where
  name : Bytes
  attributes : List (Bytes × Bytes)
  content : Bytes
  deriving DecidableEq, Repr

/-- Elements side by side, with their children. -/
abbrev Elements := SiblingTree Element

def printAttribute (a : Bytes × Bytes) : Bytes := a.1 ++ lit "=\"" ++ a.2 ++ lit "\""

def printAttributes (attributes : List (Bytes × Bytes)) : Bytes :=
  attributes.flatMap fun a => chr ' ' :: printAttribute a

/-- Whether an element is printed as `<n/>`. -/
def Empty (e : Element) (child : Elements) : Prop := e.content = [] ∧ child = .nil

instance (e : Element) (child : Elements) : Decidable (Empty e child) :=
  inferInstanceAs (Decidable (_ ∧ _))

/-- An element, with its children printed already. -/
def printElement (e : Element) (child : Elements) (children : Bytes) : Bytes :=
  chr '<' :: (e.name ++ (printAttributes e.attributes ++
    if Empty e child then lit "/>"
    else chr '>' :: (e.content ++ (children ++ (lit "</" ++ (e.name ++ lit ">"))))))

def print : Elements → Bytes
  | .nil => []
  | .node e child next => printElement e child (print child) ++ print next

/-! ## What can be printed -/

/-- The bytes that the reader does not treat specially in an element name. -/
def NameByte (b : UInt8) : Prop := b ∉ lit "<>/\\" ∧ isSpace b = false ∧ b ≠ 0

/-- The bytes that the reader does not treat specially in the name of an attribute. -/
def AttrByte (b : UInt8) : Prop := b ∉ lit ">/=" ∧ isSpace b = false ∧ b ≠ 0

instance : DecidablePred NameByte := fun _ => inferInstanceAs (Decidable (_ ∧ _))

instance : DecidablePred AttrByte := fun _ => inferInstanceAs (Decidable (_ ∧ _))

/-- An element is free of the bytes that the reader treats specially, and fits into its buffers. -/
structure Element.Plain (e : Element) (child : Elements) : Prop where
  name_ne_nil : e.name ≠ []
  name : ∀ b ∈ e.name, NameByte b
  name_head : e.name.head? ≠ some (chr '!') ∧ e.name.head? ≠ some (chr '?')
  name_length : e.name.length < XML_MAXSIZE
  name_length_slash : Empty e child → e.attributes = [] → e.name.length + 1 < XML_MAXSIZE
  attr : ∀ a ∈ e.attributes, ∀ b ∈ a.1, AttrByte b
  attr_length : ∀ a ∈ e.attributes, a.1.length < XML_MAXSIZE
  value : ∀ a ∈ e.attributes, ∀ b ∈ a.2, b ∉ lit "\">" ∧ b ≠ 0
  value_length : ∀ a ∈ e.attributes, a.2.length < XML_MAXSIZE
  content : ∀ b ∈ e.content, b ∉ lit "<\\" ∧ b ≠ 0
  content_length : e.content.length < XML_MAXSIZE

/-- A tree is plain, and an element has either children or content. -/
def Plain : ℕ → Elements → Prop
  | _, .nil => True
  | depth, .node e child next =>
    e.Plain child ∧ (e.content = [] ∨ child = .nil) ∧ depth < 1024 ∧ Plain (depth + 1) child ∧
      Plain depth next

/-- No element and no attribute is a variable, and an element has an attribute once. -/
structure Element.Regular (e : Element) : Prop where
  name : strcasecmpEq (lit "var") e.name = false
  attr : ∀ a ∈ e.attributes, strcasecmpEq (lit "var") a.1 = false
  nodup : (e.attributes.map Prod.fst).Nodup

def Regular : Elements → Prop
  | .nil => True
  | .node e child next => e.Regular ∧ Regular child ∧ Regular next

/-! ## What is entered -/

/-- An element that is printed with attributes and as empty leaves its `>` to be read. -/
def leftover (e : Element) (child : Elements) : Bytes :=
  if Empty e child ∧ e.attributes ≠ [] then lit ">" else []

/-- What is left behind the last of some elements. -/
def trailing : Elements → Bytes
  | .nil => []
  | .node e child .nil => leftover e child
  | .node _ _ next => trailing next

def elementItem (depth : ℕ) (e : Element) (content : Bytes) : Item := {
  el := e.name
  ct := some content
  tp := .XML_ELEM
  rl := depth
  ck := true }

def attributeItem (depth : ℕ) (a : Bytes × Bytes) : Item := {
  el := a.1
  ct := some a.2
  tp := .XML_ATTR
  rl := depth
  ck := true }

/-- An element is followed by its attributes, and these by its children. -/
def items (depth : ℕ) : Elements → OSXml
  | .nil => []
  | .node e child next =>
    elementItem depth e (e.content ++ trailing child) ::
      (e.attributes.map (attributeItem depth) ++ items (depth + 1) child) ++ items depth next

/-! ## Rounds -/

/-- A level in a name. -/
def inElem (elem : Bytes) : ReadState := { ReadState.init with location := .elem, elem := elem }

/-- A level in the content of an element. -/
def inCont (elem cont : Bytes) (i : ℕ) : ReadState :=
  { ReadState.init with location := .cont, elem := elem, cont := cont, currentlycont := i }

/-- A level in a closing name. -/
def inClosedelim (elem cont closedelim : Bytes) (i : ℕ) : ReadState := {
  location := .closedelim
  elem := elem
  cont := cont
  closedelim := closedelim
  prevv := false
  currentlycont := i }

variable {d i : ℕ} {st st' : ReadState} {c : UInt8} {s fp rest elem cont : Bytes}
  {lxml lxml' out : OSXml} {r : Retval}

theorem NameByte.ne {b c : UInt8} (hb : NameByte b) (hc : c ∈ lit "<>/\\") : b ≠ c :=
  fun heq => hb.1 (heq ▸ hc)

theorem reads_open (hfp : fp.head? ≠ some (chr '!') ∧ fp.head? ≠ some (chr '/'))
    (h : readElem.Accepts d (inElem []) fp lxml r rest out) :
    readElem.Accepts d ReadState.init (chr '<' :: fp) lxml r rest out := by
  refine .next ?_ h
  change readRound d ReadState.init (chr '<') fp lxml = _
  rw [readRound_lt rfl (by decide) hfp.1, readChecked_open rfl rfl hfp.2]
  rfl

theorem reads_outside (hc : c ≠ chr '<' ∧ c ≠ chr '\\')
    (h : readElem.Accepts d ReadState.init fp lxml r rest out) :
    readElem.Accepts d ReadState.init (c :: fp) lxml r rest out := by
  refine .next ?_ h
  change readRound d ReadState.init c fp lxml = _
  rw [readRound_of_ne rfl (by decide) hc.2 hc.1, readChecked_outside rfl rfl hc.1]

/-- The bytes of a name. -/
theorem reads_name (hs : ∀ b ∈ s, NameByte b) (hlen : elem.length + s.length < XML_MAXSIZE)
    (h : readElem.Accepts d (inElem (elem ++ s)) fp lxml r rest out) :
    readElem.Accepts d (inElem elem) (s ++ fp) lxml r rest out := by
  induction s generalizing elem with
  | nil => rwa [append_nil] at h
  | cons b s ih =>
    obtain ⟨hb, hs⟩ := forall_mem_cons.mp hs
    have hcount : (inElem elem).count < XML_MAXSIZE := lt_of_le_of_lt (Nat.le_add_right _ _) hlen
    rw [length_cons] at hlen
    have hrest : readElem.Accepts d (inElem (elem ++ [b])) (s ++ fp) lxml r rest out := by
      refine ih hs ?_ ?_
      · rw [length_append, length_singleton]
        omega
      · rwa [append_assoc, singleton_append]
    refine .next ?_ hrest
    change readRound d (inElem elem) b (s ++ fp) lxml = _
    rw [readRound_of_ne rfl hcount (hb.ne (by decide)) (hb.ne (by decide)),
      readChecked_elem rfl (hb.ne (by decide)) hb.2.1]
    rfl

/-- The bytes of a text; they are behind the bytes that are stored already. -/
theorem reads_cont (hs : ∀ b ∈ s, b ∉ lit "<\\") (hlen : cont.length + s.length < XML_MAXSIZE)
    (h : readElem.Accepts d (inCont elem (cont ++ s) i) fp lxml r rest out) :
    readElem.Accepts d (inCont elem cont i) (s ++ fp) lxml r rest out := by
  induction s generalizing cont with
  | nil => rwa [append_nil] at h
  | cons b s ih =>
    obtain ⟨hb, hs⟩ := forall_mem_cons.mp hs
    have hne : ∀ c ∈ lit "<\\", b ≠ c := fun c hc heq => hb (heq ▸ hc)
    have hcount : (inCont elem cont i).count < XML_MAXSIZE :=
      lt_of_le_of_lt (Nat.le_add_right _ _) hlen
    rw [length_cons] at hlen
    have hrest : readElem.Accepts d (inCont elem (cont ++ [b]) i) (s ++ fp) lxml r rest out := by
      refine ih hs ?_ ?_
      · rw [length_append, length_singleton]
        omega
      · rwa [append_assoc, singleton_append]
    refine .next ?_ hrest
    change readRound d (inCont elem cont i) b (s ++ fp) lxml = _
    rw [readRound_of_ne rfl hcount (hne _ (by decide)) (hne _ (by decide)),
      readChecked_cont rfl (hne _ (by decide))]
    rfl

theorem reads_close (hlen : cont.length < XML_MAXSIZE)
    (h : readElem.Accepts d (inClosedelim elem cont [] i) fp lxml r rest out) :
    readElem.Accepts d (inCont elem cont i) (lit "</" ++ fp) lxml r rest out := by
  have hcount : (inCont elem cont i).count < XML_MAXSIZE := hlen
  refine .next ?_ h
  change readRound d (inCont elem cont i) (chr '<') (chr '/' :: fp) lxml = _
  have hne : (chr '/' :: fp).head? ≠ some (chr '!') := by
    rw [head?_cons]
    decide
  rw [readRound_lt rfl hcount hne, readChecked_close rfl rfl rfl]
  rfl

/-- The bytes of a closing name. -/
theorem reads_closedelim {closedelim : Bytes} (hs : ∀ b ∈ s, NameByte b)
    (hlen : closedelim.length + s.length < XML_MAXSIZE)
    (h : readElem.Accepts d (inClosedelim elem cont (closedelim ++ s) i) fp lxml r rest out) :
    readElem.Accepts d (inClosedelim elem cont closedelim i) (s ++ fp) lxml r rest out := by
  induction s generalizing closedelim with
  | nil => rwa [append_nil] at h
  | cons b s ih =>
    obtain ⟨hb, hs⟩ := forall_mem_cons.mp hs
    have hcount : (inClosedelim elem cont closedelim i).count < XML_MAXSIZE :=
      lt_of_le_of_lt (Nat.le_add_right _ _) hlen
    rw [length_cons] at hlen
    have hrest : readElem.Accepts d (inClosedelim elem cont (closedelim ++ [b]) i) (s ++ fp) lxml
        r rest out := by
      refine ih hs ?_ ?_
      · rw [length_append, length_singleton]
        omega
      · rwa [append_assoc, singleton_append]
    refine .next ?_ hrest
    change readRound d (inClosedelim elem cont closedelim i) b (s ++ fp) lxml = _
    rw [readRound_of_ne rfl hcount (hb.ne (by decide)) (hb.ne (by decide)),
      readChecked_closedelim rfl (hb.ne (by decide))]
    rfl

/-- What follows the end of an element: a level below the top one ends. -/
def Resumes (d : ℕ) (fp : Bytes) (lxml : OSXml) (r : Retval) (rest : Bytes) (out : OSXml) : Prop :=
  if d > 0 then r = .closed ∧ rest = fp ∧ out = lxml
  else readElem.Accepts d ReadState.init fp lxml r rest out

theorem reads_closed {fp' : Bytes} (hprevv : st'.prevv = false)
    (hround : readRound d st c fp lxml = closed d st' fp' lxml')
    (h : Resumes d fp' lxml' r rest out) : readElem.Accepts d st (c :: fp) lxml r rest out := by
  rw [closed, hprevv] at hround
  rw [Resumes] at h
  split_ifs at hround h
  · obtain ⟨rfl, rfl, rfl⟩ := h
    exact .close hround
  · exact .next hround h

theorem reads_closedelim_end (hlen : elem.length < XML_MAXSIZE)
    (h : Resumes d fp (closeItem cont i lxml) r rest out) :
    readElem.Accepts d (inClosedelim elem cont elem i) (chr '>' :: fp) lxml r rest out := by
  have hcount : (inClosedelim elem cont elem i).count < XML_MAXSIZE := hlen
  have hsame : ¬str (inClosedelim elem cont elem i).closedelim ≠
      str (inClosedelim elem cont elem i).elem := not_not_intro rfl
  have hround : readRound d (inClosedelim elem cont elem i) (chr '>') fp lxml =
      closed d (inClosedelim elem cont elem i) fp (closeItem cont i lxml) := by
    rw [readRound_of_ne rfl hcount (by decide) (by decide), readChecked_closedelim_end rfl,
      closeElem, if_neg hsame]
    rfl
  exact reads_closed rfl hround h

/-! ## Attributes -/

/-- A level in the name of an attribute. -/
def inAttr (attr : Bytes) : AttrState := { AttrState.init with attr := attr }

/-- A level in a value. -/
def inValue (attr value : Bytes) : AttrState := {
  inValue := true
  attr := attr
  value := value
  cToMatch := chr '"' }

variable {attr value : Bytes} {a : Bytes × Bytes} {attributes done : List (Bytes × Bytes)}
  {fuel : ℕ}

theorem attributesLoop_name (hs : ∀ b ∈ s, AttrByte b)
    (hlen : attr.length + s.length < XML_MAXSIZE) :
    attributesLoop d (fuel + s.length) (inAttr attr) (s ++ fp) lxml =
      attributesLoop d fuel (inAttr (attr ++ s)) fp lxml := by
  induction s generalizing attr with
  | nil => rw [append_nil, length_nil, add_zero, nil_append]
  | cons b s ih =>
    obtain ⟨⟨hb, hspace, -⟩, hs⟩ := forall_mem_cons.mp hs
    have hne : ∀ c ∈ lit ">/=", b ≠ c := fun c hc heq => hb (heq ▸ hc)
    have hgt : b ≠ chr '>' := hne _ (by decide)
    have hslash : b ≠ chr '/' := hne _ (by decide)
    have heq : b ≠ chr '=' := hne _ (by decide)
    rw [length_cons] at hlen
    have hcount : ¬(inAttr attr).count ≥ XML_MAXSIZE :=
      not_le.mpr (show attr.length < XML_MAXSIZE by omega)
    have hround : attributesLoop d (fuel + s.length + 1) (inAttr attr) (b :: (s ++ fp)) lxml =
        attributesLoop d (fuel + s.length) (inAttr (attr ++ [b])) (s ++ fp) lxml := by
      rw [attributesLoop]
      rw [if_neg hcount]
      simp [hgt, hslash, heq, hspace, inAttr, AttrState.init]
    rw [length_cons, ← add_assoc, cons_append, hround,
      ih hs (by rw [length_append, length_singleton]; omega), append_assoc, singleton_append]

theorem attributesLoop_value (hs : ∀ b ∈ s, b ∉ lit "\">")
    (hlen : value.length + s.length < XML_MAXSIZE) :
    attributesLoop d (fuel + s.length) (inValue attr value) (s ++ fp) lxml =
      attributesLoop d fuel (inValue attr (value ++ s)) fp lxml := by
  induction s generalizing value with
  | nil => rw [append_nil, length_nil, add_zero, nil_append]
  | cons b s ih =>
    obtain ⟨hb, hs⟩ := forall_mem_cons.mp hs
    have hne : ∀ c ∈ lit "\">", b ≠ c := fun c hc heq => hb (heq ▸ hc)
    have hgt : b ≠ chr '>' := hne _ (by decide)
    have hquote : b ≠ chr '"' := hne _ (by decide)
    rw [length_cons] at hlen
    have hcount : ¬(inValue attr value).count ≥ XML_MAXSIZE :=
      not_le.mpr (show value.length < XML_MAXSIZE by omega)
    have hround : attributesLoop d (fuel + s.length + 1) (inValue attr value) (b :: (s ++ fp)) lxml =
        attributesLoop d (fuel + s.length) (inValue attr (value ++ [b])) (s ++ fp) lxml := by
      rw [attributesLoop]
      rw [if_neg hcount]
      simp [hgt, hquote, inValue]
    rw [length_cons, ← add_assoc, cons_append, hround,
      ih hs (by rw [length_append, length_singleton]; omega), append_assoc, singleton_append]

/-- The `=` and the quote. -/
theorem attributesLoop_equals (hlen : attr.length < XML_MAXSIZE)
    (hnew : alreadyDefined attr d lxml = false) :
    attributesLoop d (fuel + 1) (inAttr attr) (lit "=\"" ++ fp) lxml =
      attributesLoop d fuel (inValue attr []) fp lxml := by
  have hcount : ¬(inAttr attr).count ≥ XML_MAXSIZE := not_le.mpr hlen
  have hquote : attrQuote (chr '"' :: fp) = some (chr '"', fp) := by
    have hspace : isSpace (chr '"') = false := by decide
    rw [attrQuote, dropWhile_cons, hspace]
    rfl
  have hdefined : ¬alreadyDefined (inAttr attr).attr d lxml = true := by
    rw [Bool.not_eq_true]
    exact hnew
  have hend : ¬(chr '=' = chr '>' ∨ (inAttr attr).inValue = false ∧ chr '=' = chr '/') := by
    rintro (h | ⟨-, h⟩) <;> cases h
  change attributesLoop d (fuel + 1) (inAttr attr) (chr '=' :: chr '"' :: fp) lxml = _
  rw [attributesLoop]
  rw [if_neg hcount, if_neg hend, if_pos ⟨rfl, rfl⟩, if_neg hdefined, hquote]
  rfl

theorem enter_attribute (hvar : strcasecmpEq (lit "var") a.1 = false) (hattr : ∀ b ∈ a.1, b ≠ 0)
    (hvalue : ∀ b ∈ a.2, b ≠ 0) :
    writeContent a.2 ((writeMemory a.1 .XML_ATTR d lxml).length - 1)
      (writeMemory a.1 .XML_ATTR d lxml) = lxml ++ [attributeItem d a] := by
  rw [writeMemory, length_append, length_singleton, Nat.add_sub_cancel,
    writeContent_append_cons, hvar, str_eq_self hattr, str_eq_self hvalue]
  rfl

theorem attributesLoop_quote (hlen : value.length < XML_MAXSIZE) :
    attributesLoop d (fuel + 1) (inValue attr value) (chr '"' :: c :: fp) lxml =
      if isSpace c then
        attributesLoop d fuel AttrState.init fp
          (writeContent value ((writeMemory attr .XML_ATTR d lxml).length - 1)
            (writeMemory attr .XML_ATTR d lxml))
      else if c = chr '>' then
        .ok (false, fp, writeContent value ((writeMemory attr .XML_ATTR d lxml).length - 1)
          (writeMemory attr .XML_ATTR d lxml))
      else if c = chr '/' then
        .ok (true, fp, writeContent value ((writeMemory attr .XML_ATTR d lxml).length - 1)
          (writeMemory attr .XML_ATTR d lxml))
      else .error (xmlError (lit "XMLERR: Bad attribute closing for '" ++ str attr ++ lit "'='" ++
        str value ++ lit "'.")) := by
  have hcount : ¬(inValue attr value).count ≥ XML_MAXSIZE := not_le.mpr hlen
  have hgt : chr '"' ≠ chr '>' := by decide
  rw [attributesLoop]
  rw [if_neg hcount]
  simp [hgt, inValue]

/-- A whole attribute, and the byte behind it. -/
theorem attributesLoop_attribute (hattr : ∀ b ∈ a.1, AttrByte b)
    (hattrlen : a.1.length < XML_MAXSIZE) (hvalue : ∀ b ∈ a.2, b ∉ lit "\">" ∧ b ≠ 0)
    (hvaluelen : a.2.length < XML_MAXSIZE) (hvar : strcasecmpEq (lit "var") a.1 = false)
    (hnew : alreadyDefined a.1 d lxml = false) :
    attributesLoop d (fuel + (a.1.length + a.2.length + 2)) AttrState.init
        (printAttribute a ++ c :: fp) lxml =
      if isSpace c then attributesLoop d fuel AttrState.init fp (lxml ++ [attributeItem d a])
      else if c = chr '>' then .ok (false, fp, lxml ++ [attributeItem d a])
      else if c = chr '/' then .ok (true, fp, lxml ++ [attributeItem d a])
      else .error (xmlError (lit "XMLERR: Bad attribute closing for '" ++ str a.1 ++ lit "'='" ++
        str a.2 ++ lit "'.")) := by
  have hfuel : fuel + (a.1.length + a.2.length + 2) = fuel + 1 + a.2.length + 1 + a.1.length := by
    omega
  have hprint : printAttribute a ++ c :: fp =
      a.1 ++ (lit "=\"" ++ (a.2 ++ (chr '"' :: c :: fp))) := by
    rw [printAttribute, append_assoc, append_assoc, append_assoc]
    rfl
  have hname : attributesLoop d (fuel + 1 + a.2.length + 1 + a.1.length) (inAttr [])
      (a.1 ++ (lit "=\"" ++ (a.2 ++ (chr '"' :: c :: fp)))) lxml = _ :=
    attributesLoop_name hattr (by rwa [length_nil, zero_add])
  have hval : attributesLoop d (fuel + 1 + a.2.length) (inValue a.1 [])
      (a.2 ++ (chr '"' :: c :: fp)) lxml = _ :=
    attributesLoop_value (fun b hb => (hvalue b hb).1) (by rwa [length_nil, zero_add])
  rw [nil_append] at hname hval
  have henter : writeContent a.2 ((writeMemory a.1 .XML_ATTR d lxml).length - 1)
      (writeMemory a.1 .XML_ATTR d lxml) = lxml ++ [attributeItem d a] :=
    enter_attribute hvar (fun b hb => (hattr b hb).2.2) fun b hb => (hvalue b hb).2
  rw [hfuel, hprint]
  change attributesLoop d (fuel + 1 + a.2.length + 1 + a.1.length) (inAttr []) _ lxml = _
  rw [hname, attributesLoop_equals hattrlen hnew, hval, attributesLoop_quote hvaluelen, henter]

/-- The attributes that were entered for an element, and nothing else, stand behind it. -/
theorem alreadyDefined_append {item : Item} (hitem : item.tp ≠ .XML_ATTR)
    (hz : ∀ b ∈ attr, b ≠ 0) :
    alreadyDefined attr d (lxml ++ item :: done.map (attributeItem d)) =
      (done.map Prod.fst).contains attr := by
  have hrun : (lxml ++ item :: done.map (attributeItem d)).reverse.takeWhile
      (fun item => item.rl == d && item.tp == .XML_ATTR) =
        (done.map (attributeItem d)).reverse := by
    have hall : ∀ x ∈ (done.map (attributeItem d)).reverse,
        (x.rl == d && x.tp == XmlType.XML_ATTR) = true := by
      intro x hx
      obtain ⟨a, -, rfl⟩ := mem_map.mp (mem_reverse.mp hx)
      simp [attributeItem]
    rw [reverse_append, reverse_cons, append_assoc,
      takeWhile_append_of_pos hall, singleton_append, takeWhile_cons]
    simp [hitem]
  rw [alreadyDefined, hrun, any_reverse, any_map, str_eq_self hz, contains_eq_any_beq, any_map]
  exact congrArg done.any (funext fun a => BEq.comm)

/-- An attribute that can be printed. -/
structure PlainAttribute (a : Bytes × Bytes) : Prop where
  attr : ∀ b ∈ a.1, AttrByte b
  attr_length : a.1.length < XML_MAXSIZE
  value : ∀ b ∈ a.2, b ∉ lit "\">" ∧ b ≠ 0
  value_length : a.2.length < XML_MAXSIZE
  not_var : strcasecmpEq (lit "var") a.1 = false

theorem length_printAttribute (a : Bytes × Bytes) :
    (printAttribute a).length = a.1.length + a.2.length + 3 := by
  have hequals : (lit "=\"").length = 2 := by decide
  have hquote : (lit "\"").length = 1 := by decide
  simp only [printAttribute, length_append]
  omega

/-- A whole attribute, behind the ones that are entered already. -/
theorem attributesLoop_append (d : ℕ) (lxml : OSXml) {item : Item} (hitem : item.tp ≠ .XML_ATTR) (ha : PlainAttribute a)
    (hnew : a.1 ∉ done.map Prod.fst)
    (hfuel : (printAttribute a ++ c :: fp).length < fuel) :
    ∃ fuel', fp.length < fuel' ∧
      attributesLoop d fuel AttrState.init (printAttribute a ++ c :: fp)
          (lxml ++ item :: done.map (attributeItem d)) =
        if isSpace c then
          attributesLoop d fuel' AttrState.init fp
            (lxml ++ item :: (done ++ [a]).map (attributeItem d))
        else if c = chr '>' then
          .ok (false, fp, lxml ++ item :: (done ++ [a]).map (attributeItem d))
        else if c = chr '/' then
          .ok (true, fp, lxml ++ item :: (done ++ [a]).map (attributeItem d))
        else .error (xmlError (lit "XMLERR: Bad attribute closing for '" ++ str a.1 ++ lit "'='" ++
          str a.2 ++ lit "'.")) := by
  rw [length_append, length_printAttribute, length_cons] at hfuel
  obtain ⟨fuel', rfl⟩ : ∃ fuel', fuel = fuel' + (a.1.length + a.2.length + 2) :=
    ⟨fuel - (a.1.length + a.2.length + 2), by omega⟩
  refine ⟨fuel', by omega, ?_⟩
  have hdefined : alreadyDefined a.1 d (lxml ++ item :: done.map (attributeItem d)) = false := by
    rw [alreadyDefined_append hitem fun b hb => (ha.attr b hb).2.2, ← Bool.not_eq_true,
      contains_iff_mem]
    exact hnew
  have hitems : (lxml ++ item :: done.map (attributeItem d)) ++ [attributeItem d a] =
      lxml ++ item :: (done ++ [a]).map (attributeItem d) := by
    rw [map_append, append_assoc]
    rfl
  rw [attributesLoop_attribute ha.attr ha.attr_length ha.value ha.value_length ha.not_var hdefined,
    hitems]

/-- Some attributes, behind the blank in front of the first one, and the end of the tag. -/
theorem attributesLoop_attributes {item : Item} (hitem : item.tp ≠ .XML_ATTR)
    (hc : c = chr '>' ∨ c = chr '/') (hplain : ∀ x ∈ a :: attributes, PlainAttribute x)
    (hnodup : ((done ++ a :: attributes).map Prod.fst).Nodup)
    (hfuel : (printAttribute a ++ (printAttributes attributes ++ c :: fp)).length < fuel) :
    attributesLoop d fuel AttrState.init
        (printAttribute a ++ (printAttributes attributes ++ c :: fp))
        (lxml ++ item :: done.map (attributeItem d)) =
      .ok (c == chr '/', fp, lxml ++ item :: (done ++ a :: attributes).map (attributeItem d)) := by
  have hnew : ∀ {a : Bytes × Bytes} {attributes done : List (Bytes × Bytes)},
      ((done ++ a :: attributes).map Prod.fst).Nodup → a.1 ∉ done.map Prod.fst := by
    intro a attributes done hnodup hmem
    rw [map_append, map_cons, nodup_append] at hnodup
    exact hnodup.2.2 a.1 hmem a.1 mem_cons_self rfl
  induction attributes generalizing a done fuel with
  | nil =>
    obtain ⟨fuel', -, hloop⟩ := attributesLoop_append d lxml hitem
      (hplain a mem_cons_self) (hnew hnodup) hfuel
    rw [printAttributes, flatMap_nil, nil_append, hloop]
    rcases hc with rfl | rfl
    · rfl
    · rfl
  | cons a' attributes ih =>
    obtain ⟨ha, hplain⟩ := forall_mem_cons.mp hplain
    have hprint : printAttributes (a' :: attributes) ++ c :: fp =
        chr ' ' :: (printAttribute a' ++ (printAttributes attributes ++ c :: fp)) := by
      rw [printAttributes, flatMap_cons, append_assoc]
      rfl
    rw [hprint] at hfuel ⊢
    obtain ⟨fuel', hfuel', hloop⟩ := attributesLoop_append d lxml hitem ha
      (hnew hnodup) hfuel
    have happend : done ++ a :: a' :: attributes = (done ++ [a]) ++ a' :: attributes := by
      rw [append_assoc]
      rfl
    have hspace : isSpace (chr ' ') = true := by decide
    rw [happend] at hnodup ⊢
    rw [hloop, if_pos hspace]
    exact ih hplain hnodup hfuel'

/-! ## Elements -/

/-- An element that is not closed yet. -/
def openItem (d : ℕ) (name : Bytes) : Item := {
  el := name
  ct := none
  tp := .XML_ELEM
  rl := d
  ck := false }

variable {e : Element} {child next : Elements}

theorem Element.Plain.attribute (he : e.Plain child) (hreg : e.Regular) :
    ∀ a ∈ e.attributes, PlainAttribute a := fun a ha => {
  attr := he.attr a ha
  attr_length := he.attr_length a ha
  value := he.value a ha
  value_length := he.value_length a ha
  not_var := hreg.attr a ha }

theorem Element.Plain.head? (he : e.Plain child) (s : Bytes) :
    (e.name ++ s).head? ≠ some (chr '!') ∧ (e.name ++ s).head? ≠ some (chr '/') := by
  rw [head?_append_of_ne_nil _ he.name_ne_nil]
  refine ⟨he.name_head.1, fun hslash => ?_⟩
  exact (he.name _ (mem_of_mem_head? hslash)).ne (by decide) rfl

theorem writeMemory_name (he : e.Plain child) (hreg : e.Regular) :
    writeMemory e.name .XML_ELEM d lxml = lxml ++ [openItem d e.name] := by
  rw [writeMemory, hreg.name, str_eq_self fun b hb => (he.name b hb).2.2]
  rfl

/-- A name does not end with `/`, so it is the name of an element that stays open. -/
theorem elemName_inElem (he : e.Plain child) :
    (inElem e.name).slash = false ∧ (inElem e.name).elemName = e.name := by
  have hslash : (inElem e.name).slash = false := by
    rw [ReadState.slash, beq_eq_false_iff_ne]
    intro hlast
    exact (he.name _ (mem_of_getLast? hlast)).ne (by decide) rfl
  refine ⟨hslash, ?_⟩
  rw [ReadState.elemName, hslash]
  rfl

/-- The attributes of an element and the end of its tag. -/
theorem openElem_attributes (he : e.Plain child) (hreg : e.Regular)
    (hattributes : e.attributes = a :: attributes) (hc : c = chr '>' ∨ c = chr '/') :
    openElem d (inElem e.name) (chr ' ')
        (printAttribute a ++ (printAttributes attributes ++ c :: fp)) lxml =
      if c = chr '/' then
        closed d (inElem e.name) fp (closeItem [] lxml.length
          (lxml ++ openItem d e.name :: e.attributes.map (attributeItem d)))
      else .next (inCont e.name [] lxml.length) fp
        (lxml ++ openItem d e.name :: e.attributes.map (attributeItem d)) := by
  obtain ⟨hslash, hname⟩ := elemName_inElem he
  have hspace : isSpace (chr ' ') = true := by decide
  have hitem : (openItem d e.name).tp ≠ .XML_ATTR := XmlType.noConfusion
  have hnodup : (([] ++ a :: attributes).map Prod.fst).Nodup := by
    rw [nil_append, ← hattributes]
    exact hreg.nodup
  have hloop : attributesLoop d
      ((printAttribute a ++ (printAttributes attributes ++ c :: fp)).length + 1) AttrState.init
      (printAttribute a ++ (printAttributes attributes ++ c :: fp)) (lxml ++ [openItem d e.name]) =
        .ok (c == chr '/', fp,
          lxml ++ openItem d e.name :: ([] ++ a :: attributes).map (attributeItem d)) :=
    attributesLoop_attributes hitem hc (hattributes ▸ he.attribute hreg) hnodup (Nat.lt_succ_self _)
  rw [nil_append, ← hattributes] at hloop
  rw [openElem, hslash, hname, writeMemory_name he hreg, readAttributes, if_pos hspace,
    getAttributes, hloop]
  rcases hc with rfl | rfl
  · rfl
  · rfl

/-- The start of an element that is not empty. -/
theorem reads_start (he : e.Plain child) (hreg : e.Regular)
    (h : readElem.Accepts d (inCont e.name [] lxml.length) fp
      (lxml ++ openItem d e.name :: e.attributes.map (attributeItem d)) r rest out) :
    readElem.Accepts d (inElem e.name) (printAttributes e.attributes ++ chr '>' :: fp) lxml
      r rest out := by
  have hcount : (inElem e.name).count < XML_MAXSIZE := he.name_length
  cases hattributes : e.attributes with
  | nil =>
    obtain ⟨hslash, hname⟩ := elemName_inElem he
    have hspace : ¬isSpace (chr '>') = true := by decide
    rw [hattributes] at h
    refine .next ?_ h
    change readRound d (inElem e.name) (chr '>') fp lxml = _
    rw [readRound_of_ne rfl hcount (by decide) (by decide), readChecked_elem_end rfl (.inl rfl),
      openElem, hslash, hname, writeMemory_name he hreg, readAttributes, if_neg hspace]
    rfl
  | cons a attributes =>
    have hprint : printAttributes (a :: attributes) ++ chr '>' :: fp =
        chr ' ' :: (printAttribute a ++ (printAttributes attributes ++ chr '>' :: fp)) := by
      rw [printAttributes, flatMap_cons, append_assoc]
      rfl
    have hspace : isSpace (chr ' ') = true := by decide
    rw [hprint]
    refine .next ?_ h
    change readRound d (inElem e.name) (chr ' ') _ lxml = _
    rw [readRound_of_ne rfl hcount (by decide) (by decide),
      readChecked_elem_end rfl (.inr hspace), openElem_attributes he hreg hattributes (.inl rfl),
      if_neg (by decide)]

/-- An element that is printed as empty. -/
theorem reads_empty (he : e.Plain child) (hreg : e.Regular) (hempty : Empty e child)
    (h : Resumes d (leftover e child ++ fp)
      (lxml ++ elementItem d e [] :: e.attributes.map (attributeItem d)) r rest out) :
    readElem.Accepts d (inElem e.name) (printAttributes e.attributes ++ (lit "/>" ++ fp)) lxml
      r rest out := by
  cases hattributes : e.attributes with
  | nil =>
    -- the `/` is read with the name
    have hcount : (inElem e.name).count < XML_MAXSIZE := he.name_length
    have hcount' : (inElem (e.name ++ [chr '/'])).count < XML_MAXSIZE := by
      have := he.name_length_slash hempty hattributes
      change (e.name ++ [chr '/']).length < _
      rwa [length_append]
    have hslash : (inElem (e.name ++ [chr '/'])).slash = true := by
      rw [ReadState.slash]
      change (e.name ++ [chr '/']).getLast? == _
      rw [getLast?_concat]
      rfl
    have hname : (inElem (e.name ++ [chr '/'])).elemName = e.name := by
      rw [ReadState.elemName, hslash]
      exact dropLast_concat
    have hspace : ¬isSpace (chr '>') = true := by decide
    have hleft : leftover e child = [] := by
      rw [leftover, if_neg fun h => h.2 hattributes]
    rw [hattributes, hleft] at h
    have hround : readRound d (inElem (e.name ++ [chr '/'])) (chr '>') fp lxml =
        closed d (inElem (e.name ++ [chr '/'])) fp (lxml ++ [elementItem d e []]) := by
      rw [readRound_of_ne rfl hcount' (by decide) (by decide),
        readChecked_elem_end rfl (.inl rfl), openElem, hslash, hname, writeMemory_name he hreg,
        readAttributes, if_neg hspace]
      dsimp only
      rw [closeItem_append_cons]
      rfl
    refine .next ?_ (reads_closed rfl hround h)
    change readRound d (inElem e.name) (chr '/') (chr '>' :: fp) lxml = _
    rw [readRound_of_ne rfl hcount (by decide) (by decide),
      readChecked_elem rfl (by decide) (by decide)]
    rfl
  | cons a attributes =>
    have hcount : (inElem e.name).count < XML_MAXSIZE := he.name_length
    have hprint : printAttributes (a :: attributes) ++ (lit "/>" ++ fp) =
        chr ' ' :: (printAttribute a ++ (printAttributes attributes ++
          chr '/' :: (chr '>' :: fp))) := by
      rw [printAttributes, flatMap_cons, append_assoc]
      rfl
    have hspace : isSpace (chr ' ') = true := by decide
    have hleft : leftover e child = lit ">" := by
      rw [leftover, if_pos ⟨hempty, hattributes ▸ cons_ne_nil _ _⟩]
    rw [hleft] at h
    rw [hprint]
    have hround : readRound d (inElem e.name) (chr ' ')
        (printAttribute a ++ (printAttributes attributes ++ chr '/' :: (chr '>' :: fp))) lxml =
          closed d (inElem e.name) (chr '>' :: fp)
            (lxml ++ elementItem d e [] :: e.attributes.map (attributeItem d)) := by
      rw [readRound_of_ne rfl hcount (by decide) (by decide),
        readChecked_elem_end rfl (.inr hspace),
        openElem_attributes he hreg hattributes (.inr rfl), if_pos rfl, closeItem_append_cons]
      rfl
    exact reads_closed rfl hround h

/-- What the content of an element holds behind its children. -/
def contentAfter (cont : Bytes) : Elements → Bytes
  | .nil => cont
  | .node e child next => trailing (.node e child next)

theorem trailing_length_le (t : Elements) : (trailing t).length ≤ 1 := by
  induction t with
  | nil => exact Nat.zero_le _
  | node e child next _ ih =>
    cases next with
    | nil =>
      rw [trailing, leftover]
      split_ifs <;> decide
    | node e' child' next' => exact ih

theorem eq_of_mem_trailing {t : Elements} {b : UInt8} (hb : b ∈ trailing t) : b = chr '>' := by
  induction t with
  | nil => cases hb
  | node e child next _ ih =>
    cases next with
    | nil =>
      rw [trailing, leftover] at hb
      split_ifs at hb
      · exact mem_singleton.mp hb
      · cases hb
    | node e' child' next' => exact ih hb

/-- The children of an element are entered from its content. -/
def ReadsChildren (d : ℕ) (t : Elements) : Prop :=
  ∀ {elem cont : Bytes} {i : ℕ} {fp : Bytes} {lxml : OSXml} {r : Retval} {rest : Bytes} {out : OSXml},
    cont.length < XML_MAXSIZE →
    readElem.Accepts d (inCont elem (contentAfter cont t) i) fp (lxml ++ items (d + 1) t) r rest out →
    readElem.Accepts d (inCont elem cont i) (print t ++ fp) lxml r rest out

/-- An element, on its own level. -/
theorem reads_element (he : e.Plain child) (hreg : e.Regular) (hsplit : e.content = [] ∨ child = .nil)
    (hchild : ReadsChildren d child)
    (h : Resumes d (leftover e child ++ fp)
      (lxml ++ elementItem d e (e.content ++ trailing child) ::
        (e.attributes.map (attributeItem d) ++ items (d + 1) child)) r rest out) :
    readElem.Accepts d ReadState.init (printElement e child (print child) ++ fp) lxml r rest out := by
  have hnamelen : ([] : Bytes).length + e.name.length < XML_MAXSIZE := by
    rw [length_nil, zero_add]
    exact he.name_length
  rw [printElement, cons_append, append_assoc]
  refine reads_open (he.head? _) (reads_name he.name hnamelen ?_)
  rw [nil_append, append_assoc]
  by_cases hempty : Empty e child
  · rw [if_pos hempty]
    refine reads_empty he hreg hempty ?_
    obtain ⟨hcontent, rfl⟩ := hempty
    rwa [hcontent, items, append_nil] at h
  · rw [if_neg hempty]
    simp only [cons_append, append_assoc]
    have hcontent : contentAfter e.content child = e.content ++ trailing child := by
      cases child with
      | nil => exact (append_nil _).symm
      | node e' child' next' =>
        rcases hsplit with hnil | hnil
        · rw [hnil]
          rfl
        · cases hnil
    have hcontentlen : (e.content ++ trailing child).length < XML_MAXSIZE := by
      rcases hsplit with hnil | hnil
      · rw [hnil, nil_append]
        exact lt_of_le_of_lt (trailing_length_le child) (by decide)
      · rw [hnil, trailing, append_nil]
        exact he.content_length
    have hleft : leftover e child = [] := by
      rw [leftover, if_neg fun h => hempty h.1]
    refine reads_start he hreg (reads_cont (fun b hb => (he.content b hb).1) ?_
      (hchild he.content_length ?_))
    · rw [length_nil, zero_add]
      exact he.content_length
    · rw [nil_append, hcontent]
      refine reads_close hcontentlen (reads_closedelim he.name hnamelen ?_)
      refine reads_closedelim_end he.name_length ?_
      rw [append_assoc, cons_append, closeItem_append_cons]
      rw [hleft] at h
      have hstr : str (e.content ++ trailing child) = e.content ++ trailing child := by
        refine str_eq_self fun b hb => ?_
        rcases mem_append.mp hb with hb | hb
        · exact (he.content b hb).2
        · rw [eq_of_mem_trailing hb]
          decide
      rw [hstr]
      exact h

theorem readsChildren {t : Elements} (hplain : Plain (d + 1) t) (hreg : Regular t) :
    ReadsChildren d t := by
  induction t generalizing d with
  | nil =>
    intro elem cont i fp lxml r rest out _ h
    rwa [contentAfter, items, append_nil] at h
  | node e child next ihchild ihnext =>
    intro elem cont i fp lxml r rest out hcont h
    obtain ⟨he, hsplit, hdepth, hchild, hnext⟩ := hplain
    obtain ⟨hereg, hchildreg, hnextreg⟩ := hreg
    have hcount : (inCont elem cont i).count < XML_MAXSIZE := hcont
    obtain ⟨tail, htail, hhead⟩ : ∃ tail, printElement e child (print child) ++ (print next ++ fp) =
        chr '<' :: tail ∧ tail.head? ≠ some (chr '!') ∧ tail.head? ≠ some (chr '/') := by
      rw [printElement, cons_append, append_assoc]
      exact ⟨_, rfl, he.head? _⟩
    have hlevel : readElem.Accepts (d + 1) ReadState.init
        (printElement e child (print child) ++ (print next ++ fp)) lxml .closed
        (leftover e child ++ (print next ++ fp))
        (lxml ++ elementItem (d + 1) e (e.content ++ trailing child) ::
          (e.attributes.map (attributeItem (d + 1)) ++ items (d + 2) child)) := by
      refine reads_element he hereg hsplit (ihchild hchild hchildreg) ?_
      rw [Resumes, if_pos (Nat.succ_pos d)]
      exact ⟨rfl, rfl, rfl⟩
    have hleft : (leftover e child).length < XML_MAXSIZE :=
      lt_of_le_of_lt (trailing_length_le (.node e child .nil)) (by decide)
    have hafter : contentAfter (leftover e child) next = trailing (.node e child next) := by
      cases next <;> rfl
    rw [print, append_assoc, htail]
    rw [htail] at hlevel
    have hleave : readElem.leave (inCont elem cont i) .closed = .ok (inCont elem [] i) := rfl
    refine .child ?_ ?_ hlevel hleave ?_
    · change readRound d (inCont elem cont i) (chr '<') tail lxml = _
      rw [readRound_lt rfl hcount hhead.1, readChecked_child rfl rfl hhead.2]
    · have hdeep : ¬d + 2 > 1024 := not_lt.mpr hdepth
      change (if d + 2 > 1024 then _ else _) = _
      rw [if_neg hdeep]
    · have hbytes : ∀ b ∈ leftover e child, b ∉ lit "<\\" := by
        intro b hb
        have hgt : b = chr '>' := eq_of_mem_trailing (t := .node e child .nil) hb
        rw [hgt]
        decide
      refine reads_cont hbytes ?_ (ihnext hnext hnextreg hleft ?_)
      · rwa [length_nil, zero_add]
      · rw [nil_append, hafter, append_assoc]
        exact h

/-- The elements of the top level. -/
theorem accepts_print {t : Elements} (hplain : Plain 0 t) (hreg : Regular t)
    (h : readElem.Accepts 0 ReadState.init fp (lxml ++ items 0 t) r rest out) :
    readElem.Accepts 0 ReadState.init (print t ++ fp) lxml r rest out := by
  induction t generalizing lxml with
  | nil => rwa [items, append_nil] at h
  | node e child next _ ihnext =>
    obtain ⟨he, hsplit, -, hchild, hnext⟩ := hplain
    obtain ⟨hereg, hchildreg, hnextreg⟩ := hreg
    rw [print, append_assoc]
    refine reads_element he hereg hsplit (readsChildren hchild hchildreg) ?_
    rw [Resumes, if_neg (lt_irrefl 0)]
    rw [items, ← append_assoc] at h
    have hrest := ihnext hnext hnextreg h
    rw [leftover]
    split_ifs
    · exact reads_outside (by decide) hrest
    · exact hrest

theorem skipXmlDeclaration_print {t : Elements} {depth : ℕ} (hplain : Plain depth t) :
    skipXmlDeclaration (print t) = some (print t) := by
  cases t with
  | nil => rfl
  | node e child next =>
    obtain ⟨he, -⟩ := hplain
    have hbom : ([0xEF, 0xBB, 0xBF] : Bytes).isPrefixOf (print (.node e child next)) = false := rfl
    have hxml : (lit "<?xml").isPrefixOf (print (.node e child next)) = false := by
      obtain ⟨b, name, hname⟩ := exists_cons_of_ne_nil he.name_ne_nil
      have hb : (chr '?' == b) = false := by
        rw [beq_eq_false_iff_ne]
        rintro rfl
        exact he.name_head.2 (by rw [hname]; rfl)
      have hlit : lit "<?xml" = chr '<' :: chr '?' :: lit "xml" := by decide
      rw [hlit, print, printElement, hname]
      simp only [cons_append, isPrefixOf_cons_cons, hb, Bool.false_and, Bool.and_false]
    rw [skipXmlDeclaration, hbom, if_neg Bool.false_ne_true, hxml, if_neg Bool.false_ne_true]

theorem closed_of_mem_items {t : Elements} {item : Item} (h : item ∈ items d t) : item.ck = true := by
  induction t generalizing d with
  | nil => cases h
  | node e child next ihchild ihnext =>
    rw [items, mem_append, mem_cons, mem_append, mem_map] at h
    rcases h with (rfl | ⟨a, -, rfl⟩ | h) | h
    · rfl
    · rfl
    · exact ihchild h
    · exact ihnext h

theorem osReadXml_print {t : Elements} (hplain : Plain 0 t) (hreg : Regular t) :
    osReadXml (print t) = .ok (items 0 t) := by
  rw [osReadXml_eq_ok_iff]
  refine ⟨⟨print t, .leof, [], skipXmlDeclaration_print hplain, ?_⟩, fun item => closed_of_mem_items⟩
  have hdone : readElem.Accepts 0 ReadState.init [] ([] ++ items 0 t) .leof [] (items 0 t) := .done rfl
  have hread := accepts_print hplain hreg hdone
  rwa [append_nil] at hread

/-! ## Reading back -/

/-- The elements that some nodes stand for, with the elements below them. -/
inductive ReadsBack (lxml : OSXml) : List XmlNode → Elements → Prop
  | nil : ReadsBack lxml [] .nil
  | node {node nodes e child next} (hname : node.element = e.name)
      (hattributes : node.attributes = e.attributes.map Prod.fst)
      (hvalues : node.values = e.attributes.map Prod.snd) (hcontent : node.content = some e.content)
      (hchild : ReadsBack lxml (getElementsByNode lxml (some node)) child)
      (hnext : ReadsBack lxml nodes next) : ReadsBack lxml (node :: nodes) (.node e child next)

/-- A tree as it is read: `>` bytes that are left over become content. -/
def withLeftover : Elements → Elements
  | .nil => .nil
  | .node e child next =>
    .node { e with content := e.content ++ trailing child } (withLeftover child) (withLeftover next)

/-- The nodes of the elements that stand at an index. -/
def nodesAt (i : ℕ) : Elements → List XmlNode
  | .nil => []
  | .node e child next =>
    { key := i
      element := e.name
      content := some (e.content ++ trailing child)
      attributes := e.attributes.map Prod.fst
      values := e.attributes.map Prod.snd } ::
        nodesAt (i + (e.attributes.length + (items 0 child).length + 1)) next

theorem length_items (d d' : ℕ) (t : Elements) : (items d t).length = (items d' t).length := by
  induction t generalizing d d' with
  | nil => rfl
  | node e child next ihchild ihnext =>
    simp only [items, length_append, length_cons, length_map, ihchild (d + 1) (d' + 1), ihnext d d']

variable {m : ℕ} {root : Bool} {l post pre : OSXml} {t : Elements}

theorem elementsLoop_append (h : ∀ item ∈ l, item.tp = .XML_ELEM → m < item.rl) :
    elementsLoop root m i (l ++ post) = elementsLoop root m (i + l.length) post := by
  induction l generalizing i with
  | nil => rfl
  | cons item l ih =>
    obtain ⟨hitem, h⟩ := forall_mem_cons.mp h
    have heq : ¬(item.tp = .XML_ELEM ∧ item.rl = m) := fun h => Nat.ne_of_gt (hitem h.1) h.2
    have hgt : ¬(item.tp = .XML_ELEM ∧ m > item.rl) := fun h =>
      lt_irrefl m (lt_trans (hitem h.1) h.2)
    rw [cons_append, elementsLoop, if_neg heq, if_neg hgt, ih h, length_cons]
    congr 1
    omega

theorem le_rl_of_mem_items {item : Item} (h : item ∈ items d t) : d ≤ item.rl := by
  induction t generalizing d with
  | nil => cases h
  | node e child next ihchild ihnext =>
    rw [items, mem_append, mem_cons, mem_append, mem_map] at h
    rcases h with (rfl | ⟨a, -, rfl⟩ | h) | h
    · exact Nat.le_refl d
    · exact Nat.le_refl d
    · exact Nat.le_of_succ_le (ihchild h)
    · exact ihnext h

theorem head?_items {item : Item} (h : (items d t).head? = some item) :
    item.tp = .XML_ELEM ∧ item.rl = d := by
  cases t with
  | nil => cases h
  | node e child next =>
    cases h
    exact ⟨rfl, rfl⟩

/-- What may stand behind elements of depth `m`: the next element further up. -/
def EndsLevel (m : ℕ) (post : OSXml) : Prop :=
  ∀ item, post.head? = some item → item.tp = .XML_ELEM ∧ item.rl < m

theorem EndsLevel.items_append (h : EndsLevel m post) : EndsLevel (m + 1) (items m t ++ post) := by
  intro item hitem
  cases ht : items m t with
  | nil =>
    rw [ht] at hitem
    exact ⟨(h item hitem).1, Nat.lt_succ_of_lt (h item hitem).2⟩
  | cons first rest =>
    rw [ht] at hitem
    have hhead : (items m t).head? = some item := by
      rw [ht]
      exact hitem
    obtain ⟨htp, hrl⟩ := head?_items hhead
    exact ⟨htp, hrl ▸ Nat.lt_succ_self _⟩

theorem elementsLoop_of_endsLevel (h : EndsLevel m post) : elementsLoop false m i post = [] := by
  cases post with
  | nil => rfl
  | cons item post =>
    obtain ⟨htp, hrl⟩ := h item rfl
    rw [elementsLoop, if_neg fun h => Nat.ne_of_lt hrl h.2, if_pos ⟨htp, hrl⟩,
      if_neg Bool.false_ne_true]

/-- The attributes of an element stand behind it. -/
theorem attributesOf_append (h : ∀ item, post.head? = some item → item.tp = .XML_ELEM)
    (attributes : List (Bytes × Bytes)) :
    attributesOf m (attributes.map (attributeItem m) ++ post) =
      attributes.map (attributeItem m) := by
  have hall : ∀ item ∈ attributes.map (attributeItem m),
      (item.tp == XmlType.XML_ATTR && item.rl == m && item.ct.isSome) = true := by
    intro item hitem
    obtain ⟨a, -, rfl⟩ := mem_map.mp hitem
    simp [attributeItem]
  rw [attributesOf, takeWhile_append_of_pos hall]
  cases post with
  | nil => exact append_nil _
  | cons item post =>
    rw [takeWhile_cons, h item rfl]
    exact append_nil _

theorem elementsLoop_items (h : ∀ item, post.head? = some item → item.tp = .XML_ELEM) :
    elementsLoop root m i (items m t ++ post) =
      nodesAt i t ++ elementsLoop root m (i + (items m t).length) post := by
  induction t generalizing i with
  | nil => rfl
  | node e child next _ ihnext =>
    have hbehind : ∀ item, (items (m + 1) child ++ (items m next ++ post)).head? = some item →
        item.tp = .XML_ELEM := by
      intro item hitem
      rw [head?_append, head?_append, Option.or_eq_some_iff, Option.or_eq_some_iff] at hitem
      rcases hitem with hitem | ⟨-, hitem | ⟨-, hitem⟩⟩
      · exact (head?_items hitem).1
      · exact (head?_items hitem).1
      · exact h item hitem
    have hbelow : ∀ item ∈ e.attributes.map (attributeItem m) ++ items (m + 1) child,
        item.tp = .XML_ELEM → m < item.rl := by
      intro item hitem htp
      rcases mem_append.mp hitem with hitem | hitem
      · obtain ⟨a, -, rfl⟩ := mem_map.mp hitem
        cases htp
      · exact le_rl_of_mem_items hitem
    have hattributes := attributesOf_append (m := m) hbehind e.attributes
    have hloop : elementsLoop root m (i + 1)
        (e.attributes.map (attributeItem m) ++ (items (m + 1) child ++ (items m next ++ post))) =
          elementsLoop root m (i + (e.attributes.length + (items 0 child).length + 1))
            (items m next ++ post) := by
      rw [← append_assoc, elementsLoop_append hbelow, length_append, length_map,
        length_items (m + 1) 0]
      congr 1
      omega
    have hlength : (items m (.node e child next)).length =
        e.attributes.length + (items 0 child).length + 1 + (items m next).length := by
      rw [items, length_append, length_cons, length_append, length_map, length_items (m + 1) 0]
    have hvalues : (e.attributes.map (attributeItem m)).filterMap Item.ct =
        e.attributes.map Prod.snd := by
      rw [filterMap_map, ← filterMap_eq_map]
      rfl
    rw [hlength, items, append_assoc, cons_append, append_assoc, elementsLoop,
      if_pos ⟨rfl, rfl⟩, hattributes, hvalues, List.map_map, hloop, ihnext, nodesAt,
      cons_append, ← add_assoc i _ (items m next).length]
    rfl

/-- The elements at an index are taken out of the arrays with everything below them. -/
theorem readsBack_items (hpost : EndsLevel m post) (hlxml : lxml = pre ++ (items m t ++ post)) :
    ReadsBack lxml (nodesAt pre.length t) (withLeftover t) := by
  induction t generalizing m pre post with
  | nil => exact .nil
  | node e child next ihchild ihnext =>
    rw [items, append_assoc, cons_append, append_assoc] at hlxml
    have hchildlxml : lxml = (pre ++ elementItem m e (e.content ++ trailing child) ::
        e.attributes.map (attributeItem m)) ++ (items (m + 1) child ++ (items m next ++ post)) := by
      rw [hlxml, append_assoc, cons_append]
    have hnextlxml : lxml = (pre ++ elementItem m e (e.content ++ trailing child) ::
        (e.attributes.map (attributeItem m) ++ items (m + 1) child)) ++ (items m next ++ post) := by
      rw [hlxml, append_assoc, cons_append, append_assoc]
    have hbehind : EndsLevel (m + 1) (items m next ++ post) := hpost.items_append
    have hget : lxml[pre.length]? = some (elementItem m e (e.content ++ trailing child)) := by
      rw [hlxml, getElem?_append_right (Nat.le_refl _), Nat.sub_self]
      rfl
    have hdrop : lxml.drop (pre.length + 1) = e.attributes.map (attributeItem m) ++
        (items (m + 1) child ++ (items m next ++ post)) := by
      rw [hlxml, drop_append, drop_eq_nil_of_le (Nat.le_succ _), Nat.add_sub_cancel_left]
      rfl
    have hbelow : ∀ item ∈ e.attributes.map (attributeItem m), item.tp = .XML_ELEM → m + 1 < item.rl := by
      intro item hitem htp
      obtain ⟨a, -, rfl⟩ := mem_map.mp hitem
      cases htp
    have hnodes : elementsLoop false (m + 1) (pre.length + 1) (lxml.drop (pre.length + 1)) =
        nodesAt (pre ++ elementItem m e (e.content ++ trailing child) ::
          e.attributes.map (attributeItem m)).length child := by
      rw [hdrop, elementsLoop_append hbelow, elementsLoop_items fun item h => (hbehind item h).1,
        elementsLoop_of_endsLevel hbehind, append_nil, length_append, length_cons]
      congr 1
      omega
    have hindex : pre.length + (e.attributes.length + (items 0 child).length + 1) =
        (pre ++ elementItem m e (e.content ++ trailing child) ::
          (e.attributes.map (attributeItem m) ++ items (m + 1) child)).length := by
      rw [length_append, length_cons, length_append, length_map, length_items (m + 1) 0]
    refine .node rfl rfl rfl rfl ?_ ?_
    · rw [getElementsByNode]
      rw [hget]
      change ReadsBack lxml (elementsLoop false (m + 1) (pre.length + 1) _) _
      rw [hnodes]
      exact ihchild hbehind hchildlxml
    · rw [hindex]
      exact ihnext hpost hnextlxml

/-- Two trees agree, but for the content of elements whose last child is empty and has
attributes. -/
def Agree : Elements → Elements → Prop
  | .nil, .nil => True
  | .node e child next, .node e' child' next' =>
    e'.name = e.name ∧ e'.attributes = e.attributes ∧ (trailing child = [] → e'.content = e.content) ∧
      Agree child child' ∧ Agree next next'
  | _, _ => False

theorem agree_withLeftover (t : Elements) : Agree t (withLeftover t) := by
  induction t with
  | nil => trivial
  | node e child next ihchild ihnext =>
    refine ⟨rfl, rfl, fun htrailing => ?_, ihchild, ihnext⟩
    rw [htrailing]
    exact append_nil _

/-- A printed tree is read, and what is taken out of the arrays agrees with it. -/
theorem readXml_print {t : Elements} (hplain : Plain 0 t) (hreg : Regular t) :
    ∃ lxml t', osReadXml (print t) = .ok lxml ∧
      ReadsBack lxml (getElementsByNode lxml none) t' ∧ Agree t t' := by
  refine ⟨items 0 t, withLeftover t, osReadXml_print hplain hreg, ?_, agree_withLeftover t⟩
  have hends : EndsLevel 0 [] := fun item h => by cases h
  have hback : ReadsBack (items 0 t) (nodesAt ([] : OSXml).length t) (withLeftover t) :=
    readsBack_items hends (by rw [nil_append, append_nil])
  have hnodes : elementsLoop true 0 0 (items 0 t ++ []) = nodesAt 0 t ++ _ :=
    elementsLoop_items fun item h => by cases h
  rw [append_nil, elementsLoop, append_nil] at hnodes
  rw [getElementsByNode, hnodes]
  exact hback

/-- An element with an attribute, and a text in the element below it. -/
theorem readXml_print_child :
    ∃ lxml t', osReadXml (lit "<a k=\"v\"><b>x</b></a>") = .ok lxml ∧
      ReadsBack lxml (getElementsByNode lxml none) t' ∧
      Agree (.node ⟨lit "a", [(lit "k", lit "v")], []⟩ (.node ⟨lit "b", [], lit "x"⟩ .nil .nil) .nil)
        t' := by
  have hb : Element.Plain ⟨lit "b", [], lit "x"⟩ .nil := {
    name_ne_nil := by decide
    name := forall_mem_of_all (by decide)
    name_head := by decide
    name_length := by decide
    name_length_slash := by decide
    attr := forall_mem_nil _
    attr_length := by decide
    value := forall_mem_nil _
    value_length := by decide
    content := forall_mem_of_all (by decide)
    content_length := by decide }
  have ha : Element.Plain ⟨lit "a", [(lit "k", lit "v")], []⟩
      (.node ⟨lit "b", [], lit "x"⟩ .nil .nil) := {
    name_ne_nil := by decide
    name := forall_mem_of_all (by decide)
    name_head := by decide
    name_length := by decide
    name_length_slash := by decide
    attr := forall_mem_singleton.mpr (forall_mem_of_all (by decide))
    attr_length := by decide
    value := forall_mem_singleton.mpr (forall_mem_of_all (by decide))
    value_length := by decide
    content := forall_mem_of_all (by decide)
    content_length := by decide }
  exact readXml_print (t := .node ⟨lit "a", [(lit "k", lit "v")], []⟩
    (.node ⟨lit "b", [], lit "x"⟩ .nil .nil) .nil)
    ⟨ha, Or.inl rfl, by decide, ⟨hb, Or.inr rfl, by decide, trivial, trivial⟩, trivial⟩
    ⟨⟨by decide, by decide, by decide⟩, ⟨⟨by decide, by decide, by decide⟩, trivial, trivial⟩, trivial⟩

/-- A variable is not an element, an attribute stands once, and the `>` behind an empty element with
attributes becomes the content of the element around it. -/
theorem not_readXml_print_exact :
    (∃ lxml, osReadXml (print (.node ⟨lit "var", [], lit "x"⟩ .nil .nil)) = .ok lxml ∧
      ∀ t', ReadsBack lxml (getElementsByNode lxml none) t' → t' = .nil) ∧
    osReadXml (print (.node ⟨lit "a", [(lit "k", lit "v"), (lit "k", lit "w")], []⟩ .nil .nil)) =
      .error (lit "XMLERR: Attribute 'k' already defined.") ∧
    ∃ lxml, osReadXml (print (.node ⟨lit "a", [], []⟩
        (.node ⟨lit "b", [(lit "k", lit "v")], []⟩ .nil .nil) .nil)) = .ok lxml ∧
      ∀ e child next, ReadsBack lxml (getElementsByNode lxml none) (.node e child next) →
        e.content = lit ">" := by
  refine ⟨⟨_, by rfl, ?_⟩, by rfl, _, by rfl, ?_⟩
  · intro t' h
    have hnone : ∀ lxml nodes, ReadsBack lxml nodes t' → nodes = [] → t' = .nil := by
      rintro lxml nodes (_ | _) hnil
      · rfl
      · cases hnil
    exact hnone _ _ h (by decide)
  · intro e child next h
    have hcontent : ∀ lxml nodes, ReadsBack lxml nodes (.node e child next) →
        nodes.head?.bind XmlNode.content = some (lit ">") → e.content = lit ">" := by
      rintro lxml nodes (_ | ⟨-, -, -, hcontent, -, -⟩) hhead
      exact Option.some.inj (hcontent.symm.trans hhead)
    exact hcontent _ _ h (by decide)

end OsXml
