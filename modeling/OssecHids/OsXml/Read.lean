import OssecHids.Lib.Scanner
import OssecHids.Lib.Stream

/-!
# Reading XML

`os_xml.c`: a scanner that enters the elements, the attributes and the contents of a file into
arrays.

- `readElem`: the rounds of `_ReadElem`;
- `getAttributes`: the attributes of an element;
- `osReadXml_eq_ok_iff`: which files are read, and what is read.
-/

open CString List Option

namespace OsXml

def XML_MAXSIZE : ℕ := 8192
def XML_ERR_LENGTH : ℕ := 128

/-- `XML_TYPE` -/
inductive XmlType
  | XML_ATTR | XML_ELEM | XML_VARIABLE_BEGIN
  deriving DecidableEq, Repr

/-- What the arrays of `OS_XML` hold at one index. -/
structure Item where
  el : Bytes
  ct : Option Bytes
  tp : XmlType
  rl : ℕ
  ck : Bool
  deriving DecidableEq, Repr

/-- `OS_XML`; `cur` is the length. -/
abbrev OSXml := List Item

/-- `xml_error` -/
def xmlError (msg : Bytes) : Bytes := msg.take (XML_ERR_LENGTH - 2)

/-- `strcasecmp(s, t) == 0` -/
def strcasecmpEq (s t : Bytes) : Bool :=
  let tolower (b : UInt8) : UInt8 := if 65 ≤ b ∧ b ≤ 90 then b + 32 else b
  (str s).map tolower == (str t).map tolower

/-- `_writememory` -/
def writeMemory (s : Bytes) (type : XmlType) (parent : ℕ) (lxml : OSXml) : OSXml :=
  lxml ++ [{
    el := str s
    ct := none
    tp := if strcasecmpEq (lit "var") s then .XML_VARIABLE_BEGIN else type
    rl := parent
    ck := type == .XML_ATTR }]

/-- `_writecontent` -/
def writeContent (s : Bytes) (parent : ℕ) (lxml : OSXml) : OSXml :=
  lxml.modify parent fun item => { item with ct := some (str s) }

/-- `_writecontent`, and the element is closed. -/
def closeItem (s : Bytes) (currentlycont : ℕ) (lxml : OSXml) : OSXml :=
  (writeContent s currentlycont lxml).modify currentlycont fun item => { item with ck := true }

/-! ## Comments and the declaration -/

/-- The loop of `_oscomment`: what is behind the comment. -/
def commentLoop : ℕ → Bytes → Option Bytes
  | 0, _ => none
  | _ + 1, [] => none
  | fuel + 1, c :: fp =>
    if c = chr '!' then
      if fp.head? = some (chr '>') then some fp.tail else commentLoop fuel fp
    else if c = chr '-' ∧ fp.head? = some (chr '-') then
      match fp.tail with
      | [] => commentLoop fuel []
      -- the byte behind two dashes is put back twice
      | c :: rest => if c = chr '>' then some rest else commentLoop fuel (c :: c :: rest)
    else commentLoop fuel fp

/-- `_oscomment`, behind a `<`: whether there is a comment, and what is behind it; there is nothing
when the comment is not closed. -/
def osComment (fp : Bytes) : Option (Bool × Bytes) :=
  match fp with
  | [] => some (false, [])
  | c :: rest =>
    if c = chr '!' then (commentLoop rest.length rest).map fun rest => (true, rest)
    else some (false, c :: rest)

/-- What is behind the end of a declaration. -/
def declarationEnd : UInt8 → Bytes → Option Bytes
  | _, [] => none
  | prev, c :: fp => if prev = chr '?' ∧ c = chr '>' then some fp else declarationEnd c fp

/-- `_skip_xml_declaration` -/
def skipXmlDeclaration (fp : Bytes) : Option Bytes :=
  let fp := if [0xEF, 0xBB, 0xBF].isPrefixOf fp then fp.drop 3 else fp
  if (lit "<?xml").isPrefixOf fp then declarationEnd (chr 'l') (fp.drop 5) else some fp

/-! ## Attributes -/

/-- The local variables of `_getattributes`; `inValue` is location 1. -/
structure AttrState where
  inValue : Bool
  attr : Bytes
  value : Bytes
  cToMatch : UInt8

def AttrState.init : AttrState := { inValue := false, attr := [], value := [], cToMatch := 0 }

def AttrState.count (st : AttrState) : ℕ := if st.inValue then st.value.length else st.attr.length

/-- The quote in front of a value; there may be blanks in front of it. -/
def attrQuote (fp : Bytes) : Option (UInt8 × Bytes) :=
  match fp.dropWhile isSpace with
  | [] => none
  | c :: rest => if c = chr '"' ∨ c = chr '\'' then some (c, rest) else none

/-- Whether the element that was written last has an attribute. -/
def alreadyDefined (attr : Bytes) (parent : ℕ) (lxml : OSXml) : Bool :=
  (lxml.reverse.takeWhile fun item => item.rl == parent && item.tp == .XML_ATTR).any fun item =>
    item.el == str attr

/-- The loop of `_getattributes`: whether the element ends with `/`, what is behind the attributes,
and the attributes written. -/
def attributesLoop (parent : ℕ) :
    ℕ → AttrState → Bytes → OSXml → Except Bytes (Bool × Bytes × OSXml)
  | 0, _, _, _ => .error (xmlError (lit "XMLERR: End of file while reading an attribute."))
  | _ + 1, _, [], _ => .error (xmlError (lit "XMLERR: End of file while reading an attribute."))
  | fuel + 1, st, c :: fp, lxml =>
    let named := lit "XMLERR: Attribute '" ++ str st.attr
    if st.count ≥ XML_MAXSIZE then
      .error (xmlError
        (lit "XMLERR: Overflow attempt at attribute '" ++ (str st.attr).take 20 ++ lit "'."))
    else if c = chr '>' ∨ (st.inValue = false ∧ c = chr '/') then
      if st.inValue then .error (xmlError (named ++ lit "' not closed."))
      else if st.count > 0 then .error (xmlError (named ++ lit "' has no value."))
      else .ok (c == chr '/', fp, lxml)
    else if st.inValue = false ∧ c = chr '=' then
      if alreadyDefined st.attr parent lxml then
        .error (xmlError (named ++ lit "' already defined."))
      else
        match attrQuote fp with
        | none => .error (xmlError (named ++ lit "' not followed by a \" or '."))
        | some (c, fp) =>
          attributesLoop parent fuel { st with inValue := true, cToMatch := c } fp lxml
    else if st.inValue = false ∧ isSpace c then
      if st.count = 0 then attributesLoop parent fuel st fp lxml
      else .error (xmlError (named ++ lit "' has no value."))
    else if st.inValue ∧ c = st.cToMatch then
      let lxml := writeMemory st.attr .XML_ATTR parent lxml
      let lxml := writeContent st.value (lxml.length - 1) lxml
      let bad := .error (xmlError
        (lit "XMLERR: Bad attribute closing for '" ++ str st.attr ++ lit "'='" ++ str st.value ++
          lit "'."))
      match fp with
      | [] => bad
      | c :: fp =>
        if isSpace c then attributesLoop parent fuel AttrState.init fp lxml
        else if c = chr '>' then .ok (false, fp, lxml)
        else if c = chr '/' then .ok (true, fp, lxml)
        else bad
    else if st.inValue then attributesLoop parent fuel { st with value := st.value ++ [c] } fp lxml
    else attributesLoop parent fuel { st with attr := st.attr ++ [c] } fp lxml

/-- `_getattributes` -/
def getAttributes (fp : Bytes) (parent : ℕ) (lxml : OSXml) : Except Bytes (Bool × Bytes × OSXml) :=
  attributesLoop parent (fp.length + 1) AttrState.init fp lxml

/-! ## Elements -/

/-- `location`: -1, 0, 1 and 2. -/
inductive Location
  | outside | elem | cont | closedelim
  deriving DecidableEq, Repr

/-- The local variables of `_ReadElem`. -/
structure ReadState where
  location : Location
  elem : Bytes
  cont : Bytes
  closedelim : Bytes
  prevv : Bool
  currentlycont : ℕ

def ReadState.init : ReadState := {
  location := .outside
  elem := []
  cont := []
  closedelim := []
  prevv := false
  currentlycont := 0 }

/-- `count`: how much there is in the buffer that the location fills. -/
def ReadState.count (st : ReadState) : ℕ :=
  match st.location with
  | .outside => 0
  | .elem => st.elem.length
  | .cont => st.cont.length
  | .closedelim => st.closedelim.length

/-- The values that `_ReadElem` returns when it does not fail: 0 and `LEOF`. -/
inductive Retval
  | closed | leof
  deriving DecidableEq, Repr

abbrev ReadRound := Round UInt8 ReadState OSXml Bytes Retval

/-- An element was closed: a child returns, and the next element of the top level may follow. -/
def closed (parent : ℕ) (st : ReadState) (fp : Bytes) (lxml : OSXml) : ReadRound :=
  if parent > 0 then .close .closed fp lxml
  else .next { ReadState.init with prevv := st.prevv } fp lxml

/-- A name that ends with `/` belongs to an element that is closed already. -/
def ReadState.slash (st : ReadState) : Bool := st.elem.getLast? == some (chr '/')

/-- The name of an element, without the `/` at its end. -/
def ReadState.elemName (st : ReadState) : Bytes := if st.slash then st.elem.dropLast else st.elem

/-- The attributes, if a blank is behind the name. -/
def readAttributes (c : UInt8) (fp : Bytes) (parent : ℕ) (lxml : OSXml) :
    Except Bytes (Bool × Bytes × OSXml) :=
  if isSpace c then getAttributes fp parent lxml else .ok (false, fp, lxml)

/-- The end of an element name. -/
def openElem (parent : ℕ) (st : ReadState) (c : UInt8) (fp : Bytes) (lxml : OSXml) : ReadRound :=
  let currentlycont := lxml.length
  match readAttributes c fp parent (writeMemory st.elemName .XML_ELEM parent lxml) with
  | .error e => .fail e
  | .ok (ga, fp, lxml) =>
    if st.slash || ga then closed parent st fp (closeItem [] currentlycont lxml)
    else .next { st with location := .cont, currentlycont := currentlycont } fp lxml

/-- The end of a closing name. -/
def closeElem (parent : ℕ) (st : ReadState) (fp : Bytes) (lxml : OSXml) : ReadRound :=
  if str st.closedelim ≠ str st.elem then
    .fail (xmlError (lit "XMLERR: Element '" ++ str st.elem ++ lit "' not closed."))
  else closed parent st fp (closeItem st.cont st.currentlycont lxml)

/-- A byte that is stored. -/
def ReadState.store (st : ReadState) (c : UInt8) : ReadState :=
  let st := match st.location with
    | .outside => st
    | .elem => { st with elem := st.elem ++ [c] }
    | .cont => { st with cont := st.cont ++ [c] }
    | .closedelim => { st with closedelim := st.closedelim ++ [c] }
  { st with prevv := st.prevv && c != chr '<' }

/-- The "real checking" of a round. -/
def readChecked (parent : ℕ) (st : ReadState) (c : UInt8) (fp : Bytes) (lxml : OSXml) : ReadRound :=
  if st.location = .outside ∧ st.prevv = false then
    if c = chr '<' then
      if fp.head? = some (chr '/') then .fail (xmlError (lit "XMLERR: Element not opened."))
      else .next { st with location := .elem } fp lxml
    else .next st fp lxml
  else if st.location = .elem ∧ (c = chr '>' ∨ isSpace c) then openElem parent st c fp lxml
  else if st.location = .closedelim ∧ c = chr '>' then closeElem parent st fp lxml
  else if st.location = .cont ∧ c = chr '<' ∧ st.prevv = false then
    if fp.head? = some (chr '/') then .next { st with location := .closedelim } fp.tail lxml
    else .child (c :: fp) lxml
  else .next (st.store c) fp lxml

/-- The backslash is remembered over the `<` behind it. -/
def ReadState.escape (st : ReadState) (c : UInt8) : ReadState :=
  { st with prevv := c == chr '\\' || (st.prevv && c == chr '<') }

/-- The check for comments. -/
def checkComment (c : UInt8) (fp : Bytes) : Option (Bool × Bytes) :=
  if c = chr '<' then osComment fp else some (false, fp)

/-- A round of `_ReadElem`. -/
def readRound (parent : ℕ) (st : ReadState) (c : UInt8) (fp : Bytes) (lxml : OSXml) : ReadRound :=
  if (st.escape c).count ≥ XML_MAXSIZE then .fail (xmlError (lit "XMLERR: String overflow."))
  else
    match checkComment c fp with
    | none => .fail (xmlError (lit "XMLERR: Comment not closed."))
    | some (true, fp) => .next (st.escape c) fp lxml
    | some (false, fp) => readChecked parent (st.escape c) c fp lxml

/-- `_ReadElem`; `recursion_level` is `parent + 1`. -/
def readElem : Scanner UInt8 ReadState OSXml Bytes Retval where
  round := readRound
  finish := fun _ st =>
    if st.location = .outside then .ok .leof
    else .error (xmlError (lit "XMLERR: End of file and some elements were not closed."))
  enter := fun parent _ =>
    if parent + 2 > 1024 then .error (xmlError (lit "XMLERR: Max recursion level reached."))
    else .ok ReadState.init
  leave := fun st r =>
    match r with
    | .closed => .ok { st with cont := [] }
    | .leof => .error []

/-- `OS_ReadXML`, of the bytes of a file: the arrays, or the error. -/
def osReadXml (file : Bytes) : Except Bytes OSXml :=
  match skipXmlDeclaration file with
  | none => .error (xmlError (lit "XMLERR: XML declaration not closed."))
  | some fp =>
    match readElem.run ReadState.init fp [] with
    | some (.ok (_, _, lxml)) =>
      match lxml.find? fun item => !item.ck with
      | some item => .error (xmlError (lit "XMLERR: Element '" ++ item.el ++ lit "' not closed."))
      | none => .ok lxml
    | some (.error e) => .error e
    | none => .error []

/-! ## The rounds get on -/

theorem length_le_commentLoop {fuel : ℕ} {fp rest : Bytes} (h : commentLoop fuel fp = some rest) :
    rest.length ≤ fp.length := by
  induction fuel generalizing fp with
  | zero => cases h
  | succ fuel ih =>
    cases fp with
    | nil => cases h
    | cons c fp =>
      have hrec : ∀ {fp' : Bytes}, fp'.length ≤ fp.length + 1 → commentLoop fuel fp' = some rest →
          rest.length ≤ (c :: fp).length := fun hlen h => le_trans (ih h) hlen
      rw [commentLoop] at h
      split_ifs at h with _ _ hdash
      · cases h
        rw [length_tail, length_cons]
        omega
      · exact hrec (Nat.le_succ _) h
      · obtain ⟨tail, rfl⟩ := head?_eq_some_iff.mp hdash.2
        rw [tail_cons] at h
        cases tail with
        | nil => exact hrec (Nat.zero_le _) h
        | cons c' rest' =>
          dsimp only at h
          split_ifs at h
          · cases h
            simp only [length_cons]
            omega
          · have hlen : (c' :: c' :: rest').length ≤ (chr '-' :: c' :: rest').length + 1 :=
              Nat.le_succ _
            exact hrec hlen h
      · exact hrec (Nat.le_succ _) h

theorem length_le_osComment {fp rest : Bytes} {b : Bool} (h : osComment fp = some (b, rest)) :
    rest.length ≤ fp.length := by
  cases fp with
  | nil =>
    cases h
    exact le_rfl
  | cons c fp =>
    rw [osComment] at h
    split_ifs at h
    · obtain ⟨rest', hloop, heq⟩ := map_eq_some_iff.mp h
      cases heq
      exact Nat.le_succ_of_le (length_le_commentLoop hloop)
    · cases h
      exact le_rfl

theorem length_le_attrQuote {fp rest : Bytes} {c : UInt8} (h : attrQuote fp = some (c, rest)) :
    rest.length ≤ fp.length := by
  have hdrop := (dropWhile_sublist (p := isSpace) (l := fp)).length_le
  rw [attrQuote] at h
  cases hfp : fp.dropWhile isSpace with
  | nil =>
    rw [hfp] at h
    cases h
  | cons c' rest' =>
    rw [hfp] at h hdrop
    dsimp only at h
    split_ifs at h
    cases h
    exact Nat.le_of_succ_le hdrop

theorem length_le_attributesLoop {parent fuel : ℕ} {st : AttrState} {fp rest : Bytes}
    {lxml lxml' : OSXml} {b : Bool}
    (h : attributesLoop parent fuel st fp lxml = .ok (b, rest, lxml')) :
    rest.length ≤ fp.length := by
  induction fuel generalizing st fp lxml with
  | zero => cases h
  | succ fuel ih =>
    cases fp with
    | nil => cases h
    | cons c fp =>
      rw [attributesLoop] at h
      split_ifs at h
      · cases h
        exact Nat.le_succ _
      · split at h
        · cases h
        · rename_i hquote
          have := length_le_attrQuote hquote
          have := ih h
          rw [length_cons]
          omega
      · exact Nat.le_succ_of_le (ih h)
      · split at h
        · cases h
        · rename_i c' fp
          rw [length_cons, length_cons]
          split_ifs at h
          · have := ih h
            omega
          · cases h
            omega
          · cases h
            omega
      · exact Nat.le_succ_of_le (ih h)
      · exact Nat.le_succ_of_le (ih h)

variable {parent : ℕ} {st st' : ReadState} {c : UInt8} {fp rest : Bytes} {lxml lxml' : OSXml}

theorem length_le_getAttributes {b : Bool}
    (h : getAttributes fp parent lxml = .ok (b, rest, lxml')) : rest.length ≤ fp.length :=
  length_le_attributesLoop h

/-- What is left of the input after a round: no round gives a byte back, but one that begins a
level. -/
def Round.Shrinks {α σ ω ε ρ : Type} (n : ℕ) : Round α σ ω ε ρ → Prop
  | .fail _ => True
  | .close _ rest _ => rest.length ≤ n
  | .next _ rest _ => rest.length ≤ n
  | .child rest _ => rest.length ≤ n + 1

theorem shrinks_closed {n : ℕ} (h : fp.length ≤ n) : Round.Shrinks n (closed parent st fp lxml) := by
  rw [closed]
  split_ifs <;> exact h

theorem length_le_readAttributes {b : Bool}
    (h : readAttributes c fp parent lxml = .ok (b, rest, lxml')) : rest.length ≤ fp.length := by
  rw [readAttributes] at h
  split_ifs at h
  · exact length_le_getAttributes h
  · cases h
    exact le_rfl

theorem shrinks_openElem {n : ℕ} (h : fp.length ≤ n) :
    Round.Shrinks n (openElem parent st c fp lxml) := by
  rw [openElem]
  split
  · trivial
  · rename_i hattributes
    have hrest := le_trans (length_le_readAttributes hattributes) h
    split_ifs
    · exact shrinks_closed hrest
    · exact hrest

theorem shrinks_closeElem {n : ℕ} (h : fp.length ≤ n) :
    Round.Shrinks n (closeElem parent st fp lxml) := by
  rw [closeElem]
  split_ifs
  · trivial
  · exact shrinks_closed h

theorem shrinks_readChecked {n : ℕ} (h : fp.length ≤ n) :
    Round.Shrinks n (readChecked parent st c fp lxml) := by
  rw [readChecked]
  split_ifs
  · trivial
  · exact h
  · exact h
  · exact shrinks_openElem h
  · exact shrinks_closeElem h
  · have htail : fp.tail.length ≤ fp.length := by
      rw [length_tail]
      exact Nat.sub_le _ _
    exact le_trans htail h
  · exact Nat.succ_le_succ h
  · exact h

theorem length_le_checkComment {b : Bool} (h : checkComment c fp = some (b, rest)) :
    rest.length ≤ fp.length := by
  rw [checkComment] at h
  split_ifs at h
  · exact length_le_osComment h
  · cases h
    exact le_rfl

theorem shrinks_readRound : Round.Shrinks fp.length (readRound parent st c fp lxml) := by
  rw [readRound]
  split_ifs
  · trivial
  · split
    · trivial
    · rename_i hcomment
      exact length_le_checkComment hcomment
    · rename_i hcomment
      exact shrinks_readChecked (length_le_checkComment hcomment)

theorem openElem_ne_child : openElem parent st c fp lxml ≠ .child rest lxml' := by
  intro h
  rw [openElem] at h
  split at h
  · cases h
  · rw [closed] at h
    split_ifs at h

theorem closeElem_ne_child : closeElem parent st fp lxml ≠ .child rest lxml' := by
  intro h
  rw [closeElem, closed] at h
  split_ifs at h

theorem location_of_child (h : readRound parent st c fp lxml = .child rest lxml') :
    st.location = .cont := by
  rw [readRound] at h
  split_ifs at h
  split at h
  · cases h
  · cases h
  · rw [readChecked] at h
    split_ifs at h with _ _ _ _ _ hcont
    · exact absurd h openElem_ne_child
    · exact absurd h closeElem_ne_child
    · exact hcont.1

theorem progress_readElem : readElem.Progress fun st => st.location == .cont where
  close := fun {d st c rest out r rest' out'} h => by
    have hshrinks : Round.Shrinks rest.length (readRound d st c rest out) := shrinks_readRound
    rw [show readRound d st c rest out = _ from h] at hshrinks
    exact hshrinks
  next := fun {d st c rest out st' rest' out'} h => by
    have hshrinks : Round.Shrinks rest.length (readRound d st c rest out) := shrinks_readRound
    rw [show readRound d st c rest out = _ from h] at hshrinks
    exact hshrinks
  child := fun {d st c rest out rest' out'} h => by
    have hshrinks : Round.Shrinks rest.length (readRound d st c rest out) := shrinks_readRound
    rw [show readRound d st c rest out = _ from h] at hshrinks
    exact ⟨beq_iff_eq.mpr (location_of_child h), hshrinks⟩
  enter := fun {d st st'} h => by
    rw [readElem] at h
    dsimp only at h
    split_ifs at h
    cases h
    rfl

/-- Which files are read: the scanner gets through, and every element is closed. -/
theorem osReadXml_eq_ok_iff {file : Bytes} :
    osReadXml file = .ok lxml ↔
      (∃ fp r rest, skipXmlDeclaration file = some fp ∧
        readElem.Accepts 0 ReadState.init fp [] r rest lxml) ∧ ∀ item ∈ lxml, item.ck = true := by
  rw [osReadXml]
  cases hskip : skipXmlDeclaration file with
  | none => simp
  | some fp =>
    simp only [some.injEq, exists_and_left, exists_eq_left', ← Scanner.run_eq_ok_iff
      progress_readElem]
    obtain ⟨x, hx⟩ : ∃ x, readElem.run ReadState.init fp [] = some x :=
      isSome_iff_exists.mp (Scanner.isSome_run progress_readElem)
    rw [hx]
    rcases x with e | ⟨r, rest, lxml'⟩
    · simp
    · dsimp only
      cases hfind : lxml'.find? fun item => !item.ck with
      | none =>
        have hck : ∀ item ∈ lxml', item.ck = true := by simpa using find?_eq_none.mp hfind
        simp only [Except.ok.injEq, some.injEq, Prod.mk.injEq]
        constructor
        · rintro rfl
          exact ⟨⟨r, rest, rfl, rfl, rfl⟩, hck⟩
        · rintro ⟨⟨_, _, -, -, h⟩, -⟩
          exact h
      | some item =>
        have hmem := mem_of_find?_eq_some hfind
        have hck : item.ck = false := by simpa using find?_some hfind
        refine iff_of_false (by simp) ?_
        rintro ⟨⟨_, _, heq⟩, hall⟩
        cases heq
        rw [hall item hmem] at hck
        cases hck

/-! ## Writing -/

theorem modify_append_cons {α : Type} (f : α → α) (l l' : List α) (a : α) :
    (l ++ a :: l').modify l.length f = l ++ f a :: l' := by
  induction l with
  | nil => rfl
  | cons b l ih => rw [cons_append, length_cons, modify_succ_cons, ih, cons_append]

theorem writeContent_append_cons (s : Bytes) (l l' : OSXml) (item : Item) :
    writeContent s l.length (l ++ item :: l') = l ++ { item with ct := some (str s) } :: l' :=
  modify_append_cons _ _ _ _

theorem closeItem_append_cons (s : Bytes) (l l' : OSXml) (item : Item) :
    closeItem s l.length (l ++ item :: l') =
      l ++ { item with ct := some (str s), ck := true } :: l' := by
  rw [closeItem, writeContent_append_cons, modify_append_cons]

/-! ## Rounds by location -/

theorem escape_eq (hprevv : st.prevv = false) (hc : c ≠ chr '\\') : st.escape c = st := by
  rw [ReadState.escape, hprevv, beq_eq_false_iff_ne.mpr hc]
  cases st
  cases hprevv
  rfl

theorem readRound_of_ne (hprevv : st.prevv = false) (hcount : st.count < XML_MAXSIZE)
    (hc : c ≠ chr '\\') (hlt : c ≠ chr '<') :
    readRound parent st c fp lxml = readChecked parent st c fp lxml := by
  rw [readRound, escape_eq hprevv hc, if_neg (not_le.mpr hcount), checkComment, if_neg hlt]

theorem readRound_lt (hprevv : st.prevv = false) (hcount : st.count < XML_MAXSIZE)
    (hfp : fp.head? ≠ some (chr '!')) :
    readRound parent st (chr '<') fp lxml = readChecked parent st (chr '<') fp lxml := by
  have hcomment : osComment fp = some (false, fp) := by
    cases fp with
    | nil => rfl
    | cons c fp =>
      have hc : c ≠ chr '!' := fun heq => hfp (by rw [heq]; rfl)
      rw [osComment, if_neg hc]
  rw [readRound, escape_eq hprevv (by decide), if_neg (not_le.mpr hcount), checkComment,
    if_pos rfl, hcomment]

theorem readChecked_outside (h : st.location = .outside) (hprevv : st.prevv = false)
    (hc : c ≠ chr '<') : readChecked parent st c fp lxml = .next st fp lxml := by
  simp [readChecked, h, hprevv, hc]

theorem readChecked_open (h : st.location = .outside) (hprevv : st.prevv = false)
    (hfp : fp.head? ≠ some (chr '/')) :
    readChecked parent st (chr '<') fp lxml = .next { st with location := .elem } fp lxml := by
  simp [readChecked, h, hprevv, hfp]

theorem readChecked_elem (h : st.location = .elem) (hc : c ≠ chr '>') (hspace : isSpace c = false) :
    readChecked parent st c fp lxml = .next (st.store c) fp lxml := by
  simp [readChecked, h, hc, hspace]

theorem readChecked_elem_end (h : st.location = .elem) (hc : c = chr '>' ∨ isSpace c = true) :
    readChecked parent st c fp lxml = openElem parent st c fp lxml := by
  simp [readChecked, h, hc]

theorem readChecked_cont (h : st.location = .cont) (hc : c ≠ chr '<') :
    readChecked parent st c fp lxml = .next (st.store c) fp lxml := by
  simp [readChecked, h, hc]

theorem readChecked_close (h : st.location = .cont) (hprevv : st.prevv = false)
    (hfp : fp.head? = some (chr '/')) :
    readChecked parent st (chr '<') fp lxml =
      .next { st with location := .closedelim } fp.tail lxml := by
  simp [readChecked, h, hprevv, hfp]

theorem readChecked_child (h : st.location = .cont) (hprevv : st.prevv = false)
    (hfp : fp.head? ≠ some (chr '/')) :
    readChecked parent st (chr '<') fp lxml = .child (chr '<' :: fp) lxml := by
  simp [readChecked, h, hprevv, hfp]

theorem readChecked_closedelim (h : st.location = .closedelim) (hc : c ≠ chr '>') :
    readChecked parent st c fp lxml = .next (st.store c) fp lxml := by
  simp [readChecked, h, hc]

theorem readChecked_closedelim_end (h : st.location = .closedelim) :
    readChecked parent st (chr '>') fp lxml = closeElem parent st fp lxml := by
  simp [readChecked, h]

end OsXml
