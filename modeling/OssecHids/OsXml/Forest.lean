import Mathlib.Data.List.Chain
import OssecHids.OsXml.RoundTrip

/-!
# The forest of a file

What `OS_ReadXML` enters into the arrays is a forest, and the file spells it.

- `Spells`: the texts that spell elements side by side; in front of an element and behind the last
  one stands a text, in which comments are left out and a `<` behind a backslash is a byte;
- `entries`: an element, its attributes, and its children one level below;
- `Follows`, `Reads`: what a level of `_ReadElem` has read when it ends;
- `osReadXml_forest`: a file that is read spells the forest that is entered.
-/

open CString List

namespace OsXml

/-! ## Texts -/

/-- The bytes that begin a comment. -/
def BeginsComment (c : UInt8) (s : Bytes) : Prop := c = chr '<' ∧ s.head? = some (chr '!')

/-- A name, up to the byte that ends it; comments are left out. -/
inductive Name (stop : UInt8 → Bool) : Bytes → Bytes → Bytes → UInt8 → Bytes → Prop
  | stop {acc c s} (hc : stop c = true) : Name stop acc (c :: s) acc c s
  | comment {acc s s' name c rest} (hcomment : commentLoop s.length s = some s')
      (hname : Name stop acc s' name c rest) :
      Name stop acc (chr '<' :: chr '!' :: s) name c rest
  | byte {acc b s name c rest} (hb : stop b = false) (hcomment : ¬ BeginsComment b s)
      (hname : Name stop (acc ++ [b]) s name c rest) : Name stop acc (b :: s) name c rest

/-- What ends the name of a tag. -/
def endsName (c : UInt8) : Bool := c == chr '>' || isSpace c

/-- What ends the name of a closing tag. -/
def endsClosing (c : UInt8) : Bool := c == chr '>'

/-- An attribute with this name is not of the type of attributes. -/
def isVar (name : Bytes) : Bool := strcasecmpEq (lit "var") name

/-- The attributes of a tag and its end, which may be a `/`. A name is read up to its `=`; `seen`
are the names in front of it. -/
inductive Attributes : List Bytes → Bytes → Bytes → List (Bytes × Bytes) → Bool → Bytes → Prop
  | close {seen c s} (hc : c = chr '>' ∨ c = chr '/') :
      Attributes seen [] (c :: s) [] (c == chr '/') s
  | blank {seen c s attributes slash rest} (hc : isSpace c = true)
      (h : Attributes seen [] s attributes slash rest) :
      Attributes seen [] (c :: s) attributes slash rest
  | name {seen acc c s attributes slash rest} (hc : c ∉ lit ">/=" ∧ isSpace c = false)
      (h : Attributes seen (acc ++ [c]) s attributes slash rest) :
      Attributes seen acc (c :: s) attributes slash rest
  | value {seen acc s quote value c s' attributes slash rest}
      (hnew : (∀ name ∈ seen, isVar name = false) → str acc ∉ seen)
      (hquote : attrQuote s = some (quote, value ++ quote :: c :: s'))
      (hvalue : quote ∉ value ∧ chr '>' ∉ value)
      (hend : isSpace c = true ∨ c = chr '>' ∨ c = chr '/')
      (h : Attributes (seen ++ [str acc]) [] (c :: s') attributes slash rest) :
      Attributes seen acc (chr '=' :: s) ((str acc, str value) :: attributes) slash rest

/-- What stands behind the name of a tag, which `c` ends. -/
def TagEnd (c : UInt8) (s : Bytes) (attributes : List (Bytes × Bytes)) (slash : Bool)
    (rest : Bytes) : Prop :=
  if isSpace c then Attributes [] [] s attributes slash rest
  else attributes = [] ∧ slash = false ∧ rest = s

/-- The name of a tag, without the `/` of an empty element. -/
def tagName (name : Bytes) : Bytes :=
  if name.getLast? = some (chr '/') then name.dropLast else name

/-- Elements side by side, with the texts between them: `acc` is what stands in front of the first
one, and `text` what stands behind the last one. The marks say whether a backslash stands in
front. -/
inductive Spells : Bool → Bytes → Bytes → Elements → Bytes → Bool → Bytes → Prop
  | nil {esc acc s} : Spells esc acc s .nil acc esc s
  | comment {esc acc s s' t text esc' rest} (hcomment : commentLoop s.length s = some s')
      (h : Spells esc acc s' t text esc' rest) :
      Spells esc acc (chr '<' :: chr '!' :: s) t text esc' rest
  | byte {esc acc c s t text esc' rest} (hc : c ≠ chr '<' ∨ esc = true)
      (hcomment : ¬ BeginsComment c s)
      (h : Spells (c == chr '\\') (acc ++ [c]) s t text esc' rest) :
      Spells esc acc (c :: s) t text esc' rest
  | empty {acc s name c s₁ attributes slash s₂ next text esc rest}
      (hname : Name endsName [] s name c s₁) (htag : TagEnd c s₁ attributes slash s₂)
      (hclosed : name.getLast? = some (chr '/') ∨ slash = true)
      (hnext : Spells false [] s₂ next text esc rest) :
      Spells false acc (chr '<' :: s) (.node ⟨str (tagName name), attributes, []⟩ .nil next) text
        esc rest
  | elem {acc s name c s₁ attributes s₂ child content s₃ closing s₄ next text esc rest}
      (hname : Name endsName [] s name c s₁) (htag : TagEnd c s₁ attributes false s₂)
      (hopen : name.getLast? ≠ some (chr '/'))
      (hchild : Spells false [] s₂ child content false (chr '<' :: chr '/' :: s₃))
      (hclosing : Name endsClosing [] s₃ closing (chr '>') s₄) (hsame : str closing = str name)
      (hnext : Spells false [] s₄ next text esc rest) :
      Spells false acc (chr '<' :: s) (.node ⟨str name, attributes, str content⟩ child next) text
        esc rest

/-- The file spells the elements, behind its declaration and up to its end. -/
def Spelled (file : Bytes) (t : Elements) : Prop :=
  ∃ s text esc, skipXmlDeclaration file = some s ∧ Spells false [] s t text esc []

/-! ## Entries -/

def typeOf (type : XmlType) (name : Bytes) : XmlType :=
  if isVar name then .XML_VARIABLE_BEGIN else type

def elementEntry (depth : ℕ) (e : Element) : Item := {
  el := e.name
  ct := some e.content
  tp := typeOf .XML_ELEM e.name
  rl := depth
  ck := true }

def attributeEntry (depth : ℕ) (a : Bytes × Bytes) : Item := {
  el := a.1
  ct := some a.2
  tp := typeOf .XML_ATTR a.1
  rl := depth
  ck := true }

/-- An element is followed by its attributes, and these by its children. -/
def entries (depth : ℕ) : Elements → OSXml
  | .nil => []
  | .node e child next =>
    elementEntry depth e :: (e.attributes.map (attributeEntry depth) ++
      (entries (depth + 1) child ++ entries depth next))

@[simp]
theorem entries_nil (d : ℕ) : entries d .nil = [] := rfl

theorem entries_node (d : ℕ) (e : Element) (child next : Elements) :
    entries d (.node e child next) =
      elementEntry d e :: (e.attributes.map (attributeEntry d) ++
        (entries (d + 1) child ++ entries d next)) := rfl

theorem entries_append (d : ℕ) (e : Element) (child next : Elements) :
    entries d (.node e child next) = entries d (.node e child .nil) ++ entries d next := by
  simp [entries_node]

/-! ## Attributes -/

variable {d : ℕ} {c : UInt8} {s rest fp : Bytes} {lxml out : OSXml}

theorem isVar_str (name : Bytes) : isVar (str name) = isVar name := by
  rw [isVar, isVar, strcasecmpEq, strcasecmpEq, str_str]

theorem writeContent_writeMemory (attr value : Bytes) (d : ℕ) (lxml : OSXml) :
    writeContent value ((writeMemory attr .XML_ATTR d lxml).length - 1)
        (writeMemory attr .XML_ATTR d lxml) =
      lxml ++ [attributeEntry d (str attr, str value)] := by
  have hlen : (writeMemory attr .XML_ATTR d lxml).length - 1 = lxml.length := by simp [writeMemory]
  rw [hlen, writeMemory, writeContent_append_cons]
  simp only [attributeEntry, typeOf, isVar_str]
  rfl

/-- The names of the attributes that are entered already are looked through up to a variable. -/
theorem str_notMem_of_alreadyDefined {lxml : OSXml} {item : Item} (hitem : item.tp ≠ .XML_ATTR)
    {seen : List (Bytes × Bytes)} {attr : Bytes}
    (h : alreadyDefined attr d (lxml ++ item :: seen.map (attributeEntry d)) = false) :
    (∀ name ∈ seen.map Prod.fst, isVar name = false) → str attr ∉ seen.map Prod.fst := by
  intro hvar hmem
  obtain ⟨a, ha, hname⟩ := mem_map.mp hmem
  have htake : ((lxml ++ item :: seen.map (attributeEntry d)).reverse.takeWhile fun item =>
      item.rl == d && item.tp == .XML_ATTR) = (seen.map (attributeEntry d)).reverse := by
    have hall : ∀ entry ∈ (seen.map (attributeEntry d)).reverse,
        (entry.rl == d && entry.tp == XmlType.XML_ATTR) = true := by
      intro entry hentry
      obtain ⟨b, hb, rfl⟩ := mem_map.mp (mem_reverse.mp hentry)
      have hbvar := hvar b.1 (mem_map_of_mem hb)
      simp [attributeEntry, typeOf, hbvar]
    have hsplit : (lxml ++ item :: seen.map (attributeEntry d)).reverse =
        (seen.map (attributeEntry d)).reverse ++ item :: lxml.reverse := by simp
    rw [hsplit, takeWhile_append_of_pos hall, takeWhile_cons_of_neg (by simp [hitem]), append_nil]
  rw [alreadyDefined, htake, any_eq_false] at h
  have hentry := h (attributeEntry d a) (mem_reverse.mpr (mem_map_of_mem ha))
  exact hentry (by simp [attributeEntry, hname])

/-- What the loop has read when it ends: inside a value the rest of it first. -/
def ReadsAttributes (st : AttrState) (seen : List Bytes) (s : Bytes)
    (attributes : List (Bytes × Bytes)) (slash : Bool) (rest : Bytes) : Prop :=
  if st.inValue then
    ∃ value c s' attributes', s = value ++ st.cToMatch :: c :: s' ∧
      (st.cToMatch ∉ value ∧ chr '>' ∉ value) ∧ (isSpace c = true ∨ c = chr '>' ∨ c = chr '/') ∧
      attributes = (str st.attr, str (st.value ++ value)) :: attributes' ∧
      Attributes (seen ++ [str st.attr]) [] (c :: s') attributes' slash rest
  else Attributes seen st.attr s attributes slash rest

/-- The attributes that the loop enters are the ones that the tag spells. -/
theorem readsAttributes_of_loop {item : Item} (hitem : item.tp ≠ .XML_ATTR) {fuel : ℕ}
    {st : AttrState} {seen : List (Bytes × Bytes)} {slash : Bool}
    (hst : st.inValue = false → st.value = [])
    (h : attributesLoop d fuel st fp (lxml ++ item :: seen.map (attributeEntry d)) =
      .ok (slash, rest, out)) :
    ∃ attributes, out = lxml ++ item :: (seen ++ attributes).map (attributeEntry d) ∧
      ReadsAttributes st (seen.map Prod.fst) fp attributes slash rest := by
  induction fuel generalizing st fp seen with
  | zero => cases h
  | succ fuel ih =>
    cases fp with
    | nil => cases h
    | cons c fp =>
      rw [attributesLoop] at h
      dsimp only at h
      split_ifs at h with hcount hclose hval hcnt hequals hdef hspace hcnt hquote hin
      · -- the end of the tag
        cases h
        have hattr : st.attr = [] := by
          simpa [AttrState.count, hval] using hcnt
        refine ⟨[], by simp, ?_⟩
        rw [ReadsAttributes, if_neg hval, hattr]
        exact .close (hclose.imp_right And.right)
      · -- the `=` behind a name, and the quote
        obtain ⟨hval, rfl⟩ := hequals
        cases hq : attrQuote fp with
        | none =>
          rw [hq] at h
          cases h
        | some q =>
          obtain ⟨quote, fp'⟩ := q
          rw [hq] at h
          obtain ⟨attributes, hout, hreads⟩ := ih (fun h => Bool.noConfusion h) h
          refine ⟨attributes, hout, ?_⟩
          rw [ReadsAttributes, if_pos rfl, hst hval] at hreads
          obtain ⟨value, c, s', attributes', rfl, hvalue, hend, rfl, hrest⟩ := hreads
          rw [ReadsAttributes, if_neg (by rw [hval]; exact Bool.false_ne_true)]
          exact .value (str_notMem_of_alreadyDefined hitem (Bool.eq_false_of_not_eq_true hdef)) hq
            hvalue hend hrest
      · -- a blank in front of a name
        obtain ⟨hval, hblank⟩ := hspace
        have hattr : st.attr = [] := by
          simpa [AttrState.count, hval] using hcnt
        obtain ⟨attributes, hout, hreads⟩ := ih hst h
        refine ⟨attributes, hout, ?_⟩
        rw [ReadsAttributes, if_neg (by rw [hval]; exact Bool.false_ne_true), hattr] at hreads ⊢
        exact .blank hblank hreads
      · -- the quote behind a value
        obtain ⟨hval, rfl⟩ := hquote
        rw [writeContent_writeMemory] at h
        have hentered : lxml ++ item :: seen.map (attributeEntry d) ++
            [attributeEntry d (str st.attr, str st.value)] =
              lxml ++ item :: (seen ++ [(str st.attr, str st.value)]).map (attributeEntry d) := by
          simp
        rw [hentered] at h
        -- what is behind the quote ends the attribute, or the tag
        obtain ⟨c, s', attributes, rfl, hend, hout, hrest⟩ : ∃ c s' attributes, fp = c :: s' ∧
            (isSpace c = true ∨ c = chr '>' ∨ c = chr '/') ∧
            out = lxml ++ item :: (seen ++ [(str st.attr, str st.value)] ++ attributes).map
              (attributeEntry d) ∧
            Attributes ((seen ++ [(str st.attr, str st.value)]).map Prod.fst) [] (c :: s')
              attributes slash rest := by
          cases fp with
          | nil => cases h
          | cons c s' =>
            dsimp only at h
            split_ifs at h with hblank hgt hslash
            · obtain ⟨attributes, hout, hreads⟩ := ih (fun _ => rfl) h
              exact ⟨c, s', attributes, rfl, .inl hblank, hout, .blank hblank hreads⟩
            · obtain ⟨rfl, rfl, rfl⟩ : false = slash ∧ s' = rest ∧ _ = out := by simpa using h
              exact ⟨c, s', [], rfl, .inr (.inl hgt), by simp, by
                rw [hgt]
                exact .close (.inl rfl)⟩
            · obtain ⟨rfl, rfl, rfl⟩ : true = slash ∧ s' = rest ∧ _ = out := by simpa using h
              exact ⟨c, s', [], rfl, .inr (.inr hslash), by simp, by
                rw [hslash]
                exact .close (.inr rfl)⟩
        refine ⟨(str st.attr, str st.value) :: attributes, by simpa using hout, ?_⟩
        rw [ReadsAttributes, if_pos hval]
        rw [map_append] at hrest
        exact ⟨[], c, s', attributes, rfl, ⟨not_mem_nil, not_mem_nil⟩, hend, by simp,
          hrest⟩
      · -- a byte of a value
        obtain ⟨attributes, hout, hreads⟩ :=
          ih (by exact fun h => absurd (hin.symm.trans h).symm Bool.false_ne_true) h
        refine ⟨attributes, hout, ?_⟩
        rw [ReadsAttributes, if_pos hin] at hreads ⊢
        obtain ⟨value, c', s', attributes', rfl, hvalue, hend, rfl, hrest⟩ := hreads
        have hquote' : st.cToMatch ≠ c := fun heq => hquote ⟨hin, heq.symm⟩
        have hgt : chr '>' ≠ c := fun heq => hclose (.inl heq.symm)
        refine ⟨c :: value, c', s', attributes', rfl, ?_, hend, by simp, hrest⟩
        simp [hvalue, hquote', hgt]
      · -- a byte of a name
        rw [Bool.not_eq_true] at hin
        obtain ⟨attributes, hout, hreads⟩ := ih (by exact fun _ => hst hin) h
        refine ⟨attributes, hout, ?_⟩
        rw [ReadsAttributes, if_neg (by rw [hin]; exact Bool.false_ne_true)] at hreads ⊢
        refine .name ⟨?_, by simpa [hin] using hspace⟩ hreads
        simp only [hin, true_and, not_or] at hclose hequals
        simpa [lit, hclose] using hequals

/-! ## Elements -/

/-- What stands behind the name of an element, up to the end of the element. -/
def Body (name : Bytes) (c : UInt8) (s : Bytes) (e : Element) (child : Elements) (rest : Bytes) :
    Prop :=
  (∃ attributes slash, TagEnd c s attributes slash rest ∧
    (name.getLast? = some (chr '/') ∨ slash = true) ∧
    e = ⟨str (tagName name), attributes, []⟩ ∧ child = .nil) ∨
  ∃ attributes s₂ content s₃ closing, TagEnd c s attributes false s₂ ∧
    name.getLast? ≠ some (chr '/') ∧
    Spells false [] s₂ child content false (chr '<' :: chr '/' :: s₃) ∧
    Name endsClosing [] s₃ closing (chr '>') rest ∧ str closing = str name ∧
    e = ⟨str name, attributes, str content⟩

theorem Spells.of_body {acc name s₁ s₂ text : Bytes} {e : Element} {child next : Elements}
    {esc : Bool} (hname : Name endsName [] s name c s₁) (hbody : Body name c s₁ e child s₂)
    (hnext : Spells false [] s₂ next text esc rest) :
    Spells false acc (chr '<' :: s) (.node e child next) text esc rest := by
  obtain ⟨attributes, slash, htag, hclosed, rfl, rfl⟩ |
    ⟨attributes, s₃, content, s₄, closing, htag, hopen, hchild, hclosing, hsame, rfl⟩ := hbody
  · exact .empty hname htag hclosed hnext
  · exact .elem hname htag hopen hchild hclosing hsame hnext

/-- What is read behind an element: on the top level the elements up to the end of the file, and
nothing on a level further down. -/
def Follows (d : ℕ) (s : Bytes) (lxml : OSXml) (rest : Bytes) (out : OSXml) : Prop :=
  ∃ next, out = lxml ++ entries d next ∧
    if d = 0 then rest = [] ∧ ∃ text esc, Spells false [] s next text esc []
    else next = .nil ∧ rest = s

/-- What a level of `_ReadElem` reads in the state `st` until it ends. -/
def Reads (d : ℕ) (st : ReadState) (s : Bytes) (lxml : OSXml) (r : Retval) (rest : Bytes)
    (out : OSXml) : Prop :=
  match st.location with
  | .outside => st.elem = [] → st.cont = [] → st.closedelim = [] →
    ∃ t, out = lxml ++ entries d t ∧
      if d = 0 then rest = [] ∧ ∀ acc, ∃ text esc, Spells st.prevv acc s t text esc []
      else r = .closed → ∃ e child, t = .node e child .nil ∧ ∀ acc next text esc rest',
        Spells false [] rest next text esc rest' →
          Spells st.prevv acc s (.node e child next) text esc rest'
  | .elem => st.cont = [] → st.closedelim = [] →
    ∃ name c s₁ e child s₂, Name endsName st.elem s name c s₁ ∧ Body name c s₁ e child s₂ ∧
      Follows d s₂ (lxml ++ entries d (.node e child .nil)) rest out
  | .cont => ∀ pre item more, lxml = pre ++ item :: more → pre.length = st.currentlycont →
    st.closedelim = [] → ∃ child content s₁ closing s₂,
      Spells st.prevv st.cont s child content false (chr '<' :: chr '/' :: s₁) ∧
      Name endsClosing [] s₁ closing (chr '>') s₂ ∧ str closing = str st.elem ∧
      Follows d s₂ (pre ++ { item with ct := some (str content), ck := true } :: more ++
        entries (d + 1) child) rest out
  | .closedelim => ∀ pre item more, lxml = pre ++ item :: more →
    pre.length = st.currentlycont → ∃ closing s₁,
      Name endsClosing st.closedelim s closing (chr '>') s₁ ∧ str closing = str st.elem ∧
      Follows d s₁ (pre ++ { item with ct := some (str st.cont), ck := true } :: more) rest out

/-- How a level goes on behind a round. -/
def GoesOn (d : ℕ) (round : ReadRound) (r : Retval) (rest : Bytes) (out : OSXml) : Prop :=
  round = .close r rest out ∨
    ∃ st s lxml, round = .next st s lxml ∧ Reads d st s lxml r rest out

section Rounds

variable {st : ReadState} {r : Retval}

/-- A round skips a comment, or looks at a byte. -/
theorem readRound_cases (hround : ∀ e, readRound d st c fp lxml ≠ .fail e) :
    (∃ s s', c = chr '<' ∧ fp = chr '!' :: s ∧ commentLoop s.length s = some s' ∧
      readRound d st c fp lxml = .next st s' lxml) ∨
    ¬ BeginsComment c fp ∧ readRound d st c fp lxml = readChecked d (st.escape c) c fp lxml := by
  rw [readRound] at hround ⊢
  split_ifs at hround ⊢
  · exact absurd rfl (hround _)
  by_cases hcomment : BeginsComment c fp
  · left
    obtain ⟨rfl, hhead⟩ := hcomment
    obtain ⟨s, rfl⟩ := head?_eq_some_iff.mp hhead
    have hescape : st.escape (chr '<') = st := by
      have hbackslash : (chr '<' == chr '\\') = false := by decide
      cases st
      simp [ReadState.escape, hbackslash]
    rw [checkComment, if_pos rfl, osComment, if_pos rfl] at hround ⊢
    cases hloop : commentLoop s.length s with
    | none =>
      rw [hloop] at hround
      exact absurd rfl (hround _)
    | some s' =>
      refine ⟨s, s', rfl, rfl, hloop, ?_⟩
      rw [hescape]
      rfl
  · right
    refine ⟨hcomment, ?_⟩
    have hcheck : checkComment c fp = some (false, fp) := by
      rw [checkComment]
      split_ifs with hc
      · cases fp with
        | nil => rfl
        | cons b fp =>
          have hb : b ≠ chr '!' := fun hb => hcomment ⟨hc, by rw [hb]; rfl⟩
          rw [osComment, if_neg hb]
      · rfl
    rw [hcheck]

/-- A comment is left out wherever it stands. -/
theorem Reads.comment {s' : Bytes} (hcomment : commentLoop s.length s = some s')
    (h : Reads d st s' lxml r rest out) :
    Reads d st (chr '<' :: chr '!' :: s) lxml r rest out := by
  rw [Reads] at h ⊢
  cases hloc : st.location with
  | outside =>
    rw [hloc] at h
    intro he hc hd
    obtain ⟨t, hout, ht⟩ := h he hc hd
    refine ⟨t, hout, ?_⟩
    split_ifs at ht ⊢
    · refine ⟨ht.1, fun acc => ?_⟩
      obtain ⟨text, esc, hspells⟩ := ht.2 acc
      exact ⟨text, esc, .comment hcomment hspells⟩
    · intro hr
      obtain ⟨e, child, rfl, hspells⟩ := ht hr
      exact ⟨e, child, rfl, fun acc next text esc rest' hnext =>
        .comment hcomment (hspells acc next text esc rest' hnext)⟩
  | elem =>
    rw [hloc] at h
    intro hc hd
    obtain ⟨name, c, s₁, e, child, s₂, hname, hrest⟩ := h hc hd
    exact ⟨name, c, s₁, e, child, s₂, .comment hcomment hname, hrest⟩
  | cont =>
    rw [hloc] at h
    intro pre item more hlxml hlen hd
    obtain ⟨child, content, s₁, closing, s₂, hspells, hrest⟩ := h pre item more hlxml hlen hd
    exact ⟨child, content, s₁, closing, s₂, .comment hcomment hspells, hrest⟩
  | closedelim =>
    rw [hloc] at h
    intro pre item more hlxml hlen
    obtain ⟨closing, s₁, hname, hrest⟩ := h pre item more hlxml hlen
    exact ⟨closing, s₁, .comment hcomment hname, hrest⟩

theorem Follows.of_closed (hprevv : st.prevv = false)
    (h : GoesOn d (closed d st s lxml) r rest out) : Follows d s lxml rest out := by
  rw [closed] at h
  split_ifs at h with hd
  · obtain h | ⟨_, _, _, h, -⟩ := h
    · cases h
      exact ⟨.nil, by simp, by rw [if_neg (by omega)]; exact ⟨rfl, rfl⟩⟩
    · cases h
  · obtain h | ⟨_, _, _, h, hreads⟩ := h
    · cases h
    · cases h
      obtain rfl : d = 0 := by omega
      rw [Reads] at hreads
      obtain ⟨t, hout, ht⟩ := hreads rfl rfl rfl
      rw [if_pos rfl] at ht
      obtain ⟨text, esc, hspells⟩ := ht.2 []
      rw [hprevv] at hspells
      exact ⟨t, hout, by rw [if_pos rfl]; exact ⟨ht.1, text, esc, hspells⟩⟩

/-- A byte that is not stored leaves the mark of a backslash only behind a backslash. -/
theorem escape_prevv (hc : c ≠ chr '<') : (st.escape c).prevv = (c == chr '\\') := by
  rw [ReadState.escape, beq_eq_false_iff_ne.mpr hc, Bool.and_false, Bool.or_false]

theorem mark_eq (esc : Bool) (c : UInt8) :
    ((c == chr '\\' || (esc && c == chr '<')) && c != chr '<') = (c == chr '\\') := by
  by_cases hc : c = chr '<'
  · rw [hc, bne_self_eq_false, Bool.and_false]
    decide
  · rw [beq_eq_false_iff_ne.mpr hc, bne_iff_ne.mpr hc, Bool.and_false, Bool.or_false, Bool.and_true]

theorem store_outside (hloc : st.location = .outside) :
    (st.escape c).store c = { st with prevv := c == chr '\\' } := by
  cases st
  obtain rfl := hloc
  simp only [ReadState.store, ReadState.escape, mark_eq]

theorem store_elem (hloc : st.location = .elem) :
    (st.escape c).store c = { st with elem := st.elem ++ [c], prevv := c == chr '\\' } := by
  cases st
  obtain rfl := hloc
  simp only [ReadState.store, ReadState.escape, mark_eq]

theorem store_cont (hloc : st.location = .cont) :
    (st.escape c).store c = { st with cont := st.cont ++ [c], prevv := c == chr '\\' } := by
  cases st
  obtain rfl := hloc
  simp only [ReadState.store, ReadState.escape, mark_eq]

theorem store_closedelim (hloc : st.location = .closedelim) :
    (st.escape c).store c =
      { st with closedelim := st.closedelim ++ [c], prevv := c == chr '\\' } := by
  cases st
  obtain rfl := hloc
  simp only [ReadState.store, ReadState.escape, mark_eq]

theorem prevv_eq_false_of_lt (h : (st.escape (chr '<')).prevv = false) : st.prevv = false := by
  rw [ReadState.escape, beq_self_eq_true, Bool.and_true, Bool.or_eq_false_iff] at h
  exact h.2

theorem byte_or_escaped (h : ¬ (c = chr '<' ∧ (st.escape c).prevv = false)) :
    c ≠ chr '<' ∨ st.prevv = true := by
  by_cases hc : c = chr '<'
  · right
    by_contra hprevv
    refine h ⟨hc, ?_⟩
    rw [hc, ReadState.escape, Bool.eq_false_of_not_eq_true hprevv]
    rfl
  · exact .inl hc

/-- A byte between elements. -/
theorem Reads.outside_byte (hloc : st.location = .outside) (hcomment : ¬ BeginsComment c fp)
    (hbyte : c ≠ chr '<' ∨ st.prevv = true)
    (h : Reads d { st with prevv := c == chr '\\' } fp lxml r rest out) :
    Reads d st (c :: fp) lxml r rest out := by
  rw [Reads, hloc] at h ⊢
  intro he hc hd
  obtain ⟨t, hout, ht⟩ := h he hc hd
  refine ⟨t, hout, ?_⟩
  split_ifs at ht ⊢
  · refine ⟨ht.1, fun acc => ?_⟩
    obtain ⟨text, esc, hspells⟩ := ht.2 (acc ++ [c])
    exact ⟨text, esc, .byte hbyte hcomment hspells⟩
  · intro hr
    obtain ⟨e, child, rfl, hspells⟩ := ht hr
    exact ⟨e, child, rfl, fun acc next text esc rest' hnext =>
      .byte hbyte hcomment (hspells (acc ++ [c]) next text esc rest' hnext)⟩

/-- A byte between elements, or the start of an element. -/
theorem Reads.outside (hloc : st.location = .outside) (hcomment : ¬ BeginsComment c fp)
    (h : GoesOn d (readChecked d (st.escape c) c fp lxml) r rest out) :
    Reads d st (c :: fp) lxml r rest out := by
  have hloc' : (st.escape c).location = .outside := hloc
  rw [readChecked] at h
  split_ifs at h with hplain hlt hslash helem hclosing hcont
  · obtain h | ⟨_, _, _, h, -⟩ := h <;> cases h
  · -- an element begins
    obtain rfl := hlt
    have hesc := prevv_eq_false_of_lt hplain.2
    obtain h | ⟨_, _, _, h, hreads⟩ := h <;> cases h
    rw [Reads, hloc]
    intro he hc hd
    rw [Reads] at hreads
    obtain ⟨name, c, s₁, e, child, s₂, hname, hbody, next, hout, hnext⟩ := hreads hc hd
    have hname' : Name endsName [] fp name c s₁ := he ▸ hname
    refine ⟨.node e child next, ?_, ?_⟩
    · rw [entries_append, hout, append_assoc]
    · rw [hesc]
      split_ifs at hnext ⊢
      · obtain ⟨hrest, text, esc, hspells⟩ := hnext
        exact ⟨hrest, fun acc => ⟨text, esc, .of_body hname' hbody hspells⟩⟩
      · obtain ⟨rfl, rfl⟩ := hnext
        exact fun _ => ⟨e, child, rfl, fun acc next text esc rest' hnext =>
          .of_body hname' hbody hnext⟩
  · obtain h | ⟨_, _, _, h, hreads⟩ := h <;> cases h
    have hstate : st.escape c = { st with prevv := c == chr '\\' } := by
      rw [← escape_prevv hlt]
      rfl
    rw [hstate] at hreads
    exact hreads.outside_byte hloc hcomment (.inl hlt)
  · rw [hloc'] at helem
    exact absurd helem.1 (by decide)
  · rw [hloc'] at hclosing
    exact absurd hclosing.1 (by decide)
  · rw [hloc'] at hcont
    exact absurd hcont.1 (by decide)
  · rw [hloc'] at hcont
    exact absurd hcont.1 (by decide)
  · -- a byte behind a backslash
    obtain h | ⟨_, _, _, h, hreads⟩ := h <;> cases h
    rw [store_outside hloc] at hreads
    refine hreads.outside_byte hloc hcomment (byte_or_escaped fun h => hplain ⟨hloc, h.2⟩)

theorem tagEnd_of_readAttributes {item : Item} (hitem : item.tp ≠ .XML_ATTR) {slash : Bool}
    (h : readAttributes c fp d (lxml ++ [item]) = .ok (slash, rest, out)) :
    ∃ attributes, out = lxml ++ item :: attributes.map (attributeEntry d) ∧
      TagEnd c fp attributes slash rest := by
  rw [readAttributes] at h
  split_ifs at h with hc
  · have h' : attributesLoop d (fp.length + 1) AttrState.init fp
        (lxml ++ item :: ([] : List (Bytes × Bytes)).map (attributeEntry d)) =
          .ok (slash, rest, out) := h
    obtain ⟨attributes, hout, hreads⟩ := readsAttributes_of_loop hitem (fun _ => rfl) h'
    rw [ReadsAttributes, if_neg (by simp [AttrState.init])] at hreads
    exact ⟨attributes, hout, by rw [TagEnd, if_pos hc]; exact hreads⟩
  · cases h
    exact ⟨[], rfl, by rw [TagEnd, if_neg hc]; exact ⟨rfl, rfl, rfl⟩⟩

/-- An element that is entered and not closed yet. -/
def openEntry (depth : ℕ) (name : Bytes) : Item := {
  el := name
  ct := none
  tp := typeOf .XML_ELEM name
  rl := depth
  ck := false }

theorem openEntry_tp_ne (name : Bytes) : (openEntry d name).tp ≠ .XML_ATTR := by
  rw [openEntry, typeOf]
  split_ifs <;> simp

theorem writeMemory_elem (name : Bytes) :
    writeMemory name .XML_ELEM d lxml = lxml ++ [openEntry d (str name)] := by
  rw [writeMemory, openEntry, typeOf, isVar_str]
  rfl

theorem elemName_eq : (st.escape c).elemName = tagName st.elem := by
  simp [ReadState.elemName, ReadState.slash, ReadState.escape, tagName]

/-- A byte of a name, or its end with what follows. -/
theorem Reads.elem (hloc : st.location = .elem) (hcomment : ¬ BeginsComment c fp)
    (h : GoesOn d (readChecked d (st.escape c) c fp lxml) r rest out) :
    Reads d st (c :: fp) lxml r rest out := by
  have hloc' : (st.escape c).location = .elem := hloc
  rw [Reads, hloc]
  intro hcont hdelim
  rw [readChecked, if_neg (by rw [hloc']; simp)] at h
  by_cases hc : c = chr '>' ∨ isSpace c = true
  · rw [if_pos ⟨hloc', hc⟩, openElem, writeMemory_elem, elemName_eq] at h
    have hends : endsName c = true := by
      simpa [endsName] using hc
    have hesc : (st.escape c).prevv = false := by
      rw [escape_prevv fun hlt => by rw [hlt] at hc; revert hc; decide]
      exact beq_eq_false_iff_ne.mpr fun hbs => by rw [hbs] at hc; revert hc; decide
    cases hattributes : readAttributes c fp d (lxml ++ [openEntry d (str (tagName st.elem))]) with
    | error e =>
      rw [hattributes] at h
      obtain h | ⟨_, _, _, h, -⟩ := h <;> cases h
    | ok x =>
      obtain ⟨slash, s₂, lxml'⟩ := x
      rw [hattributes] at h
      dsimp only at h
      obtain ⟨attributes, rfl, htag⟩ := tagEnd_of_readAttributes (openEntry_tp_ne _) hattributes
      split_ifs at h with hclosed
      · -- the element is closed already
        rw [closeItem_append_cons] at h
        have hfollows := Follows.of_closed hesc h
        have hclosed' : st.elem.getLast? = some (chr '/') ∨ slash = true := by
          simpa [ReadState.slash, ReadState.escape] using hclosed
        refine ⟨st.elem, c, fp, ⟨str (tagName st.elem), attributes, []⟩, .nil, s₂, .stop hends,
          .inl ⟨attributes, slash, htag, hclosed', rfl, rfl⟩, ?_⟩
        have hentries : entries d (.node ⟨str (tagName st.elem), attributes, []⟩ .nil .nil) =
            elementEntry d ⟨str (tagName st.elem), attributes, []⟩ ::
              attributes.map (attributeEntry d) := by simp [entries_node]
        rw [hentries]
        exact hfollows
      · -- its content follows
        obtain h | ⟨_, _, _, h, hreads⟩ := h <;> cases h
        have hopen : st.elem.getLast? ≠ some (chr '/') ∧ slash = false := by
          simpa [ReadState.slash, ReadState.escape] using hclosed
        obtain ⟨hopen, rfl⟩ := hopen
        have hname : tagName st.elem = st.elem := if_neg hopen
        rw [Reads] at hreads
        obtain ⟨child, content, s₃, closing, s₄, hspells, hclosing, hsame, hfollows⟩ :=
          hreads lxml _ _ rfl rfl hdelim
        have hspells' : Spells (st.escape c).prevv (st.escape c).cont s₂ child content false
            (chr '<' :: chr '/' :: s₃) := hspells
        rw [hesc, show (st.escape c).cont = [] from hcont] at hspells'
        refine ⟨st.elem, c, fp, ⟨str st.elem, attributes, str content⟩, child, s₄, .stop hends,
          .inr ⟨attributes, s₂, content, s₃, closing, htag, hopen, hspells', hclosing, hsame,
            rfl⟩, ?_⟩
        have hentries : entries d (.node ⟨str st.elem, attributes, str content⟩ child .nil) =
            elementEntry d ⟨str st.elem, attributes, str content⟩ ::
              (attributes.map (attributeEntry d) ++ entries (d + 1) child) := by simp [entries_node]
        rw [hname, append_assoc] at hfollows
        rw [hentries]
        exact hfollows
  · rw [if_neg fun h => hc h.2, if_neg (by rw [hloc']; simp), if_neg (by rw [hloc']; simp)] at h
    obtain h | ⟨_, _, _, h, hreads⟩ := h <;> cases h
    rw [store_elem hloc, Reads, hloc] at hreads
    obtain ⟨name, c', s₁, e, child, s₂, hname, hrest⟩ := hreads hcont hdelim
    have hends : endsName c = false := by
      rw [not_or] at hc
      simp [endsName, hc]
    exact ⟨name, c', s₁, e, child, s₂, .byte hends hcomment hname, hrest⟩

/-- A byte of a text, or the `</` behind it. -/
theorem Reads.cont (hloc : st.location = .cont) (hcomment : ¬ BeginsComment c fp)
    (h : GoesOn d (readChecked d (st.escape c) c fp lxml) r rest out) :
    Reads d st (c :: fp) lxml r rest out := by
  have hloc' : (st.escape c).location = .cont := hloc
  rw [Reads, hloc]
  rintro pre item more rfl hlen hd
  rw [readChecked, if_neg (by rw [hloc']; simp), if_neg (by rw [hloc']; simp),
    if_neg (by rw [hloc']; simp)] at h
  split_ifs at h with hc hslash
  · -- the end of the content
    obtain ⟨-, rfl, hprevv⟩ := hc
    obtain ⟨s, rfl⟩ := head?_eq_some_iff.mp hslash
    obtain h | ⟨_, _, _, h, hreads⟩ := h <;> cases h
    rw [Reads] at hreads
    obtain ⟨closing, s₁, hname, hsame, hfollows⟩ := hreads pre item more rfl hlen
    rw [show ({ st.escape (chr '<') with location := .closedelim } : ReadState).closedelim = []
      from hd] at hname
    refine ⟨.nil, st.cont, s, closing, s₁, ?_, hname, hsame, ?_⟩
    · rw [prevv_eq_false_of_lt hprevv]
      exact .nil
    · rw [entries_nil, append_nil]
      exact hfollows
  · obtain h | ⟨_, _, _, h, -⟩ := h <;> cases h
  · obtain h | ⟨_, _, _, h, hreads⟩ := h <;> cases h
    rw [store_cont hloc, Reads, hloc] at hreads
    obtain ⟨child, content, s₁, closing, s₂, hspells, hrest⟩ := hreads pre item more rfl hlen hd
    have hbyte := byte_or_escaped fun h => hc ⟨hloc, h.1, h.2⟩
    exact ⟨child, content, s₁, closing, s₂, .byte hbyte hcomment hspells, hrest⟩

/-- A byte of a closing name, or its end. -/
theorem Reads.closedelim (hloc : st.location = .closedelim) (hcomment : ¬ BeginsComment c fp)
    (h : GoesOn d (readChecked d (st.escape c) c fp lxml) r rest out) :
    Reads d st (c :: fp) lxml r rest out := by
  have hloc' : (st.escape c).location = .closedelim := hloc
  rw [Reads, hloc]
  rintro pre item more rfl hlen
  rw [readChecked, if_neg (by rw [hloc']; simp), if_neg (by rw [hloc']; simp)] at h
  by_cases hc : c = chr '>'
  · obtain rfl := hc
    rw [if_pos ⟨hloc', rfl⟩, closeElem] at h
    split_ifs at h with hsame
    · obtain h | ⟨_, _, _, h, -⟩ := h <;> cases h
    · have hfollows := Follows.of_closed (escape_prevv (by decide)) h
      have hindex : (st.escape (chr '>')).currentlycont = pre.length := hlen.symm
      rw [hindex, closeItem_append_cons] at hfollows
      exact ⟨st.closedelim, fp, .stop rfl, not_not.mp hsame, hfollows⟩
  · rw [if_neg fun h => hc h.2, if_neg (by rw [hloc']; simp)] at h
    obtain h | ⟨_, _, _, h, hreads⟩ := h <;> cases h
    rw [store_closedelim hloc, Reads, hloc] at hreads
    obtain ⟨closing, s₁, hname, hrest⟩ := hreads pre item more rfl hlen
    exact ⟨closing, s₁, .byte (beq_eq_false_iff_ne.mpr hc) hcomment hname, hrest⟩

/-- A round that goes on, or ends the level. -/
theorem Reads.of_goesOn (h : GoesOn d (readRound d st c fp lxml) r rest out) :
    Reads d st (c :: fp) lxml r rest out := by
  have hround : ∀ e, readRound d st c fp lxml ≠ .fail e := by
    intro e he
    rw [he] at h
    obtain h | ⟨_, _, _, h, -⟩ := h <;> cases h
  obtain ⟨s, s', rfl, rfl, hcomment, heq⟩ | ⟨hcomment, heq⟩ := readRound_cases hround
  · rw [heq] at h
    obtain h | ⟨_, _, _, h, hreads⟩ := h <;> cases h
    exact hreads.comment hcomment
  · rw [heq] at h
    cases hloc : st.location with
    | outside => exact .outside hloc hcomment h
    | elem => exact .elem hloc hcomment h
    | cont => exact .cont hloc hcomment h
    | closedelim => exact .closedelim hloc hcomment h

/-- A child is read from the content of its element. -/
theorem Reads.of_child {rest₁ rest₂ : Bytes} {out₁ out₂ : OSXml}
    (hround : readRound d st c fp lxml = .child rest₁ out₁)
    (hchild : Reads (d + 1) ReadState.init rest₁ out₁ .closed rest₂ out₂)
    (hreads : Reads d { st with cont := [] } rest₂ out₂ r rest out) :
    Reads d st (c :: fp) lxml r rest out := by
  have hloc := location_of_child hround
  have hfail : ∀ e, readRound d st c fp lxml ≠ .fail e := by
    rw [hround]
    exact fun e h => nomatch h
  obtain ⟨_, _, _, _, _, heq⟩ | ⟨-, heq⟩ := readRound_cases hfail
  · rw [hround] at heq
    cases heq
  have hloc' : (st.escape c).location = .cont := hloc
  rw [hround, readChecked, if_neg (by rw [hloc']; simp), if_neg (by rw [hloc']; simp),
    if_neg (by rw [hloc']; simp)] at heq
  split_ifs at heq with hc hslash
  obtain ⟨-, rfl, hprevv⟩ := hc
  obtain ⟨rfl, rfl⟩ := Round.child.inj heq
  have hesc := prevv_eq_false_of_lt hprevv
  rw [Reads] at hchild
  obtain ⟨t, rfl, ht⟩ := hchild rfl rfl rfl
  rw [if_neg (Nat.succ_ne_zero d)] at ht
  obtain ⟨e, child, rfl, hspells⟩ := ht rfl
  rw [Reads, hloc] at hreads ⊢
  rintro pre item more rfl hlen hd
  obtain ⟨child', content, s₁, closing, s₂, hspells', hclosing, hsame, hfollows⟩ :=
    hreads pre item (more ++ entries (d + 1) (.node e child .nil)) (by simp) hlen hd
  refine ⟨.node e child child', content, s₁, closing, s₂, ?_, hclosing, hsame, ?_⟩
  · rw [hesc]
    rw [hesc] at hspells'
    exact hspells st.cont child' content false _ hspells'
  · rw [entries_append]
    simpa using hfollows

end Rounds

/-- What `_ReadElem` reads on a level. -/
theorem reads_of_accepts {st : ReadState} {r : Retval}
    (h : readElem.Accepts d st s lxml r rest out) : Reads d st s lxml r rest out := by
  induction h with
  | @done d st out r hfinish =>
    have hfinish' : (if st.location = .outside then .ok Retval.leof
        else .error (xmlError (lit "XMLERR: End of file and some elements were not closed."))) =
          Except.ok r := hfinish
    split_ifs at hfinish' with hloc
    cases hfinish'
    rw [Reads, hloc]
    intro _ _ _
    refine ⟨.nil, by simp, ?_⟩
    split_ifs
    · exact ⟨rfl, fun acc => ⟨acc, st.prevv, .nil⟩⟩
    · exact fun h => nomatch h
  | close hround => exact .of_goesOn (.inl hround)
  | next hround _ ih => exact .of_goesOn (.inr ⟨_, _, _, hround, ih⟩)
  | @child d st c fp lxml rest₁ out₁ st₁ r₁ rest₂ out₂ st₂ r rest out hround henter _ hleave _
      ihchild ih =>
    have henter' : (if d + 2 > 1024 then
        .error (xmlError (lit "XMLERR: Max recursion level reached.")) else .ok ReadState.init) =
          (Except.ok st₁ : Except Bytes ReadState) := henter
    split_ifs at henter'
    cases henter'
    cases r₁ with
    | leof => cases hleave
    | closed =>
      cases hleave
      exact .of_child hround ihchild ih

/-! ## Arrays -/

/-- What the accessors of the arrays rely on. -/
structure IsForest (lxml : OSXml) : Prop where
  head : ∀ item ∈ lxml.head?, item.rl = 0 ∧ item.tp ≠ .XML_ATTR
  next : lxml.IsChain fun a b => b.rl ≤ a.rl + 1
  attr : lxml.IsChain fun a b => b.tp = .XML_ATTR → b.rl = a.rl
  closed : ∀ item ∈ lxml, item.ck = true

theorem elementEntry_tp_ne (e : Element) : (elementEntry d e).tp ≠ .XML_ATTR := by
  rw [elementEntry, typeOf]
  split_ifs <;> simp

theorem head?_entries {t : Elements} {item : Item} (h : item ∈ (entries d t).head?) :
    item.rl = d ∧ item.tp ≠ .XML_ATTR := by
  cases t with
  | nil => cases h
  | node e child next =>
    cases h
    exact ⟨rfl, elementEntry_tp_ne e⟩

theorem le_rl_of_mem_entries {t : Elements} {item : Item} (h : item ∈ entries d t) :
    d ≤ item.rl ∧ item.ck = true := by
  induction t generalizing d with
  | nil => cases h
  | node e child next ihchild ihnext =>
    rw [entries_node, mem_cons, mem_append, mem_append, mem_map] at h
    rcases h with rfl | ⟨a, -, rfl⟩ | h | h
    · exact ⟨Nat.le_refl d, rfl⟩
    · exact ⟨Nat.le_refl d, rfl⟩
    · exact ⟨Nat.le_of_succ_le (ihchild h).1, (ihchild h).2⟩
    · exact ihnext h

/-- An entry stands at most one level below the one in front of it, an attribute on its level. -/
def Adjacent (a b : Item) : Prop := b.rl ≤ a.rl + 1 ∧ (b.tp = .XML_ATTR → b.rl = a.rl)

/-- Entries of elements may stand behind every entry that is not more than one level above. -/
theorem isChain_append_entries {l : OSXml} {t : Elements} (hl : l.IsChain Adjacent)
    (hlast : ∀ item ∈ l.getLast?, d ≤ item.rl + 1) (ht : (entries d t).IsChain Adjacent) :
    (l ++ entries d t).IsChain Adjacent := by
  refine isChain_append.mpr ⟨hl, ht, fun a ha b hb => ?_⟩
  obtain ⟨hrl, htp⟩ := head?_entries hb
  exact ⟨hrl ▸ hlast a ha, fun h => absurd h htp⟩

theorem isChain_entries (d : ℕ) (t : Elements) : (entries d t).IsChain Adjacent := by
  induction t generalizing d with
  | nil => exact .nil
  | node e child next ihchild ihnext =>
    -- the tag is on one level, and what is behind it begins at most one level below
    have htag : (elementEntry d e :: e.attributes.map (attributeEntry d)).IsChain Adjacent := by
      refine List.Pairwise.isChain (List.Pairwise.imp_of_mem (R := fun _ _ => True) ?_ ?_)
      · intro a b ha hb _
        have hrl : ∀ item ∈ elementEntry d e :: e.attributes.map (attributeEntry d),
            item.rl = d := by
          intro item hitem
          rcases mem_cons.mp hitem with rfl | hitem
          · rfl
          · obtain ⟨_, -, rfl⟩ := mem_map.mp hitem
            rfl
        exact ⟨by rw [hrl a ha, hrl b hb]; omega, fun _ => by rw [hrl a ha, hrl b hb]⟩
      · exact pairwise_of_forall fun _ _ => trivial
    have hmem : ∀ item ∈ (elementEntry d e :: e.attributes.map (attributeEntry d)).getLast?,
        item.rl = d := by
      intro item hitem
      rcases mem_cons.mp (mem_of_getLast? hitem) with rfl | hitem
      · rfl
      · obtain ⟨_, -, rfl⟩ := mem_map.mp hitem
        rfl
    rw [entries_node, ← cons_append, ← append_assoc]
    refine isChain_append_entries (isChain_append_entries htag (fun item h => ?_) (ihchild _))
      (fun item h => ?_) (ihnext _)
    · rw [hmem item h]
    · rcases mem_append.mp (mem_of_getLast? h) with h | h
      · rcases mem_cons.mp h with rfl | h
        · exact Nat.le_succ d
        · obtain ⟨_, -, rfl⟩ := mem_map.mp h
          exact Nat.le_succ d
      · have hle := (le_rl_of_mem_entries h).1
        omega

theorem isForest_entries (t : Elements) : IsForest (entries 0 t) where
  head _ h := head?_entries h
  next := (isChain_entries 0 t).imp fun _ _ h => h.1
  attr := (isChain_entries 0 t).imp fun _ _ h => h.2
  closed _ h := (le_rl_of_mem_entries h).2

theorem spelled_of_osReadXml {file : Bytes} (h : osReadXml file = .ok lxml) :
    ∃ t, Spelled file t ∧ lxml = entries 0 t := by
  obtain ⟨⟨s, r, rest, hskip, haccepts⟩, -⟩ := osReadXml_eq_ok_iff.mp h
  have hreads := reads_of_accepts haccepts
  rw [Reads] at hreads
  obtain ⟨t, hout, ht⟩ := hreads rfl rfl rfl
  rw [if_pos rfl] at ht
  obtain ⟨text, esc, hspells⟩ := ht.2 []
  exact ⟨t, ⟨s, text, esc, hskip, hspells⟩, hout⟩

/-- The reader gets through every file. It refuses the file, or it enters the forest that the file
spells; a file that spells none is refused. -/
theorem osReadXml_forest (file : Bytes) :
    (∀ s, (readElem.run ReadState.init s []).isSome) ∧
      ((∃ e, osReadXml file = .error e) ∨
        ∃ t, Spelled file t ∧ osReadXml file = .ok (entries 0 t) ∧ IsForest (entries 0 t)) := by
  refine ⟨fun s => Scanner.isSome_run progress_readElem, ?_⟩
  cases h : osReadXml file with
  | error e => exact Or.inl ⟨e, rfl⟩
  | ok lxml =>
    obtain ⟨t, ht, rfl⟩ := spelled_of_osReadXml h
    exact Or.inr ⟨t, ht, rfl, isForest_entries t⟩

/-- The attribute is entered with the depth of its element. -/
theorem attribute_beside_element :
    ¬ ∀ file lxml, osReadXml file = .ok lxml →
      lxml.IsChain fun a b => a.tp = .XML_ELEM → b.tp = .XML_ATTR → b.rl = a.rl + 1 := by
  intro h
  have hread := h (lit "<a k=\"v\"/>") [elementEntry 0 ⟨lit "a", [(lit "k", lit "v")], []⟩,
    attributeEntry 0 (lit "k", lit "v")] (by rfl)
  have hpair := (isChain_cons_cons.mp hread).1
  exact absurd (hpair rfl rfl) (by decide)

end OsXml
