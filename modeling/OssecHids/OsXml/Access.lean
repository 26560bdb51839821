import OssecHids.OsXml.Forest

/-!
# Contents by path

`os_xml_access.c`: the contents of the elements that a path of names reaches, found in one walk over
the arrays that keeps how much of the path is matched.

- `getElementContent`: the walk, and `reached` what it looks for;
- `Trail`, `visit`: which of the reached elements the walk finds; it loses the trail for the rest of
  an element of the top level;
- `contentsLoop_entries`: what the walk does with the entries of a level;
- `getElementContent_entries`: what it returns.
-/

open CString List

namespace OsXml

/-! ## The walk -/

/-- What an entry comes to in `_GetElementContent`. -/
inductive AccessRound
  | stop
  | fail
  | again
  | next (j : ℕ) (matched : Bool) (content : Option Bytes)

/-- The place in the path behind an element at its end: the depth of the entry behind it, if that is
an element. -/
def lookAhead (j : ℕ) (next : Option Item) : ℕ :=
  match next with
  | none => j
  | some entry => if entry.tp = .XML_ELEM then entry.rl else j

/-- The body of the loop of `_GetElementContent` for the entry `item`, without an attribute to
match; `next` is the entry behind it. -/
def accessRound (element_name : List Bytes) (j : ℕ) (matched : Bool) (item : Item)
    (next : Option Item) : AccessRound :=
  if element_name[j]? = none ∧ matched = false then .stop
  else if j > 16 then .fail
  else if item.tp ≠ .XML_ELEM ∨ item.rl ≠ j then
    if j > item.rl then .again else .next j matched none
  else if element_name[j]? = some item.el then
    if element_name[j + 1]? = none then .next (lookAhead (j + 1) next) true item.ct
    else .next (j + 1) true none
  else .next j matched none

/-- The loop of `_GetElementContent`. An entry that is further up than the match is looked at again
from the start of the path. -/
def contentsLoop (element_name : List Bytes) : ℕ → Bool → List Bytes → OSXml → List Bytes
  | _, _, ret, [] => ret
  | j, matched, ret, item :: items =>
    match
      match accessRound element_name j matched item items.head? with
      | .again => accessRound element_name 0 false item items.head?
      | round => round with
    | .stop => ret
    | .fail => []
    | .again => ret
    | .next j matched content =>
      contentsLoop element_name j matched (ret ++ content.toList) items

/-- `OS_GetElementContent`; the empty list is `NULL`. -/
def getElementContent (lxml : OSXml) (element_name : List Bytes) : List Bytes :=
  contentsLoop element_name 0 false [] lxml

/-- `OS_GetOneContentforElement` -/
def getOneContentforElement (lxml : OSXml) (element_name : List Bytes) : Option Bytes :=
  (getElementContent lxml element_name).head?

/-! ## What is looked for -/

/-- The element has the name, and is no variable. -/
def Element.Named (e : Element) (name : Bytes) : Prop := isVar e.name = false ∧ e.name = name

instance (e : Element) (name : Bytes) : Decidable (e.Named name) :=
  inferInstanceAs (Decidable (_ ∧ _))

/-- The contents of the elements that the path reaches, in the order of the document. -/
def reached : List Bytes → Elements → List Bytes
  | [], _ => []
  | _, .nil => []
  | name :: path, .node e child next =>
    (if e.Named name then if path = [] then [e.content] else reached path child else []) ++
      reached (name :: path) next

/-- How the walk stands between the elements of a level, if the elements around them are matched:
on the level; right behind a reached element without attributes and children; behind another
matched element; or nowhere, up to the next element of the top level. -/
inductive Trail
  | onLevel
  | fresh
  | behind
  | lost
  deriving DecidableEq, Repr

namespace Trail

/-- At an element, or at a variable. -/
def enter (var : Bool) : Trail → Trail
  | onLevel => onLevel
  | fresh => if var then lost else onLevel
  | behind => lost
  | lost => lost

/-- Behind a reached element. -/
def reach (e : Element) (child : Elements) : Trail → Trail
  | lost => lost
  | _ => if e.attributes ≠ [] then lost else if child = .nil then fresh else behind

/-- Inside a matched element. -/
def descend (e : Element) : Trail → Trail
  | onLevel => if e.attributes = [] then onLevel else lost
  | _ => lost

/-- Behind the last child of a matched element. -/
def leave : Trail → Trail
  | onLevel => behind
  | s => s

end Trail

/-- An element, which `inner` reads the children of: the trail behind it, and what the path reaches
in it with whether the walk is on its level there. -/
def Trail.pass (name : Bytes) (path : List Bytes) (e : Element) (child : Elements)
    (inner : Trail → Trail × List (Bytes × Bool)) (s : Trail) : Trail × List (Bytes × Bool) :=
  if e.Named name then
    if path = [] then (s.reach e child, [(e.content, s == .onLevel)])
    else ((inner (s.descend e)).1.leave, (inner (s.descend e)).2)
  else (s, [])

/-- The trail behind the elements of a level, and the elements that the path reaches with whether
the walk is on their level there. -/
def visit : List Bytes → Trail → Elements → Trail × List (Bytes × Bool)
  | [], s, _ => (s, [])
  | _, s, .nil => (s, [])
  | name :: path, s, .node e child next =>
    let here :=
      (s.enter (isVar e.name)).pass name path e child fun s => visit path s child
    let behind := visit (name :: path) here.1 next
    (behind.1, here.2 ++ behind.2)

/-- The elements that the path reaches, with whether the walk finds them: every element of the top
level is a new start. -/
def visitAll : List Bytes → Elements → List (Bytes × Bool)
  | [], _ => []
  | _, .nil => []
  | name :: path, .node e child next =>
    (if e.Named name then
      if path = [] then [(e.content, true)] else (visit path (Trail.onLevel.descend e) child).2
    else []) ++ visitAll (name :: path) next

/-- The walk is on the level of every element that the path reaches. -/
def InSight (path : List Bytes) (t : Elements) : Prop := ∀ x ∈ visitAll path t, x.2 = true

instance (path : List Bytes) (t : Elements) : Decidable (InSight path t) :=
  inferInstanceAs (Decidable (∀ x ∈ _, _))

def found (l : List (Bytes × Bool)) : List Bytes := (l.filter Prod.snd).map Prod.fst

section Visit

variable {name : Bytes} {path : List Bytes} {s : Trail} {t : Elements}

theorem found_append (l l' : List (Bytes × Bool)) : found (l ++ l') = found l ++ found l' := by
  rw [found, found, found, filter_append, map_append]

theorem found_eq_nil {l : List (Bytes × Bool)} (h : ∀ x ∈ l, x.2 = false) : found l = [] := by
  have hfilter : l.filter Prod.snd = [] :=
    filter_eq_nil_iff.mpr fun x hx => by rw [h x hx]; exact Bool.false_ne_true
  rw [found, hfilter, map_nil]

theorem map_fst_visit (path : List Bytes) (s : Trail) (t : Elements) :
    (visit path s t).2.map Prod.fst = reached path t := by
  induction t generalizing path s with
  | nil => cases path <;> rfl
  | node e child next ihchild ihnext =>
    cases path with
    | nil => rfl
    | cons name path =>
      rw [visit, reached]
      rw [map_append, ihnext, Trail.pass]
      split_ifs
      · rfl
      · rw [ihchild]
      · rfl

theorem map_fst_visitAll (path : List Bytes) (t : Elements) :
    (visitAll path t).map Prod.fst = reached path t := by
  induction t generalizing path with
  | nil => cases path <;> rfl
  | node e child next _ ih =>
    cases path with
    | nil => rfl
    | cons name path =>
      rw [visitAll, reached, map_append, ih]
      split_ifs
      · rfl
      · rw [map_fst_visit]
      · rfl

theorem pass_lost {e : Element} {child : Elements} {inner : Trail → Trail × List (Bytes × Bool)}
    (hinner : (inner .lost).1 = .lost ∧ ∀ x ∈ (inner .lost).2, x.2 = false) :
    (Trail.lost.pass name path e child inner).1 = .lost ∧
      ∀ x ∈ (Trail.lost.pass name path e child inner).2, x.2 = false := by
  rw [Trail.pass]
  split_ifs
  · exact ⟨rfl, forall_mem_singleton.mpr rfl⟩
  · dsimp only [Trail.descend]
    rw [hinner.1]
    exact ⟨rfl, hinner.2⟩
  · exact ⟨rfl, forall_mem_nil _⟩

/-- A trail that is lost stays so. -/
theorem visit_lost (path : List Bytes) (t : Elements) :
    (visit path .lost t).1 = .lost ∧ ∀ x ∈ (visit path .lost t).2, x.2 = false := by
  induction t generalizing path with
  | nil => cases path <;> exact ⟨rfl, forall_mem_nil _⟩
  | node e child next ihchild ihnext =>
    cases path with
    | nil => exact ⟨rfl, forall_mem_nil _⟩
    | cons name path =>
      have hpass : (Trail.lost.pass name path e child fun s => visit path s child).1 = .lost ∧
          ∀ x ∈ (Trail.lost.pass name path e child fun s => visit path s child).2, x.2 = false :=
        pass_lost (ihchild path)
      obtain ⟨hlost, hfalse⟩ := hpass
      rw [visit]
      dsimp only [Trail.enter]
      rw [hlost]
      exact ⟨(ihnext _).1, forall_mem_append.mpr ⟨hfalse, (ihnext _).2⟩⟩

/-- The walk finds all that it looks for exactly if it is on their level everywhere. -/
theorem found_visitAll_eq_iff : found (visitAll path t) = reached path t ↔ InSight path t := by
  rw [← map_fst_visitAll, found]
  constructor
  · intro h x hx
    have hlen : ((visitAll path t).filter Prod.snd).length = (visitAll path t).length := by
      simpa using congrArg List.length h
    exact length_filter_eq_length_iff.mp hlen x hx
  · intro h
    rw [filter_eq_self.mpr h]

end Visit

/-! ## Entries -/

section Loop

variable {element_name : List Bytes} {j d : ℕ} {matched : Bool} {ret : List Bytes} {item : Item}
  {items l post : OSXml} {child next t : Elements} {e : Element}

/-- The walk is not at the end of the path without a match, and not too far down. -/
structure Valid (element_name : List Bytes) (j : ℕ) (matched : Bool) : Prop where
  le : j ≤ 16
  matched : element_name[j]? = none → matched = true

theorem Valid.start (hname : element_name ≠ []) : Valid element_name 0 false where
  le := Nat.zero_le _
  matched h := absurd (List.getElem?_eq_none_iff.mp h) (by
    have := length_pos_iff.mpr hname
    omega)

/-- An entry that is not the one that the path names next, and not further up, is passed over. -/
def Passed (element_name : List Bytes) (j : ℕ) (item : Item) : Prop :=
  (item.tp ≠ .XML_ELEM ∨ item.rl ≠ j ∨ element_name[j]? ≠ some item.el) ∧ j ≤ item.rl

theorem contentsLoop_pass (hv : Valid element_name j matched) (h : Passed element_name j item) :
    contentsLoop element_name j matched ret (item :: items) =
      contentsLoop element_name j matched ret items := by
  have hround : accessRound element_name j matched item items.head? = .next j matched none := by
    rw [accessRound, if_neg fun hstop => by simpa [hv.matched hstop.1] using hstop.2,
      if_neg (not_lt.mpr hv.le)]
    by_cases hitem : item.tp ≠ .XML_ELEM ∨ item.rl ≠ j
    · rw [if_pos hitem, if_neg (not_lt.mpr h.2)]
    · rw [not_or, not_not, not_not] at hitem
      rw [if_neg (by simp [hitem]), if_neg (by simpa [hitem] using h.1)]
  rw [contentsLoop, hround]
  simp

theorem contentsLoop_skip (hv : Valid element_name j matched)
    (h : ∀ item ∈ l, Passed element_name j item) :
    contentsLoop element_name j matched ret (l ++ items) =
      contentsLoop element_name j matched ret items := by
  induction l with
  | nil => rfl
  | cons item l ih =>
    rw [forall_mem_cons] at h
    rw [cons_append, contentsLoop_pass hv h.1, ih h.2]

theorem contentsLoop_again (hv : Valid element_name j matched)
    (hitem : item.tp ≠ .XML_ELEM ∨ item.rl ≠ j) (hlt : item.rl < j) :
    contentsLoop element_name j matched ret (item :: items) =
      contentsLoop element_name 0 false ret (item :: items) := by
  have hround : accessRound element_name j matched item items.head? = .again := by
    rw [accessRound, if_neg fun hstop => by simpa [hv.matched hstop.1] using hstop.2,
      if_neg (not_lt.mpr hv.le), if_pos hitem, if_pos hlt]
  rw [contentsLoop, contentsLoop, hround]
  cases accessRound element_name 0 false item items.head? <;> rfl

theorem contentsLoop_match (hv : Valid element_name j matched) (htp : item.tp = .XML_ELEM)
    (hrl : item.rl = j) (hel : element_name[j]? = some item.el)
    (hmore : element_name[j + 1]? ≠ none) :
    contentsLoop element_name j matched ret (item :: items) =
      contentsLoop element_name (j + 1) true ret items := by
  have hround : accessRound element_name j matched item items.head? =
      .next (j + 1) true none := by
    rw [accessRound, if_neg fun hstop => by simpa [hv.matched hstop.1] using hstop.2,
      if_neg (not_lt.mpr hv.le), if_neg (by simp [htp, hrl]), if_pos hel, if_neg hmore]
  rw [contentsLoop, hround]
  simp

theorem lookAhead_le {next : Option Item} (h : ∀ entry ∈ next, entry.rl ≤ j) :
    lookAhead j next ≤ j := by
  cases next with
  | none => exact Nat.le_refl j
  | some entry =>
    unfold lookAhead
    dsimp only
    split_ifs
    · exact h entry rfl
    · exact Nat.le_refl j

theorem contentsLoop_reach (hv : Valid element_name j matched) (htp : item.tp = .XML_ELEM)
    (hrl : item.rl = j) (hel : element_name[j]? = some item.el)
    (hend : element_name[j + 1]? = none) :
    contentsLoop element_name j matched ret (item :: items) =
      contentsLoop element_name (lookAhead (j + 1) items.head?) true (ret ++ item.ct.toList)
        items := by
  have hround : accessRound element_name j matched item items.head? =
      .next (lookAhead (j + 1) items.head?) true item.ct := by
    rw [accessRound, if_neg fun hstop => by simpa [hv.matched hstop.1] using hstop.2,
      if_neg (not_lt.mpr hv.le), if_neg (by simp [htp, hrl]), if_pos hel, if_pos hend]
  rw [contentsLoop, hround]

theorem attributeEntry_tp_ne (a : Bytes × Bytes) : (attributeEntry d a).tp ≠ .XML_ELEM := by
  rw [attributeEntry, typeOf]
  split_ifs <;> simp

theorem passed_entries (hj : j ≤ d) {item : Item} (hitem : item ∈ entries (d + 1) child) :
    Passed element_name j item := by
  have hle := (le_rl_of_mem_entries hitem).1
  exact ⟨.inr (.inl (by omega)), by omega⟩

/-- The attributes of a matched element end the match. -/
theorem contentsLoop_attributes (hname : element_name ≠ [])
    (hv : Valid element_name (d + 1) matched) {attributes : List (Bytes × Bytes)}
    (hne : attributes ≠ []) :
    contentsLoop element_name (d + 1) matched ret
        (attributes.map (attributeEntry d) ++ (entries (d + 1) child ++ items)) =
      contentsLoop element_name 0 false ret items := by
  obtain ⟨a, attributes, rfl⟩ := exists_cons_of_ne_nil hne
  rw [map_cons, cons_append,
    contentsLoop_again hv (.inl (attributeEntry_tp_ne a)) (Nat.lt_succ_self d),
    ← cons_append, ← map_cons]
  rw [contentsLoop_skip (.start hname), contentsLoop_skip (.start hname)]
  · exact fun item hitem => passed_entries (Nat.zero_le _) hitem
  · intro item hitem
    obtain ⟨b, -, rfl⟩ := mem_map.mp hitem
    exact ⟨.inl (attributeEntry_tp_ne b), Nat.zero_le _⟩

/-- An element that is not matched, with all that is below it. -/
theorem contentsLoop_other (hv : Valid element_name j matched) (hj : j ≤ d)
    (hother : j < d ∨ isVar e.name = true ∨ element_name[j]? ≠ some e.name) :
    contentsLoop element_name j matched ret (elementEntry d e ::
        (e.attributes.map (attributeEntry d) ++ (entries (d + 1) child ++ items))) =
      contentsLoop element_name j matched ret items := by
  rw [contentsLoop_pass hv, contentsLoop_skip hv, contentsLoop_skip hv]
  · exact fun item hitem => passed_entries hj hitem
  · intro item hitem
    obtain ⟨b, -, rfl⟩ := mem_map.mp hitem
    exact ⟨.inl (attributeEntry_tp_ne b), hj⟩
  · refine ⟨?_, hj⟩
    rcases hother with h | h | h
    · exact .inr (.inl (Nat.ne_of_gt h))
    · exact .inl (by simp [elementEntry, typeOf, h])
    · exact .inr (.inr h)

/-- Where the walk is in the path, in front of some entries. -/
def Trail.Holds (n d j : ℕ) (items : OSXml) : Trail → Prop
  | onLevel => j = d
  | fresh => j = lookAhead n items.head?
  | behind => d < j
  | lost => j = 0

/-- An element, or a variable, is looked at on its level or from the start of the path. -/
theorem contentsLoop_enter (ret : List Bytes) {s : Trail} (hname : element_name ≠ [])
    (hd : d < element_name.length) (hv : Valid element_name j matched)
    (hs : s.Holds element_name.length d j (elementEntry d e :: items)) :
    ∃ j' matched', Valid element_name j' matched' ∧
      contentsLoop element_name j matched ret (elementEntry d e :: items) =
        contentsLoop element_name j' matched' ret (elementEntry d e :: items) ∧
      (s.enter (isVar e.name) = .onLevel ∧ j' = d ∨ s.enter (isVar e.name) = .lost ∧ j' = 0) := by
  have hagain : d < j → ∃ j' matched', Valid element_name j' matched' ∧
      contentsLoop element_name j matched ret (elementEntry d e :: items) =
        contentsLoop element_name j' matched' ret (elementEntry d e :: items) ∧ j' = 0 :=
    fun hlt => ⟨0, false, .start hname, contentsLoop_again hv (.inr (Nat.ne_of_lt hlt)) hlt, rfl⟩
  cases s with
  | onLevel => exact ⟨j, matched, hv, rfl, .inl ⟨rfl, hs⟩⟩
  | lost => exact ⟨j, matched, hv, rfl, .inr ⟨rfl, hs⟩⟩
  | behind =>
    obtain ⟨j', matched', hv', heq, hzero⟩ := hagain hs
    exact ⟨j', matched', hv', heq, .inr ⟨rfl, hzero⟩⟩
  | fresh =>
    have hj : j = lookAhead element_name.length (some (elementEntry d e)) := hs
    cases hvar : isVar e.name with
    | false =>
      have hj' : j = d := by simpa [lookAhead, elementEntry, typeOf, hvar] using hj
      exact ⟨j, matched, hv, rfl, .inl ⟨rfl, hj'⟩⟩
    | true =>
      -- a variable is no element, so that the walk stands at the end of the path
      have hj' : j = element_name.length := by
        simpa [lookAhead, elementEntry, typeOf, hvar] using hj
      obtain ⟨j', matched', hv', heq, hzero⟩ := hagain (by omega)
      exact ⟨j', matched', hv', heq, .inr ⟨rfl, hzero⟩⟩

/-- An element that is looked at on its level. What holds of its children if they are read on their
level is an assumption here. -/
theorem contentsLoop_onLevel (ret : List Bytes)
    (inner : Trail → Trail × List (Bytes × Bool)) {name : Bytes} {path : List Bytes}
    (hpath : element_name.drop j = name :: path) (hlen : element_name.length ≤ 16)
    (hv : Valid element_name j matched) (hitems : ∀ item ∈ items.head?, item.rl ≤ j)
    (hlost : (inner .lost).1 = .lost ∧ ∀ x ∈ (inner .lost).2, x.2 = false)
    (hinner : path ≠ [] → ∃ j' matched', Valid element_name j' matched' ∧
      (inner .onLevel).1.Holds element_name.length (j + 1) j' items ∧
      contentsLoop element_name (j + 1) true ret (entries (j + 1) child ++ items) =
        contentsLoop element_name j' matched' (ret ++ found (inner .onLevel).2) items) :
    ∃ j' matched', Valid element_name j' matched' ∧
      (Trail.onLevel.pass name path e child inner).1.Holds element_name.length j j' items ∧
      contentsLoop element_name j matched ret (elementEntry j e ::
          (e.attributes.map (attributeEntry j) ++ (entries (j + 1) child ++ items))) =
        contentsLoop element_name j' matched'
          (ret ++ found (Trail.onLevel.pass name path e child inner).2) items := by
  have hdlen : j + (path.length + 1) = element_name.length := by
    have hlength := congrArg List.length hpath
    rw [length_drop, length_cons] at hlength
    omega
  have hne : element_name ≠ [] := length_pos_iff.mp (by omega)
  have hat : element_name[j]? = some name := by
    rw [← head?_drop, hpath]
    rfl
  by_cases hnamed : e.Named name
  · have htp : (elementEntry j e).tp = .XML_ELEM := by simp [elementEntry, typeOf, hnamed.1]
    have hel : element_name[j]? = some (elementEntry j e).el := by rw [hat, ← hnamed.2]; rfl
    rw [Trail.pass, if_pos hnamed]
    by_cases hend : path = []
    · -- the element is reached
      obtain rfl := hend
      have hnone : element_name[j + 1]? = none := by
        rw [List.getElem?_eq_none_iff, ← hdlen]
        simp
      have hj : j + 1 = element_name.length := hdlen
      rw [if_pos rfl, contentsLoop_reach hv htp rfl hel hnone]
      have hfound : found [(e.content, Trail.onLevel == Trail.onLevel)] =
          (elementEntry j e).ct.toList := rfl
      have hvalid : Valid element_name (j + 1) true := ⟨by omega, fun _ => rfl⟩
      have hreach : Trail.onLevel.reach e child =
          if e.attributes ≠ [] then .lost else if child = .nil then .fresh else .behind := rfl
      rw [hfound, hreach]
      by_cases hattr : e.attributes = []
      · rw [if_neg (not_not.mpr hattr), hattr, map_nil, nil_append]
        by_cases hchild : child = .nil
        · -- the entry behind it is of this level, or further up
          obtain rfl := hchild
          rw [if_pos rfl, entries_nil, nil_append]
          refine ⟨_, true, ⟨?_, fun _ => rfl⟩, ?_, rfl⟩
          · have hle := lookAhead_le fun entry hentry => Nat.le_succ_of_le (hitems entry hentry)
            exact le_trans hle hvalid.le
          · rw [← hj]
            rfl
        · -- the children are below the end of the path
          rw [if_neg hchild]
          have hnext : lookAhead (j + 1) (entries (j + 1) child ++ items).head? = j + 1 := by
            cases child with
            | nil => exact absurd rfl hchild
            | node e' child' next' =>
              rw [entries_node, cons_append, head?_cons, lookAhead]
              exact ite_self _
          rw [hnext, contentsLoop_skip hvalid]
          · exact ⟨j + 1, true, hvalid, Nat.lt_succ_self j, rfl⟩
          · intro item hitem
            refine ⟨.inr (.inr ?_), (le_rl_of_mem_entries hitem).1⟩
            rw [hnone]
            simp
      · obtain ⟨a, attributes, hcons⟩ := exists_cons_of_ne_nil hattr
        have hnext : lookAhead (j + 1) (e.attributes.map (attributeEntry j) ++
            (entries (j + 1) child ++ items)).head? = j + 1 := by
          rw [hcons, map_cons, cons_append, head?_cons, lookAhead]
          exact if_neg (attributeEntry_tp_ne a)
        rw [if_pos hattr, hnext, contentsLoop_attributes hne hvalid hattr]
        exact ⟨0, false, .start hne, rfl, rfl⟩
    · -- the path goes on
      have hmore : element_name[j + 1]? ≠ none := by
        rw [Ne, List.getElem?_eq_none_iff, ← hdlen]
        have := length_pos_iff.mpr hend
        omega
      have hvalid : Valid element_name (j + 1) true := ⟨by
        have := length_pos_iff.mpr hend
        omega, fun _ => rfl⟩
      rw [if_neg hend, contentsLoop_match hv htp rfl hel hmore, Trail.descend]
      by_cases hattr : e.attributes = []
      · obtain ⟨j', matched', hv', hholds, heq⟩ := hinner hend
        rw [if_pos hattr, hattr, map_nil, nil_append, heq]
        refine ⟨j', matched', hv', ?_, rfl⟩
        cases hstate : (inner .onLevel).1 with
        | onLevel =>
          rw [hstate] at hholds
          exact hholds ▸ Nat.lt_succ_self j
        | fresh =>
          rw [hstate] at hholds
          exact hholds
        | behind =>
          rw [hstate] at hholds
          exact Nat.lt_of_succ_lt hholds
        | lost =>
          rw [hstate] at hholds
          exact hholds
      · rw [if_neg hattr, contentsLoop_attributes hne hvalid hattr, hlost.1,
          found_eq_nil hlost.2, append_nil]
        exact ⟨0, false, .start hne, rfl, rfl⟩
  · -- another element, or a variable
    have hother : isVar e.name = true ∨ element_name[j]? ≠ some e.name := by
      rw [hat]
      by_contra hnot
      rw [not_or, not_not, Bool.not_eq_true, Option.some.injEq] at hnot
      exact hnamed ⟨hnot.1, hnot.2.symm⟩
    rw [Trail.pass, if_neg hnamed, contentsLoop_other hv le_rfl (.inr hother)]
    exact ⟨j, matched, hv, rfl, by rw [found]; simp⟩

/-- An element that is looked at on its level, or from the start of the path. -/
theorem contentsLoop_element (ret : List Bytes)
    (inner : Trail → Trail × List (Bytes × Bool)) {s : Trail} {name : Bytes} {path : List Bytes}
    (hd : 0 < d) (hpath : element_name.drop d = name :: path) (hlen : element_name.length ≤ 16)
    (hv : Valid element_name j matched) (hs : s = .onLevel ∧ j = d ∨ s = .lost ∧ j = 0)
    (hitems : ∀ item ∈ items.head?, item.rl ≤ d)
    (hlost : (inner .lost).1 = .lost ∧ ∀ x ∈ (inner .lost).2, x.2 = false)
    (hinner : path ≠ [] → ∃ j' matched', Valid element_name j' matched' ∧
      (inner .onLevel).1.Holds element_name.length (d + 1) j' items ∧
      contentsLoop element_name (d + 1) true ret (entries (d + 1) child ++ items) =
        contentsLoop element_name j' matched' (ret ++ found (inner .onLevel).2) items) :
    ∃ j' matched', Valid element_name j' matched' ∧
      (s.pass name path e child inner).1.Holds element_name.length d j' items ∧
      contentsLoop element_name j matched ret (elementEntry d e ::
          (e.attributes.map (attributeEntry d) ++ (entries (d + 1) child ++ items))) =
        contentsLoop element_name j' matched' (ret ++ found (s.pass name path e child inner).2)
          items := by
  obtain ⟨rfl, rfl⟩ | ⟨rfl, rfl⟩ := hs
  · exact contentsLoop_onLevel ret inner hpath hlen hv hitems hlost hinner
  · -- the trail is lost
    have hpass : (Trail.lost.pass name path e child inner).1 = .lost ∧
        ∀ x ∈ (Trail.lost.pass name path e child inner).2, x.2 = false := pass_lost hlost
    rw [hpass.1, found_eq_nil hpass.2, append_nil,
      contentsLoop_other hv (Nat.zero_le d) (.inl hd)]
    exact ⟨0, matched, hv, rfl, rfl⟩

/-- The entries of a level below the top one, behind those of the elements around it. -/
theorem contentsLoop_entries {s : Trail} {name : Bytes} {path : List Bytes} (hd : 0 < d)
    (hpath : element_name.drop d = name :: path) (hlen : element_name.length ≤ 16)
    (hv : Valid element_name j matched)
    (hs : s.Holds element_name.length d j (entries d t ++ post))
    (hpost : ∀ item ∈ post.head?, item.rl ≤ d) :
    ∃ j' matched', Valid element_name j' matched' ∧
      (visit (name :: path) s t).1.Holds element_name.length d j' post ∧
      contentsLoop element_name j matched ret (entries d t ++ post) =
        contentsLoop element_name j' matched' (ret ++ found (visit (name :: path) s t).2) post := by
  induction t generalizing d name path s j matched ret post with
  | nil =>
    have hvisit : visit (name :: path) s .nil = (s, []) := rfl
    rw [hvisit]
    exact ⟨j, matched, hv, hs, by rw [found]; simp⟩
  | node e child next ihchild ihnext =>
    have hdlen : d < element_name.length := by
      have hlength := congrArg List.length hpath
      rw [length_drop, length_cons] at hlength
      omega
    have hne : element_name ≠ [] := length_pos_iff.mp (by omega)
    have hitems : ∀ item ∈ (entries d next ++ post).head?, item.rl ≤ d := by
      intro item hitem
      cases next with
      | nil => exact hpost item hitem
      | node e' child' next' =>
        cases hitem
        exact Nat.le_refl d
    have hsplit : entries d (.node e child next) ++ post = elementEntry d e ::
        (e.attributes.map (attributeEntry d) ++
          (entries (d + 1) child ++ (entries d next ++ post))) := by
      simp [entries_node]
    rw [hsplit] at hs ⊢
    have hinner : path ≠ [] → ∃ j' matched', Valid element_name j' matched' ∧
        (visit path .onLevel child).1.Holds element_name.length (d + 1) j'
          (entries d next ++ post) ∧
        contentsLoop element_name (d + 1) true ret
            (entries (d + 1) child ++ (entries d next ++ post)) =
          contentsLoop element_name j' matched' (ret ++ found (visit path .onLevel child).2)
            (entries d next ++ post) := by
      intro hmore
      obtain ⟨name', path', rfl⟩ := exists_cons_of_ne_nil hmore
      have hpath' : element_name.drop (d + 1) = name' :: path' := by
        rw [← tail_drop, hpath]
        rfl
      have hvalid : Valid element_name (d + 1) true := ⟨by omega, fun _ => rfl⟩
      exact ihchild (Nat.succ_pos d) hpath' hvalid rfl fun item hitem =>
        Nat.le_succ_of_le (hitems item hitem)
    -- the element, then the ones behind it
    obtain ⟨j₁, matched₁, hv₁, heq₁, hs₁⟩ := contentsLoop_enter ret hne hdlen hv hs
    obtain ⟨j₂, matched₂, hv₂, hs₂, heq₂⟩ :=
      contentsLoop_element ret (fun s => visit path s child) hd hpath hlen hv₁ hs₁ hitems
        (visit_lost path child) hinner
    obtain ⟨j₃, matched₃, hv₃, hs₃, heq₃⟩ := ihnext hd hpath hv₂ hs₂ hpost
    refine ⟨j₃, matched₃, hv₃, hs₃, ?_⟩
    rw [heq₁, heq₂, heq₃, visit, found_append, append_assoc]

/-- Every element of the top level is looked at from the start of the path. -/
theorem contentsLoop_top (ret : List Bytes) (e : Element) (hne : element_name ≠ [])
    (hv : Valid element_name j matched) :
    ∃ matched', Valid element_name 0 matched' ∧
      contentsLoop element_name j matched ret (elementEntry 0 e :: items) =
        contentsLoop element_name 0 matched' ret (elementEntry 0 e :: items) := by
  by_cases hj : j = 0
  · obtain rfl := hj
    exact ⟨matched, hv, rfl⟩
  · have hlt : (elementEntry 0 e).rl < j := Nat.pos_of_ne_zero hj
    exact ⟨false, .start hne, contentsLoop_again hv (.inr (Nat.ne_of_lt hlt)) hlt⟩

/-- The entries of the top level. -/
theorem contentsLoop_entries_zero {name : Bytes} {path : List Bytes}
    (hpath : element_name = name :: path) (hlen : element_name.length ≤ 16)
    (hv : Valid element_name j matched) :
    contentsLoop element_name j matched ret (entries 0 t) =
      ret ++ found (visitAll element_name t) := by
  induction t generalizing j matched ret with
  | nil =>
    rw [hpath, visitAll, found]
    · simp [contentsLoop]
    · simp
  | node e child next _ ihnext =>
    have hne : element_name ≠ [] := hpath ▸ cons_ne_nil _ _
    have hitems : ∀ item ∈ (entries 0 next).head?, item.rl ≤ 0 := fun item hitem =>
      Nat.le_of_eq (head?_entries hitem).1
    have hinner : path ≠ [] → ∃ j' matched', Valid element_name j' matched' ∧
        (visit path .onLevel child).1.Holds element_name.length 1 j' (entries 0 next) ∧
        contentsLoop element_name 1 true ret (entries 1 child ++ entries 0 next) =
          contentsLoop element_name j' matched' (ret ++ found (visit path .onLevel child).2)
            (entries 0 next) := by
      intro hmore
      obtain ⟨name', path', rfl⟩ := exists_cons_of_ne_nil hmore
      have hvalid : Valid element_name 1 true := ⟨by decide, fun _ => rfl⟩
      exact contentsLoop_entries Nat.one_pos (by rw [hpath]; rfl) hlen hvalid rfl fun item hitem =>
        Nat.le_succ_of_le (hitems item hitem)
    obtain ⟨matched₁, hv₁, heq₁⟩ := contentsLoop_top ret e hne hv
    obtain ⟨j₂, matched₂, hv₂, -, heq₂⟩ :=
      contentsLoop_onLevel ret (fun s => visit path s child) (by rw [hpath]; rfl) hlen hv₁ hitems
        (visit_lost path child) hinner
    rw [entries_node, heq₁, heq₂, ihnext hv₂, append_assoc, ← found_append, hpath, visitAll,
      Trail.pass]
    split_ifs <;> rfl

end Loop

theorem getElementContent_entries {path : List Bytes} (hlen : path.length ≤ 16) (t : Elements) :
    getElementContent (entries 0 t) path = found (visitAll path t) := by
  cases path with
  | nil => cases t <;> rfl
  | cons name path =>
    rw [getElementContent, contentsLoop_entries_zero rfl hlen (.start (cons_ne_nil _ _)),
      nil_append]

/-- The walk returns the contents of the elements that the path reaches exactly if it is on the
level of each of them. -/
theorem getElementContent_eq_reached_iff {path : List Bytes} (hlen : path.length ≤ 16)
    (t : Elements) : getElementContent (entries 0 t) path = reached path t ↔ InSight path t := by
  rw [getElementContent_entries hlen, found_visitAll_eq_iff]

/-- In a file that is read, a path of at most 16 names gets the contents of the elements that it
reaches, one for each in the order of the document, if all of them are in sight. -/
theorem getElementContent_of_osReadXml {file : Bytes} {lxml : OSXml}
    (h : osReadXml file = .ok lxml) :
    (∃ t, Spelled file t ∧ lxml = entries 0 t) ∧
      ∀ t, lxml = entries 0 t → ∀ path, path.length ≤ 16 → InSight path t →
        getElementContent lxml path = reached path t ∧
          getOneContentforElement lxml path = (reached path t).head? := by
  refine ⟨spelled_of_osReadXml h, ?_⟩
  rintro t rfl path hlen hsight
  have hcontent := (getElementContent_eq_reached_iff hlen t).mpr hsight
  exact ⟨hcontent, by rw [getOneContentforElement, hcontent]⟩

/-- Two elements of the same name, the second of which has an attribute. -/
theorem getElementContent_of_osReadXml_two :
    getElementContent
        (entries 0 (.node ⟨lit "a", [], []⟩ (.node ⟨lit "b", [], lit "x"⟩ .nil
          (.node ⟨lit "b", [(lit "k", lit "v")], lit "y"⟩ .nil .nil)) .nil))
        [lit "a", lit "b"] = [lit "x", lit "y"] := by
  have hread : osReadXml (lit "<a><b>x</b><b k=\"v\">y</b></a>") =
      .ok (entries 0 (.node ⟨lit "a", [], []⟩ (.node ⟨lit "b", [], lit "x"⟩ .nil
        (.node ⟨lit "b", [(lit "k", lit "v")], lit "y"⟩ .nil .nil)) .nil)) := by rfl
  exact ((getElementContent_of_osReadXml hread).2 _ rfl [lit "a", lit "b"] (by decide)
    (by decide)).1

/-- Elements one inside the other. -/
def nested : ℕ → Elements → Bytes → Elements
  | 0, t, _ => t
  | n + 1, t, content =>
    .node ⟨lit "a", [], if n = 0 then content else []⟩ (nested n t content) .nil

def nestedText (n : ℕ) (s : Bytes) : Bytes :=
  (List.replicate n (lit "<a>")).flatten ++ s ++ (List.replicate n (lit "</a>")).flatten

set_option maxRecDepth 20000 in
/-- Seventeen names are too many for the walk, and an attribute of an element on the path makes it
lose the element below. -/
theorem not_getElementContent_reached :
    (osReadXml (nestedText 17 (lit "<b></b>x")) =
        .ok (entries 0 (nested 17 (.node ⟨lit "b", [], []⟩ .nil .nil) (lit "x"))) ∧
      reached (List.replicate 17 (lit "a"))
        (nested 17 (.node ⟨lit "b", [], []⟩ .nil .nil) (lit "x")) = [lit "x"] ∧
      getElementContent (entries 0 (nested 17 (.node ⟨lit "b", [], []⟩ .nil .nil) (lit "x")))
        (List.replicate 17 (lit "a")) = []) ∧
    osReadXml (lit "<a k=\"v\"><b>x</b></a>") = .ok (entries 0
        (.node ⟨lit "a", [(lit "k", lit "v")], []⟩ (.node ⟨lit "b", [], lit "x"⟩ .nil .nil) .nil)) ∧
      reached [lit "a", lit "b"] (.node ⟨lit "a", [(lit "k", lit "v")], []⟩
        (.node ⟨lit "b", [], lit "x"⟩ .nil .nil) .nil) = [lit "x"] ∧
      getElementContent (entries 0 (.node ⟨lit "a", [(lit "k", lit "v")], []⟩
        (.node ⟨lit "b", [], lit "x"⟩ .nil .nil) .nil)) [lit "a", lit "b"] = [] := by
  refine ⟨⟨?_, ?_, ?_⟩, ?_, ?_, ?_⟩
  · rfl
  · decide
  · decide
  · rfl
  · decide
  · decide

end OsXml
