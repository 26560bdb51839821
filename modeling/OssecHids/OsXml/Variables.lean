import OssecHids.Lib.Expansion
import OssecHids.OsXml.Forest

/-!
# Variables

`os_xml_variables.c`: the contents of a file with its variables in place.

- `osApplyVariables`: the loop over the arrays, with the buffer of a content as the function keeps it;
- `definitions`: the names and values of the variables;
- `substituteLoop_spec`: a content is expanded in one pass;
- `osApplyVariables_spec`: what becomes of the arrays.
-/

open CString List Option

namespace OsXml

def XML_VARIABLE_MAXSIZE : ℕ := 256

/-- The end of the name of a variable. -/
def endsVariable (c : UInt8) : Bool :=
  c == chr '$' || c == 0 || c == chr '.' || c == chr '|' || c == chr ',' || c == chr ' '

/-! ## Definitions -/

/-- The name of a variable at depth `rl`: the first attribute behind it that is not further up, with
its index. -/
def variableName (rl : ℕ) : ℕ → OSXml → Except Bytes (Option (ℕ × Bytes))
  | _, [] => .ok none
  | j, entry :: lxml =>
    if entry.rl < rl then .ok none
    else if entry.tp = .XML_ATTR then
      if strcasecmpEq entry.el (lit "name") then
        match entry.ct with
        | none => .error (lit "XMLERR: Invalid variable content.")
        | some name =>
          if name.length ≥ XML_VARIABLE_MAXSIZE then
            .error (lit "XMLERR: Invalid variable name size.")
          else .ok (some (j, name))
      else .error (lit "XMLERR: Only \"name\" is allowed as an attribute for a variable.")
    else variableName rl (j + 1) lxml

/-- A variable. The name is the string of the attribute with the index `attr`; there is none when
that string has been freed. -/
structure Variable where
  attr : ℕ
  name : Option Bytes
  value : Bytes

/-- The value of the first variable with the name. -/
def lookup (lvar : Bytes) : List Variable → Option (Option Bytes)
  | [] => some none
  | v :: vars =>
    match v.name with
    | none => none
    | some name => if strcasecmpEq name lvar then some (some v.value) else lookup lvar vars

/-- The string of the entry `i` is freed. -/
def freed (i : ℕ) (vars : List Variable) : List Variable :=
  vars.map fun v => if v.attr = i then { v with name := none } else v

/-! ## Contents -/

/-- The name behind a `$`, of which `lvar` is read, and what is behind it. -/
def readName : Bytes → Bytes → Except Bytes (Bytes × Bytes)
  | lvar, [] => .ok (lvar, [])
  | lvar, c :: p =>
    if endsVariable c then .ok (lvar, c :: p)
    else if lvar.length ≥ XML_VARIABLE_MAXSIZE - 1 then
      .error (snprintf XML_ERR_LENGTH
        (lit "XMLERR: Invalid variable name size: '" ++ fmtD lvar.length ++ lit "'."))
    else readName (lvar ++ [c]) p

/-- The content with the value at `init` in place of the name `lvar` and its `$`, in a buffer of the
size that the function computes: the part up to the value, and all of it. -/
def replaceName (ct : Bytes) (init : ℕ) (lvar value p : Bytes) : Bytes × Bytes :=
  let tsize := ct.length + value.length - lvar.length + 1
  let var_placeh := ct.take tsize
  let head := var_placeh.take init
  let head := head ++ value.take (tsize - init)
  (head, head ++ p.take (tsize - head.length))

/-- The loop over a content: `ct` is the string as it stands, of which `init` bytes are read, and `p`
the rest of the string as it was. The content is that of the entry `i`. -/
def substituteLoop (i : ℕ) : ℕ → List Variable → Bytes → ℕ → Bytes →
    Option (Except Bytes (Bytes × List Variable))
  | 0, _, _, _, _ => none
  | _ + 1, vars, ct, _, [] => some (.ok (ct, vars))
  | fuel + 1, vars, ct, init, c :: p =>
    if c = chr '$' then
      match readName [] p with
      | .error e => some (.error e)
      | .ok (lvar, p) =>
        match lookup lvar vars with
        | none => none
        | some (some value) =>
          let replaced := replaceName ct init lvar value p
          substituteLoop i fuel (freed i vars) replaced.2 replaced.1.length p
        | some none =>
          if lvar.length ≥ 1 then
            some (.error (snprintf XML_ERR_LENGTH
              (lit "XMLERR: Unknown variable: '" ++ lvar ++ lit "'.")))
          else substituteLoop i fuel vars ct (init + 1) p
    else substituteLoop i fuel vars ct (init + 1) p

/-- A content of the entry `i`. -/
def substitute (i : ℕ) (vars : List Variable) (ct : Bytes) :
    Option (Except Bytes (Bytes × List Variable)) :=
  if ct.length ≤ 2 ∨ vars = [] then some (.ok (ct, vars))
  else substituteLoop i (ct.length + 1) vars ct 0 ct

/-! ## The arrays -/

/-- The loop of `OS_ApplyVariables`, from the entry `i` on. -/
def applyLoop : List Variable → ℕ → OSXml → Option (Except Bytes OSXml)
  | _, _, [] => some (.ok [])
  | vars, i, item :: lxml =>
    if item.tp = .XML_VARIABLE_BEGIN then
      match variableName item.rl (i + 1) lxml, item.ct with
      | .error e, _ => some (.error e)
      | .ok (some (attr, name)), some value =>
        (applyLoop (vars ++ [{ attr := attr, name := some name, value := value }]) (i + 1)
          lxml).map fun r => r.map (item :: ·)
      | .ok _, _ => some (.error (lit "XMLERR: No value set for variable."))
    else
      match item.ct with
      | none => (applyLoop vars (i + 1) lxml).map fun r => r.map (item :: ·)
      | some ct =>
        match substitute i vars ct with
        | none => none
        | some (.error e) => some (.error e)
        | some (.ok (ct, vars)) =>
          (applyLoop vars (i + 1) lxml).map fun r => r.map ({ item with ct := some ct } :: ·)

/-- `OS_ApplyVariables`: the arrays, or the error. There is no result where a name is read that has
been freed. -/
def osApplyVariables (lxml : OSXml) : Option (Except Bytes OSXml) := applyLoop [] 0 lxml

/-! ## What is asked of it -/

/-- The name and the value that a variable defines. -/
def definitionOf (item : Item) (lxml : OSXml) : Option (Bytes × Bytes) :=
  match (lxml.takeWhile fun entry => !(entry.rl < item.rl : Bool)).find? fun entry =>
      entry.tp == .XML_ATTR with
  | none => none
  | some entry =>
    match entry.ct, item.ct with
    | some name, some value =>
      if strcasecmpEq entry.el (lit "name") ∧ name.length < XML_VARIABLE_MAXSIZE then
        some (name, value)
      else none
    | _, _ => none

/-- What the first entry defines. -/
def defines (item : Item) (lxml : OSXml) : List (Bytes × Bytes) :=
  if item.tp = .XML_VARIABLE_BEGIN then (definitionOf item lxml).toList else []

def definitions : OSXml → List (Bytes × Bytes)
  | [] => []
  | item :: lxml => defines item lxml ++ definitions lxml

/-- The value of a name: names are the same up to their case, and the first definition counts. -/
def valueIn (defs : List (Bytes × Bytes)) (name : Bytes) : Option Bytes :=
  (defs.find? fun d => strcasecmpEq d.1 name).map Prod.snd

/-- A content with the values of the variables in place of their names. -/
abbrev Expanded (defs : List (Bytes × Bytes)) : Bytes → Bytes → Prop :=
  Expands (chr '$') endsVariable (valueIn defs)

/-- What becomes of the content of an entry, with the definitions in front of it. -/
structure Becomes (defs : List (Bytes × Bytes)) (item : Item) (ct : Option Bytes) : Prop where
  same : item.tp = .XML_VARIABLE_BEGIN ∨ item.ct = none ∨ defs = [] → ct = item.ct
  expanded : item.tp ≠ .XML_VARIABLE_BEGIN → defs ≠ [] → ∀ s, item.ct = some s →
    (2 < s.length → ∃ t, Expanded defs s t ∧ ct = some t) ∧ (Expanded defs s s → ct = some s)

/-- The arrays behind the function, entry by entry. -/
def Applied : List (Bytes × Bytes) → OSXml → OSXml → Prop
  | _, [], lxml' => lxml' = []
  | defs, item :: lxml, lxml' =>
    ∃ ct rest, lxml' = { item with ct := ct } :: rest ∧ Becomes defs item ct ∧
      Applied (defs ++ defines item lxml) lxml rest

/-- Every variable has a name and a value, and the contents behind the first variable name variables
in front of them only. -/
def Applicable : List (Bytes × Bytes) → OSXml → Prop
  | _, [] => True
  | defs, item :: lxml =>
    (item.tp = .XML_VARIABLE_BEGIN → (definitionOf item lxml).isSome) ∧
      (item.tp ≠ .XML_VARIABLE_BEGIN → defs ≠ [] → ∀ s, item.ct = some s → 2 < s.length →
        ∃ t, Expanded defs s t) ∧
      Applicable (defs ++ defines item lxml) lxml

/-- The variables stand for the definitions. -/
abbrev Stand (vars : List Variable) (defs : List (Bytes × Bytes)) : Prop :=
  List.Forall₂ (fun v d => v.name = some d.1 ∧ v.value = d.2) vars defs

/-! ## A name -/

section Content

variable {i : ℕ} {vars : List Variable} {p out name value : Bytes} {defs : List (Bytes × Bytes)}

/-- What behind a `$` is a name, and what is not. -/
theorem readName_eq (lvar p : Bytes) :
    readName lvar p =
        .ok (lvar ++ p.takeWhile (fun c => !endsVariable c), p.dropWhile fun c => !endsVariable c) ∨
      XML_VARIABLE_MAXSIZE ≤ lvar.length + (p.takeWhile fun c => !endsVariable c).length ∧
        ∃ e, readName lvar p = .error e := by
  induction p generalizing lvar with
  | nil =>
    left
    rw [readName]
    simp
  | cons c p ih =>
    rw [readName]
    cases hc : endsVariable c with
    | true =>
      left
      rw [if_pos rfl, takeWhile_cons_of_neg (by simp [hc]),
        dropWhile_cons_of_neg (by simp [hc]), append_nil]
    | false =>
      rw [if_neg Bool.false_ne_true, takeWhile_cons_of_pos (by simp [hc]),
        dropWhile_cons_of_pos (by simp [hc])]
      by_cases hlen : lvar.length ≥ XML_VARIABLE_MAXSIZE - 1
      · right
        rw [if_pos hlen]
        refine ⟨?_, _, rfl⟩
        rw [length_cons]
        omega
      · rw [if_neg hlen]
        rcases ih (lvar ++ [c]) with h | ⟨hle, h⟩
        · left
          rw [h]
          simp
        · right
          refine ⟨?_, h⟩
          rw [length_append, length_singleton] at hle
          rw [length_cons]
          omega

theorem length_le_of_strcasecmpEq (h : strcasecmpEq name p = true) (hp : ∀ b ∈ p, b ≠ 0) :
    p.length ≤ name.length := by
  rw [strcasecmpEq, beq_iff_eq, str_eq_self hp] at h
  have hlen := congrArg List.length h
  rw [length_map, length_map] at hlen
  rw [← hlen]
  exact (takeWhile_sublist _).length_le

theorem ne_zero_of_mem_name {c : UInt8} (h : c ∈ p.takeWhile fun c => !endsVariable c) : c ≠ 0 := by
  rintro rfl
  have hends := mem_takeWhile_imp h
  cases hends

theorem valueIn_eq_none (hdefs : ∀ d ∈ defs, d.1.length < XML_VARIABLE_MAXSIZE)
    (hlen : XML_VARIABLE_MAXSIZE ≤ (p.takeWhile fun c => !endsVariable c).length) :
    valueIn defs (p.takeWhile fun c => !endsVariable c) = none := by
  have hnone : defs.find? (fun d => strcasecmpEq d.1 (p.takeWhile fun c => !endsVariable c)) =
      none := by
    rw [find?_eq_none]
    intro d hd heq
    have hle := length_le_of_strcasecmpEq heq fun b hb => ne_zero_of_mem_name hb
    have hlt := hdefs d hd
    omega
  rw [valueIn, hnone, map_none]

theorem lookup_eq (hvars : Stand vars defs) : lookup name vars = some (valueIn defs name) := by
  induction hvars with
  | nil => rfl
  | @cons v d vars defs hv _ ih =>
    obtain ⟨hname, hvalue⟩ := hv
    rw [lookup, hname]
    cases hd : strcasecmpEq d.1 name with
    | true => simp [valueIn, hd, hvalue]
    | false => simpa [valueIn, hd] using ih

theorem freed_eq (h : ∀ v ∈ vars, v.attr ≠ i) : freed i vars = vars := by
  rw [freed]
  conv_rhs => rw [← List.map_id vars]
  refine map_congr_left fun v hv => ?_
  rw [if_neg (h v hv), id]

/-! ## A content -/

/-- The buffer is large enough for the content with the value in it. -/
theorem replaceName_eq (out name value p : Bytes) :
    replaceName (out ++ chr '$' :: (name ++ p)) out.length name value p =
      (out ++ value, out ++ value ++ p) := by
  have hsize : (out ++ chr '$' :: (name ++ p)).length + value.length - name.length + 1 =
      out.length + value.length + p.length + 2 := by
    rw [length_append, length_cons, length_append]
    omega
  have hhead : ((out ++ chr '$' :: (name ++ p)).take
      (out.length + value.length + p.length + 2)).take out.length = out := by
    rw [take_take, Nat.min_eq_left (by omega), take_left]
  have hvalue : value.take (out.length + value.length + p.length + 2 - out.length) = value :=
    take_of_length_le (by omega)
  have hp : p.take (out.length + value.length + p.length + 2 - (out ++ value).length) = p := by
    refine take_of_length_le ?_
    rw [length_append]
    omega
  rw [replaceName, hsize, hhead, hvalue]
  exact Prod.ext rfl (by rw [hp])

theorem not_expanded (hvalue : valueIn defs (p.takeWhile fun c => !endsVariable c) = none)
    (hname : p.takeWhile (fun c => !endsVariable c) ≠ []) (t : Bytes) :
    ¬ Expanded defs (chr '$' :: p) t := by
  intro h
  obtain ⟨_, -, ⟨-, hnil, -⟩ | ⟨v, hv, -⟩⟩ := Expands.mark_iff.mp h
  · exact hname hnil
  · rw [hvalue] at hv
    cases hv

/-- The loop puts the expansion of what it still has to read behind what it has read. -/
theorem substituteLoop_spec (hvars : Stand vars defs)
    (hshort : ∀ d ∈ defs, d.1.length < XML_VARIABLE_MAXSIZE) (fuel : ℕ) (out p : Bytes)
    (hfuel : p.length < fuel)
    (hkept : chr '$' ∈ p → ∀ v ∈ vars, v.attr ≠ i) :
    (∃ t, Expanded defs p t ∧
        substituteLoop i fuel vars (out ++ p) out.length p = some (.ok (out ++ t, vars))) ∨
      (∀ t, ¬ Expanded defs p t) ∧
        ∃ e, substituteLoop i fuel vars (out ++ p) out.length p = some (.error e) := by
  induction fuel generalizing out p with
  | zero => omega
  | succ fuel ih =>
    cases p with
    | nil => exact .inl ⟨[], .nil, by rw [substituteLoop]⟩
    | cons c p =>
      rw [length_cons] at hfuel
      have hnext : out ++ c :: p = out ++ [c] ++ p := by simp
      have hinit : out.length + 1 = (out ++ [c]).length := by simp
      rw [substituteLoop]
      by_cases hc : c = chr '$'
      · subst hc
        have hfree := freed_eq (hkept mem_cons_self)
        have hsplit := takeWhile_append_dropWhile (p := fun c => !endsVariable c) (l := p)
        have hrest : (p.dropWhile fun c => !endsVariable c).length ≤ p.length :=
          (dropWhile_sublist _).length_le
        have hmem : chr '$' ∈ p.dropWhile (fun c => !endsVariable c) → ∀ v ∈ vars, v.attr ≠ i :=
          fun _ => hkept mem_cons_self
        rw [if_pos rfl]
        rcases readName_eq [] p with hread | ⟨hlong, e, hread⟩
        · rw [hread]
          dsimp only
          rw [nil_append, lookup_eq hvars]
          cases hvalue : valueIn defs (p.takeWhile fun c => !endsVariable c) with
          | none =>
            dsimp only
            by_cases hname : (p.takeWhile fun c => !endsVariable c).length ≥ 1
            · rw [if_pos hname]
              refine .inr ⟨not_expanded hvalue fun hnil => ?_, _, rfl⟩
              rw [hnil] at hname
              cases hname
            · -- a `$` without a name stays where it is
              have hnil := eq_nil_of_length_eq_zero (by omega :
                (p.takeWhile fun c => !endsVariable c).length = 0)
              rw [hnil, nil_append] at hsplit
              rw [if_neg hname, hnext, hinit, hsplit]
              rcases ih (out ++ [chr '$']) p (by omega) fun _ => hkept mem_cons_self with
                ⟨t, ht, h⟩ | ⟨hno, h⟩
              · refine .inl ⟨chr '$' :: t, Expands.mark_iff.mpr ⟨t, ?_, .inl ⟨hvalue, hnil, rfl⟩⟩,
                  ?_⟩
                · rw [hsplit]
                  exact ht
                · rw [h, append_assoc, singleton_append]
              · refine .inr ⟨fun t ht => ?_, h⟩
                obtain ⟨u, hu, -⟩ := Expands.mark_iff.mp ht
                rw [hsplit] at hu
                exact hno u hu
          | some value =>
            have hplace := replaceName_eq out (p.takeWhile fun c => !endsVariable c) value
              (p.dropWhile fun c => !endsVariable c)
            rw [hsplit] at hplace
            dsimp only
            rw [hplace, hfree]
            rcases ih (out ++ value) _ (by omega) hmem with ⟨t, ht, h⟩ | ⟨hno, h⟩
            · refine .inl ⟨value ++ t, Expands.mark_iff.mpr ⟨t, ht, .inr ⟨_, hvalue, rfl⟩⟩, ?_⟩
              rw [h, append_assoc]
            · refine .inr ⟨fun t ht => ?_, h⟩
              obtain ⟨u, hu, -⟩ := Expands.mark_iff.mp ht
              exact hno u hu
        · rw [hread]
          rw [length_nil, zero_add] at hlong
          refine .inr ⟨not_expanded (valueIn_eq_none hshort hlong) fun hnil => ?_, e, rfl⟩
          rw [hnil] at hlong
          cases hlong
      · rw [if_neg hc, hnext, hinit]
        rcases ih (out ++ [c]) p (by omega) fun hmem => hkept (mem_cons_of_mem c hmem) with
          ⟨t, ht, h⟩ | ⟨hno, h⟩
        · refine .inl ⟨c :: t, .plain hc ht, ?_⟩
          rw [h, append_assoc, singleton_append]
        · refine .inr ⟨fun t ht => ?_, h⟩
          obtain ⟨u, hu, -⟩ := (Expands.plain_iff hc).mp ht
          exact hno u hu

theorem substitute_spec (hvars : Stand vars defs)
    (hshort : ∀ d ∈ defs, d.1.length < XML_VARIABLE_MAXSIZE) {s : Bytes}
    (hkept : chr '$' ∈ s → ∀ v ∈ vars, v.attr ≠ i) :
    (∃ t, substitute i vars s = some (.ok (t, vars)) ∧ (s.length ≤ 2 ∨ defs = [] → t = s) ∧
        (2 < s.length → defs ≠ [] → Expanded defs s t)) ∨
      (2 < s.length ∧ defs ≠ [] ∧ (∀ t, ¬ Expanded defs s t)) ∧
        ∃ e, substitute i vars s = some (.error e) := by
  have hnil : vars = [] ↔ defs = [] := by
    rw [← length_eq_zero_iff, ← length_eq_zero_iff, hvars.length_eq]
  rw [substitute]
  by_cases hskip : s.length ≤ 2 ∨ vars = []
  · rw [if_pos hskip]
    rw [hnil] at hskip
    exact .inl ⟨s, rfl, fun _ => rfl, fun hlen hdefs => absurd hskip (by simp [hdefs]; omega)⟩
  · rw [if_neg hskip]
    rw [hnil, not_or, not_le] at hskip
    have hloop := substituteLoop_spec hvars hshort (s.length + 1) [] s (by omega) hkept
    simp only [nil_append, length_nil] at hloop
    rcases hloop with ⟨t, ht, h⟩ | ⟨hno, h⟩
    · exact .inl ⟨t, h, fun hor => absurd hor (by simp [hskip]), fun _ _ => ht⟩
    · exact .inr ⟨⟨hskip.1, hskip.2, hno⟩, h⟩

end Content

/-! ## A variable -/

section Loop

variable {vars : List Variable} {defs : List (Bytes × Bytes)} {item : Item} {lxml : OSXml} {i : ℕ}

/-- The search comes to the first attribute that is not further up. -/
theorem variableName_spec (rl j : ℕ) (lxml : OSXml) :
    match (lxml.takeWhile fun entry => !(entry.rl < rl : Bool)).find? fun entry =>
        entry.tp == .XML_ATTR with
    | none => variableName rl j lxml = .ok none
    | some entry =>
      (∃ k name, lxml[k]? = some entry ∧ entry.ct = some name ∧
          (strcasecmpEq entry.el (lit "name") ∧ name.length < XML_VARIABLE_MAXSIZE) ∧
          variableName rl j lxml = .ok (some (j + k, name))) ∨
        (∀ name, entry.ct = some name →
            ¬ (strcasecmpEq entry.el (lit "name") ∧ name.length < XML_VARIABLE_MAXSIZE)) ∧
          ∃ e, variableName rl j lxml = .error e := by
  induction lxml generalizing j with
  | nil => rfl
  | cons entry lxml ih =>
    rw [variableName]
    by_cases hrl : entry.rl < rl
    · rw [if_pos hrl, takeWhile_cons_of_neg (by simp [hrl])]
      rfl
    · rw [if_neg hrl, takeWhile_cons_of_pos (by simp [hrl])]
      by_cases htp : entry.tp = .XML_ATTR
      · rw [if_pos htp, find?_cons_of_pos (by simp [htp])]
        by_cases hel : strcasecmpEq entry.el (lit "name") = true
        · rw [if_pos hel]
          cases hct : entry.ct with
          | none => exact .inr ⟨fun name hname => absurd (hct.symm.trans hname) nofun, _, rfl⟩
          | some name =>
            dsimp only
            by_cases hlen : name.length ≥ XML_VARIABLE_MAXSIZE
            · rw [if_pos hlen]
              refine .inr ⟨fun name' hname => ?_, _, rfl⟩
              rw [← some.inj (hct.symm.trans hname)]
              exact fun h => absurd h.2 (by omega)
            · rw [if_neg hlen]
              exact .inl ⟨0, name, rfl, hct, ⟨hel, by omega⟩, rfl⟩
        · rw [if_neg hel]
          exact .inr ⟨fun _ _ h => hel h.1, _, rfl⟩
      · rw [if_neg htp, find?_cons_of_neg (by simp [htp])]
        have hrest := ih (j + 1)
        revert hrest
        cases (lxml.takeWhile fun entry => !(entry.rl < rl : Bool)).find? fun entry =>
            entry.tp == .XML_ATTR with
        | none => exact id
        | some found =>
          rintro (⟨k, name, hk, hct, hname, h⟩ | h)
          · refine .inl ⟨k + 1, name, hk, hct, hname, ?_⟩
            rw [h, add_assoc, add_comm 1 k]
          · exact .inr h

/-- A variable is what it defines, or the function fails at it. -/
theorem variable_spec (vars : List Variable) (i : ℕ) (htp : item.tp = .XML_VARIABLE_BEGIN) :
    (∃ k entry name value, lxml[k]? = some entry ∧ entry.ct = some name ∧
        name.length < XML_VARIABLE_MAXSIZE ∧ definitionOf item lxml = some (name, value) ∧
        applyLoop vars i (item :: lxml) =
          (applyLoop (vars ++ [{ attr := i + 1 + k, name := some name, value := value }]) (i + 1)
            lxml).map fun r => r.map (item :: ·)) ∨
      definitionOf item lxml = none ∧
        ∃ e, applyLoop vars i (item :: lxml) = some (.error e) := by
  have hname := variableName_spec item.rl (i + 1) lxml
  revert hname
  rw [definitionOf, applyLoop, if_pos htp]
  cases (lxml.takeWhile fun entry => !(entry.rl < item.rl : Bool)).find? fun entry =>
      entry.tp == .XML_ATTR with
  | none =>
    intro h
    rw [h]
    exact .inr ⟨rfl, _, rfl⟩
  | some entry =>
    rintro (⟨k, name, hk, hct, hname, h⟩ | ⟨hno, e, h⟩)
    · rw [h]
      dsimp only
      rw [hct]
      cases hvalue : item.ct with
      | none => exact .inr ⟨rfl, _, rfl⟩
      | some value => exact .inl ⟨k, entry, name, value, hk, hct, hname.2, if_pos hname, rfl⟩
    · rw [h]
      refine .inr ⟨?_, e, rfl⟩
      dsimp only
      cases hct : entry.ct with
      | none => rfl
      | some name =>
        cases item.ct with
        | none => rfl
        | some value => exact if_neg (hno name hct)

/-! ## The arrays -/

/-- What the loop keeps: the variables stand for the definitions in front of the entry `i`, and no
entry from there on that gives one its name has a `$` in it. -/
structure Sound (vars : List Variable) (defs : List (Bytes × Bytes)) (i : ℕ) (lxml : OSXml) :
    Prop where
  stand : Stand vars defs
  short : ∀ d ∈ defs, d.1.length < XML_VARIABLE_MAXSIZE
  kept : ∀ v ∈ vars, ∀ k entry, lxml[k]? = some entry → v.attr = i + k →
    ∀ s, entry.ct = some s → chr '$' ∉ s

theorem Sound.tail (h : Sound vars defs i (item :: lxml)) : Sound vars defs (i + 1) lxml where
  stand := h.stand
  short := h.short
  kept v hv k entry hk hattr := h.kept v hv (k + 1) entry hk (by omega)

theorem Sound.concat (h : Sound vars defs i lxml) {k : ℕ} {entry : Item} {name value : Bytes}
    (hk : lxml[k]? = some entry) (hct : entry.ct = some name)
    (hlen : name.length < XML_VARIABLE_MAXSIZE) (hname : chr '$' ∉ name) :
    Sound (vars ++ [{ attr := i + k, name := some name, value := value }]) (defs ++ [(name, value)])
      i lxml where
  stand := rel_append h.stand (.cons ⟨rfl, rfl⟩ .nil)
  short := by
    intro d hd
    rw [mem_append, mem_singleton] at hd
    rcases hd with hd | rfl
    · exact h.short d hd
    · exact hlen
  kept := by
    intro v hv k' entry' hk' hattr s hs
    rw [mem_append, mem_singleton] at hv
    rcases hv with hv | rfl
    · exact h.kept v hv k' entry' hk' hattr s hs
    · have hkk : k = k' := by
        dsimp only at hattr
        omega
      subst hkk
      rw [hk] at hk'
      rw [← some.inj hk', hct] at hs
      rw [← some.inj hs]
      exact hname

/-- The loop from an entry on. -/
theorem applyLoop_spec (h : Sound vars defs i lxml)
    (hnames : ∀ d ∈ definitions lxml, chr '$' ∉ d.1) :
    (Applicable defs lxml ∧
        ∃ lxml', applyLoop vars i lxml = some (.ok lxml') ∧ Applied defs lxml lxml') ∨
      ¬ Applicable defs lxml ∧ ∃ e, applyLoop vars i lxml = some (.error e) := by
  induction lxml generalizing vars defs i with
  | nil => exact .inl ⟨trivial, [], by rw [applyLoop], rfl⟩
  | cons item lxml ih =>
    rw [definitions] at hnames
    have hrest : ∀ d ∈ definitions lxml, chr '$' ∉ d.1 := fun d hd =>
      hnames d (mem_append_right _ hd)
    by_cases htp : item.tp = .XML_VARIABLE_BEGIN
    · have hsame : Becomes defs item item.ct := ⟨fun _ => rfl, fun hne => absurd htp hne⟩
      rcases variable_spec vars i htp with
        ⟨k, entry, name, value, hk, hct, hlen, hdef, happly⟩ | ⟨hnone, e, happly⟩
      · have hdefines : defines item lxml = [(name, value)] := by
          rw [defines, if_pos htp, hdef]
          rfl
        have hname : chr '$' ∉ name := hnames (name, value) (by rw [hdefines]; simp)
        rw [happly]
        rw [Applicable, hdefines]
        rcases ih (h.tail.concat hk hct hlen hname) hrest with
          ⟨hok, lxml', hloop, happlied⟩ | ⟨hno, e, hloop⟩
        · refine .inl ⟨⟨fun _ => by rw [hdef]; rfl, fun hne => absurd htp hne, hok⟩,
            item :: lxml', by rw [hloop]; rfl, item.ct, lxml', rfl, hsame, ?_⟩
          rw [hdefines]
          exact happlied
        · exact .inr ⟨fun hall => hno hall.2.2, e, by rw [hloop]; rfl⟩
      · refine .inr ⟨fun hall => ?_, e, happly⟩
        have hsome := hall.1 htp
        rw [hnone] at hsome
        cases hsome
    · have hdefines : defines item lxml = [] := if_neg htp
      -- behind the entry, whatever becomes of its content
      have hbehind := ih h.tail hrest
      rw [Applicable, hdefines, append_nil, applyLoop, if_neg htp]
      cases hct : item.ct with
      | none =>
        have hsame : Becomes defs item none :=
          ⟨fun _ => hct.symm, fun _ _ s hs => by rw [hct] at hs; cases hs⟩
        rcases hbehind with ⟨hok, lxml', hloop, happlied⟩ | ⟨hno, e, hloop⟩
        · refine .inl ⟨⟨fun heq => absurd heq htp, nofun, hok⟩, item :: lxml', by rw [hloop]; rfl,
            none, lxml', by rw [← hct], hsame, ?_⟩
          rw [hdefines, append_nil]
          exact happlied
        · exact .inr ⟨fun hall => hno hall.2.2, e, by rw [hloop]; rfl⟩
      | some s =>
        have hkept : chr '$' ∈ s → ∀ v ∈ vars, v.attr ≠ i := fun hmem v hv heq =>
          h.kept v hv 0 item rfl heq s hct hmem
        rcases substitute_spec h.stand h.short hkept with
          ⟨t, hsub, hskip, hexp⟩ | ⟨⟨hlen, hdefs, hno⟩, e, hsub⟩
        · have hbecomes : Becomes defs item (some t) := by
            constructor
            · rintro (heq | heq | heq)
              · exact absurd heq htp
              · rw [hct] at heq
                cases heq
              · rw [hct, hskip (.inr heq)]
            · intro _ hdefs s' hs'
              rw [hct] at hs'
              obtain rfl := some.inj hs'
              refine ⟨fun hlen => ⟨t, hexp hlen hdefs, rfl⟩, fun hself => ?_⟩
              rcases lt_or_ge 2 s.length with hlen | hlen
              · rw [(hexp hlen hdefs).unique hself]
              · rw [hskip (.inl hlen)]
          dsimp only
          rw [hsub]
          dsimp only
          rcases hbehind with ⟨hok, lxml', hloop, happlied⟩ | ⟨hno, e, hloop⟩
          · refine .inl ⟨⟨fun heq => absurd heq htp, fun _ hdefs s' hs' hlen => ?_, hok⟩,
              { item with ct := some t } :: lxml', by rw [hloop]; rfl, some t, lxml', rfl, hbecomes,
              ?_⟩
            · rw [← some.inj hs'] at hlen ⊢
              exact ⟨t, hexp hlen hdefs⟩
            · rw [hdefines, append_nil]
              exact happlied
          · exact .inr ⟨fun hall => hno hall.2.2, e, by rw [hloop]; rfl⟩
        · dsimp only
          rw [hsub]
          refine .inr ⟨fun hall => ?_, e, rfl⟩
          obtain ⟨t, ht⟩ := hall.2.1 htp hdefs s rfl hlen
          exact hno t ht

/-- The function expands the contents behind the definitions, each in one pass, or fails where there
is no expansion. -/
theorem osApplyVariables_spec (hnames : ∀ d ∈ definitions lxml, chr '$' ∉ d.1) :
    (Applicable [] lxml ∧
        ∃ lxml', osApplyVariables lxml = some (.ok lxml') ∧ Applied [] lxml lxml') ∨
      ¬ Applicable [] lxml ∧ ∃ e, osApplyVariables lxml = some (.error e) := by
  rw [osApplyVariables]
  exact applyLoop_spec ⟨.nil, nofun, nofun⟩ hnames

end Loop

/-- A value with a `$`, and a name that another one begins with. -/
def twoVariables (ct : Bytes) : OSXml :=
  [⟨lit "var", some (lit "$b"), .XML_VARIABLE_BEGIN, 0, true⟩,
    ⟨lit "name", some (lit "a"), .XML_ATTR, 0, true⟩,
    ⟨lit "var", some (lit "2"), .XML_VARIABLE_BEGIN, 0, true⟩,
    ⟨lit "name", some (lit "ab"), .XML_ATTR, 0, true⟩, ⟨lit "x", some ct, .XML_ELEM, 0, true⟩]

theorem osApplyVariables_spec_two :
    ∃ lxml', osApplyVariables (twoVariables (lit "$a$ab $.")) = some (.ok lxml') ∧
      Applied [] (twoVariables (lit "$a$ab $.")) lxml' := by
  have hnames : ∀ d ∈ definitions (twoVariables (lit "$a$ab $.")), chr '$' ∉ d.1 := by decide
  rcases osApplyVariables_spec hnames with
    ⟨-, h⟩ | ⟨-, e, h⟩
  · exact h
  · have hrun : osApplyVariables (twoVariables (lit "$a$ab $.")) =
        some (.ok (twoVariables (lit "$b2 $."))) := by rfl
    rw [hrun] at h
    cases h

/-- A name without a definition is an error, and a definition does not reach the contents in front
of it. -/
theorem unknown_or_late :
    (osReadXml (lit "<var name=\"a\">1</var><x>$b c</x>") =
        .ok [⟨lit "var", some (lit "1"), .XML_VARIABLE_BEGIN, 0, true⟩,
          ⟨lit "name", some (lit "a"), .XML_ATTR, 0, true⟩,
          ⟨lit "x", some (lit "$b c"), .XML_ELEM, 0, true⟩] ∧
      osApplyVariables [⟨lit "var", some (lit "1"), .XML_VARIABLE_BEGIN, 0, true⟩,
          ⟨lit "name", some (lit "a"), .XML_ATTR, 0, true⟩,
          ⟨lit "x", some (lit "$b c"), .XML_ELEM, 0, true⟩] =
        some (.error (lit "XMLERR: Unknown variable: 'b'."))) ∧
    osReadXml (lit "<x>$a b</x><var name=\"a\">1</var>") =
        .ok [⟨lit "x", some (lit "$a b"), .XML_ELEM, 0, true⟩,
          ⟨lit "var", some (lit "1"), .XML_VARIABLE_BEGIN, 0, true⟩,
          ⟨lit "name", some (lit "a"), .XML_ATTR, 0, true⟩] ∧
      osApplyVariables [⟨lit "x", some (lit "$a b"), .XML_ELEM, 0, true⟩,
          ⟨lit "var", some (lit "1"), .XML_VARIABLE_BEGIN, 0, true⟩,
          ⟨lit "name", some (lit "a"), .XML_ATTR, 0, true⟩] =
        some (.ok [⟨lit "x", some (lit "$a b"), .XML_ELEM, 0, true⟩,
          ⟨lit "var", some (lit "1"), .XML_VARIABLE_BEGIN, 0, true⟩,
          ⟨lit "name", some (lit "a"), .XML_ATTR, 0, true⟩]) ∧
      Expanded [(lit "a", lit "1")] (lit "$a b") (lit "1 b") := by
  refine ⟨⟨by rfl, by rfl⟩, by rfl, by rfl, ?_⟩
  have hrest : Expanded [(lit "a", lit "1")] (lit " b") (lit " b") :=
    Expands.self_of_notMem (by decide)
  exact Expands.mark_iff.mpr ⟨lit " b", hrest, Or.inr ⟨lit "1", by rfl, rfl⟩⟩

end OsXml
