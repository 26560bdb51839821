import OssecHids.Lib.Search
import OssecHids.OsExecd.Request
import OssecHids.Shared.Merge

/-!
# The table of active responses

`ReadExecConfig`: the lines `name - command - timeout` of `ar.conf`. A line whose command is not there
is kept without it, until a later line of the same name has one that is.

- `addEntry_step`: what one line does to the table;
- `reads_execLines`: what is found under a name;
- `getCommandbyName_law`: the command and the timeout that a name has behind any sequence of reads.
-/

open CString List Option

namespace Execd

def MAX_AR : ℕ := 64
def OS_FLSIZE : ℕ := 256
def OS_MAXSTR : ℕ := 6144
def AR_BINDIRPATH : Bytes := lit "/var/ossec/active-response/bin"

/-! ## Definitions -/

/-- What is read: the file, and the commands that can be opened. -/
structure Environment where
  ar_conf : Option Bytes
  present : Bytes → Bool

/-- The table, and `f_time_reading`. -/
structure ExecState where
  exec : List ExecConfig
  f_time_reading : Bool

/-- The full path of a command, or nothing if it is not used. -/
def commandPath (present : Bytes → Bool) (str_pt : Bytes) : Bytes :=
  if Merge.wRefParentFolder str_pt then []
  else
    let exec_cmd := snprintf OS_FLSIZE (AR_BINDIRPATH ++ lit "/" ++ str_pt)
    if present exec_cmd then exec_cmd else []

/-- The fields of a line. -/
def parseLine (present : Bytes → Bool) (buffer : Bytes) : Option ExecConfig :=
  match strstr (lit " - ") (str buffer) with
  | none => none
  | some tmp_str =>
    let exec_name := strncpy OS_FLSIZE ((str buffer).take (ptrDiff tmp_str (str buffer)))
    let str_pt := tmp_str.drop 3
    match strstr (lit " - ") str_pt with
    | none => none
    | some tmp_str =>
      let timeout := tmp_str.drop 3
      some {
        exec_name := exec_name
        exec_cmd := commandPath present (str_pt.take (ptrDiff tmp_str str_pt))
        exec_timeout := Int32.ofInt (atoi (timeout.takeWhile (· != chr '\n'))) }

/-- The loop over the table for a new line: the table, and `dup_entry`. -/
def mergeEntry (entry : ExecConfig) : List ExecConfig → List ExecConfig × Bool
  | [] => ([], false)
  | e :: exec =>
    if e.exec_name = entry.exec_name then
      if e.exec_cmd = [] then ({ e with exec_cmd := strncpy OS_FLSIZE entry.exec_cmd } :: exec, true)
      else
        let r := mergeEntry entry exec
        (e :: r.1, r.2 || entry.exec_cmd == [])
    else
      let r := mergeEntry entry exec
      (e :: r.1, r.2)

/-- What a line does to the table. -/
def addEntry (exec : List ExecConfig) (entry : ExecConfig) : List ExecConfig :=
  let r := mergeEntry entry exec
  if r.2 then r.1 else if exec.length ≥ MAX_AR then r.1 else r.1 ++ [entry]

/-- The lines of a file -/
def execLines (present : Bytes → Bool) (fp : Bytes) : List ExecConfig :=
  (readLines OS_MAXSTR fp).filterMap (parseLine present)

/-- `ReadExecConfig` -/
def readExecConfig (s : ExecState) (env : Environment) : ExecState × Bool :=
  match env.ar_conf with
  | none => ({ s with exec := [] }, false)
  | some fp => (⟨(execLines env.present fp).foldl addEntry [], false⟩, true)

/-! ## What is asked of it -/

/-- A line has a command that is there. -/
def Present (entry : ExecConfig) : Bool := entry.exec_cmd != []

/-- A line takes a place of its own: it is the first one of its name, or its command is there as one
of an earlier line of its name is. -/
def takesPlace (before : List ExecConfig) (entry : ExecConfig) : Bool :=
  !before.any (fun e => e.exec_name == entry.exec_name) ||
    (Present entry && before.any fun e => e.exec_name == entry.exec_name && Present e)

/-- How many places lines take. -/
def places : List ExecConfig → ℕ
  | lines => go [] lines
where
  go : List ExecConfig → List ExecConfig → ℕ
    | _, [] => 0
    | before, entry :: lines =>
      (if takesPlace before entry then 1 else 0) + go (before ++ [entry]) lines

/-- The command of the first line with the name whose command is there -/
def firstCommand (lines : List ExecConfig) (name : Bytes) : Bytes :=
  ((lines.find? fun e => e.exec_name == name && Present e).map ExecConfig.exec_cmd).getD []

/-- The lines in front of the first one with the name -/
def inFront (lines : List ExecConfig) (name : Bytes) : List ExecConfig :=
  lines.takeWhile fun e => e.exec_name != name

/-! ## The lines of one name -/

variable {exec lines before : List ExecConfig} {entry e x : ExecConfig} {name : Bytes}

theorem places_go_concat (before lines : List ExecConfig) (entry : ExecConfig) :
    places.go before (lines ++ [entry]) =
      places.go before lines + if takesPlace (before ++ lines) entry then 1 else 0 := by
  induction lines generalizing before with
  | nil => simp [places.go]
  | cons e lines ih =>
    rw [cons_append, places.go, places.go, ih, add_assoc, append_assoc]
    rfl

theorem places_concat (lines : List ExecConfig) (entry : ExecConfig) :
    places (lines ++ [entry]) = places lines + if takesPlace lines entry then 1 else 0 :=
  places_go_concat [] lines entry

theorem places_le_append (lines more : List ExecConfig) : places lines ≤ places (lines ++ more) := by
  induction more using List.reverseRecOn with
  | nil => rw [append_nil]
  | append_singleton more entry ih =>
    rw [← append_assoc, places_concat]
    omega

theorem places_inFront_le (lines : List ExecConfig) (name : Bytes) :
    places (inFront lines name) ≤ places lines := by
  obtain ⟨more, hmore⟩ := List.takeWhile_prefix (l := lines) fun e => e.exec_name != name
  have hle := places_le_append (inFront lines name) more
  rwa [inFront, hmore] at hle

/-- What is found under a name behind some lines -/
def entryOf (lines : List ExecConfig) (name : Bytes) : Option ExecConfig :=
  match lines.find? fun e => e.exec_name == name with
  | none => none
  | some first =>
    if places (inFront lines name) < MAX_AR then
      some { first with exec_cmd := firstCommand lines name }
    else none

theorem firstCommand_concat (lines : List ExecConfig) (entry : ExecConfig) (name : Bytes) :
    firstCommand (lines ++ [entry]) name =
      if firstCommand lines name = [] ∧ entry.exec_name = name then entry.exec_cmd
      else firstCommand lines name := by
  rw [firstCommand, firstCommand, find?_append]
  cases hfind : lines.find? fun e => e.exec_name == name && Present e with
  | some x =>
    have hx := find?_some hfind
    rw [Bool.and_eq_true, Present, bne_iff_ne] at hx
    rw [some_or, map_some, getD_some, if_neg fun h => hx.2 h.1]
  | none =>
    rw [none_or, map_none, getD_none]
    by_cases hname : entry.exec_name = name
    · rw [if_pos ⟨rfl, hname⟩]
      by_cases hcmd : entry.exec_cmd = []
      · rw [find?_cons_of_neg (by simp [Present, hcmd]), hcmd]
        rfl
      · rw [find?_cons_of_pos (by simp [Present, hcmd, hname])]
        rfl
    · rw [if_neg fun h => hname h.2, find?_cons_of_neg (by simp [hname])]
      rfl

theorem any_present_iff :
    (lines.any fun e => e.exec_name == name && Present e) = true ↔ firstCommand lines name ≠ [] := by
  rw [firstCommand]
  cases hfind : lines.find? fun e => e.exec_name == name && Present e with
  | some x =>
    have hfound := find?_some hfind
    have hx := hfound
    rw [Bool.and_eq_true, Present, bne_iff_ne] at hx
    exact iff_of_true (any_eq_true.mpr ⟨x, mem_of_find?_eq_some hfind, hfound⟩) hx.2
  | none =>
    refine iff_of_false ?_ (by simp)
    rw [Bool.not_eq_true, List.any_eq_false]
    exact fun e he => by simpa using find?_eq_none.mp hfind e he

theorem inFront_concat_of_mem (h : ∃ e ∈ lines, e.exec_name = name) :
    inFront (lines ++ [entry]) name = inFront lines name := by
  obtain ⟨e, he, hname⟩ := h
  rw [inFront, inFront, takeWhile_append, if_neg]
  intro hall
  have hself : lines.takeWhile (fun e => e.exec_name != name) = lines :=
    (List.takeWhile_prefix _).eq_of_length hall
  rw [takeWhile_eq_self_iff] at hself
  have hne := hself e he
  rw [hname, bne_self_eq_false] at hne
  cases hne

theorem inFront_concat_of_notMem (h : ∀ e ∈ lines, e.exec_name ≠ name) :
    inFront (lines ++ [entry]) name = lines ++ inFront [entry] name := by
  rw [inFront, takeWhile_append_of_pos fun e he => bne_iff_ne.mpr (h e he)]
  rfl

/-- Another line of the name makes no difference but to the command. -/
theorem entryOf_concat (lines : List ExecConfig) (entry : ExecConfig) (name : Bytes) :
    entryOf (lines ++ [entry]) name =
      if entry.exec_name = name then
        match lines.find? fun e => e.exec_name == name with
        | none => if places lines < MAX_AR then some entry else none
        | some _ => (entryOf lines name).map fun x =>
            if x.exec_cmd = [] then { x with exec_cmd := entry.exec_cmd } else x
      else entryOf lines name := by
  by_cases hname : entry.exec_name = name
  · rw [if_pos hname, entryOf, find?_append]
    cases hfind : lines.find? fun e => e.exec_name == name with
    | none =>
      have hne : ∀ e ∈ lines, e.exec_name ≠ name := fun e he => by
        simpa using find?_eq_none.mp hfind e he
      have hfirst : firstCommand lines name = [] := by
        by_contra hcmd
        obtain ⟨e, he, hpresent⟩ := any_eq_true.mp (any_present_iff.mpr hcmd)
        rw [Bool.and_eq_true, beq_iff_eq] at hpresent
        exact hne e he hpresent.1
      have hfront : inFront [entry] name = [] := by
        rw [inFront, takeWhile_cons_of_neg (by simp [hname])]
      rw [none_or, find?_cons_of_pos (by simp [hname]), inFront_concat_of_notMem hne,
        hfront, append_nil, firstCommand_concat, if_pos ⟨hfirst, hname⟩]
    | some first =>
      have hmem : ∃ e ∈ lines, e.exec_name = name :=
        ⟨first, mem_of_find?_eq_some hfind, by simpa using find?_some hfind⟩
      rw [some_or, inFront_concat_of_mem hmem, firstCommand_concat, entryOf, hfind]
      dsimp only
      by_cases hplaces : places (inFront lines name) < MAX_AR
      · rw [if_pos hplaces, if_pos hplaces, map_some]
        by_cases hcmd : firstCommand lines name = []
        · rw [if_pos ⟨hcmd, hname⟩, if_pos hcmd]
        · rw [if_neg fun h => hcmd h.1, if_neg hcmd]
      · rw [if_neg hplaces, if_neg hplaces, map_none]
  · rw [if_neg hname, entryOf, entryOf, find?_append]
    have hnone : [entry].find? (fun e => e.exec_name == name) = none := by
      rw [find?_cons_of_neg (by simp [hname]), find?_nil]
    cases hfind : lines.find? fun e => e.exec_name == name with
    | none =>
      rw [hnone]
      rfl
    | some first =>
      have hmem : ∃ e ∈ lines, e.exec_name = name :=
        ⟨first, mem_of_find?_eq_some hfind, by simpa using find?_some hfind⟩
      rw [some_or, inFront_concat_of_mem hmem, firstCommand_concat, if_neg fun h => hname h.2]

/-! ## The table -/

/-- Only the first of the entries of a name may lack its command. -/
def Revivable (exec : List ExecConfig) : Prop :=
  exec.Pairwise fun a b => a.exec_name = b.exec_name → b.exec_cmd ≠ []

theorem mergeEntry_of_notMem (h : ∀ e ∈ exec, e.exec_name ≠ entry.exec_name) :
    mergeEntry entry exec = (exec, false) := by
  induction exec with
  | nil => rfl
  | cons e exec ih =>
    obtain ⟨he, hexec⟩ := forall_mem_cons.mp h
    rw [mergeEntry, if_neg he, ih hexec]

theorem mergeEntry_of_present (h : ∀ e ∈ exec, e.exec_name = entry.exec_name → e.exec_cmd ≠ []) :
    mergeEntry entry exec =
      (exec, exec.any (fun e => e.exec_name == entry.exec_name) && entry.exec_cmd == []) := by
  induction exec with
  | nil => rfl
  | cons e exec ih =>
    obtain ⟨he, hexec⟩ := forall_mem_cons.mp h
    rw [mergeEntry, ih hexec, any_cons]
    by_cases hname : e.exec_name = entry.exec_name
    · rw [if_pos hname, if_neg (he hname), beq_iff_eq.mpr hname]
      cases entry.exec_cmd == [] <;> simp
    · rw [if_neg hname, beq_eq_false_iff_ne.mpr hname, Bool.false_or]

theorem mergeEntry_of_first {l r : List ExecConfig} (hl : ∀ e ∈ l, e.exec_name ≠ entry.exec_name)
    (hx : x.exec_name = entry.exec_name) (hcmd : x.exec_cmd = []) :
    mergeEntry entry (l ++ x :: r) =
      (l ++ { x with exec_cmd := strncpy OS_FLSIZE entry.exec_cmd } :: r, true) := by
  induction l with
  | nil => rw [nil_append, mergeEntry, if_pos hx, if_pos hcmd, nil_append]
  | cons e l ih =>
    obtain ⟨he, hl⟩ := forall_mem_cons.mp hl
    rw [cons_append, mergeEntry, if_neg he, ih hl, cons_append]

theorem exists_of_find? (h : exec.find? (fun e => e.exec_name == name) = some x) :
    ∃ l r, exec = l ++ x :: r ∧ x.exec_name = name ∧ ∀ e ∈ l, e.exec_name ≠ name := by
  obtain ⟨hx, l, r, rfl, hl⟩ := find?_eq_some_iff_append.mp h
  exact ⟨l, r, rfl, beq_iff_eq.mp hx, fun e he => by simpa using hl e he⟩

/-- **What a line does to the table**: it is entered, or its command is, or nothing is. -/
theorem addEntry_step (hrev : Revivable exec)
    (hcopy : strncpy OS_FLSIZE entry.exec_cmd = entry.exec_cmd) :
    match exec.find? fun e => e.exec_name == entry.exec_name with
    | none => addEntry exec entry = if exec.length < MAX_AR then exec ++ [entry] else exec
    | some x =>
      if x.exec_cmd = [] then
        ∃ l r, exec = l ++ x :: r ∧ x.exec_name = entry.exec_name ∧
          (∀ e ∈ l, e.exec_name ≠ entry.exec_name) ∧
          addEntry exec entry = l ++ { x with exec_cmd := entry.exec_cmd } :: r
      else
        addEntry exec entry =
          if entry.exec_cmd ≠ [] ∧ exec.length < MAX_AR then exec ++ [entry] else exec := by
  have hfull : ∀ {l : List ExecConfig}, (if exec.length ≥ MAX_AR then l else l ++ [entry]) =
      if exec.length < MAX_AR then l ++ [entry] else l := by
    intro l
    by_cases hlen : exec.length < MAX_AR
    · rw [if_pos hlen, if_neg (not_le.mpr hlen)]
    · rw [if_neg hlen, if_pos (not_lt.mp hlen)]
  cases hfind : exec.find? fun e => e.exec_name == entry.exec_name with
  | none =>
    have hne : ∀ e ∈ exec, e.exec_name ≠ entry.exec_name := fun e he => by
      simpa using find?_eq_none.mp hfind e he
    rw [addEntry, mergeEntry_of_notMem hne]
    rw [if_neg Bool.false_ne_true, hfull]
  | some x =>
    obtain ⟨l, r, hexec, hx, hl⟩ := exists_of_find? hfind
    dsimp only
    by_cases hcmd : x.exec_cmd = []
    · rw [if_pos hcmd]
      refine ⟨l, r, hexec, hx, hl, ?_⟩
      rw [addEntry, hexec, mergeEntry_of_first hl hx hcmd, hcopy]
      rfl
    · rw [if_neg hcmd]
      -- the entries of the name behind the first one have their commands
      have hpresent : ∀ e ∈ exec, e.exec_name = entry.exec_name → e.exec_cmd ≠ [] := by
        intro e he hname
        rw [Revivable, hexec, pairwise_append] at hrev
        rw [hexec, mem_append, mem_cons] at he
        rcases he with he | rfl | he
        · exact absurd hname (hl e he)
        · exact hcmd
        · exact rel_of_pairwise_cons hrev.2.1 he (hx.trans hname.symm)
      have hany : exec.any (fun e => e.exec_name == entry.exec_name) = true :=
        any_eq_true.mpr ⟨x, mem_of_find?_eq_some hfind, beq_iff_eq.mpr hx⟩
      rw [addEntry, mergeEntry_of_present hpresent, hany, Bool.true_and]
      by_cases hnone : entry.exec_cmd = []
      · rw [if_pos (beq_iff_eq.mpr hnone), if_neg fun h => h.1 hnone]
      · rw [if_neg (by rw [beq_iff_eq]; exact hnone), hfull]
        simp only [hnone, ne_eq, not_false_eq_true, true_and]

/-! ## Reading a file -/

/-- The table behind some lines. -/
structure Reads (lines exec : List ExecConfig) : Prop where
  find? : ∀ name, exec.find? (fun e => e.exec_name == name) = entryOf lines name
  length : exec.length = min MAX_AR (places lines)
  revivable : Revivable exec

theorem entryOf_eq_some (h : entryOf lines name = some x) :
    (∃ first, lines.find? (fun e => e.exec_name == name) = some first ∧
        x = { first with exec_cmd := firstCommand lines name }) ∧
      places (inFront lines name) < MAX_AR := by
  rw [entryOf] at h
  split at h
  case h_1 => cases h
  case h_2 first hfirst =>
    split_ifs at h with hplaces
    exact ⟨⟨first, hfirst, (some.inj h).symm⟩, hplaces⟩

theorem any_name_iff {first : ExecConfig}
    (h : lines.find? (fun e => e.exec_name == name) = some first) :
    (lines.any fun e => e.exec_name == name) = true :=
  any_eq_true.mpr ⟨first, mem_of_find?_eq_some h, by simpa using find?_some h⟩

theorem Revivable.concat (h : Revivable exec)
    (hentry : ∀ e ∈ exec, e.exec_name = entry.exec_name → entry.exec_cmd ≠ []) :
    Revivable (exec ++ [entry]) := by
  rw [Revivable, pairwise_append]
  refine ⟨h, pairwise_singleton _ _, fun a ha b hb => ?_⟩
  rw [mem_singleton.mp hb]
  exact hentry a ha

theorem Reads.addEntry (h : Reads lines exec)
    (hcopy : strncpy OS_FLSIZE entry.exec_cmd = entry.exec_cmd) :
    Reads (lines ++ [entry]) (addEntry exec entry) := by
  have hstep := addEntry_step h.revivable hcopy
  have hroom : exec.length < MAX_AR ↔ places lines < MAX_AR := by
    rw [h.length]
    omega
  cases hfind : exec.find? fun e => e.exec_name == entry.exec_name with
  | none =>
    rw [hfind] at hstep
    have hnone : entryOf lines entry.exec_name = none := (h.find? _).symm.trans hfind
    by_cases hlen : exec.length < MAX_AR
    · rw [if_pos hlen] at hstep
      have hplaces := hroom.mp hlen
      -- with places left, every name of a line is in the table
      have hfirst : lines.find? (fun e => e.exec_name == entry.exec_name) = none := by
        cases hfirst : lines.find? fun e => e.exec_name == entry.exec_name with
        | none => rfl
        | some first =>
          rw [entryOf, hfirst] at hnone
          dsimp only at hnone
          rw [if_pos (lt_of_le_of_lt (places_inFront_le _ _) hplaces)] at hnone
          cases hnone
      have htakes : takesPlace lines entry = true := by
        have hany : (lines.any fun e => e.exec_name == entry.exec_name) = false :=
          List.any_eq_false.mpr fun e he => find?_eq_none.mp hfirst e he
        rw [takesPlace, hany]
        rfl
      refine ⟨fun name => ?_, ?_, ?_⟩
      · rw [hstep, entryOf_concat, find?_append, h.find?]
        by_cases hname : entry.exec_name = name
        · subst hname
          rw [if_pos rfl, hfirst, hnone]
          rw [if_pos hplaces, none_or, find?_cons_of_pos (by simp)]
        · rw [if_neg hname, find?_cons_of_neg (by simp [hname]), find?_nil, or_none]
      · rw [hstep, length_append, length_singleton, h.length, places_concat, htakes, if_pos rfl]
        omega
      · rw [hstep]
        exact h.revivable.concat fun e he hname =>
          absurd (beq_iff_eq.mpr hname) (find?_eq_none.mp hfind e he)
    · rw [if_neg hlen] at hstep
      have hplaces := mt hroom.mpr hlen
      refine ⟨fun name => ?_, ?_, ?_⟩
      · rw [hstep, entryOf_concat, h.find?]
        by_cases hname : entry.exec_name = name
        · subst hname
          rw [if_pos rfl, hnone]
          cases lines.find? fun e => e.exec_name == entry.exec_name with
          | none => exact (if_neg hplaces).symm
          | some first => rfl
        · rw [if_neg hname]
      · rw [hstep, h.length, places_concat]
        omega
      · rw [hstep]
        exact h.revivable
  | some x =>
    rw [hfind] at hstep
    dsimp only at hstep
    have hsome : entryOf lines entry.exec_name = some x := (h.find? _).symm.trans hfind
    obtain ⟨⟨first, hfirst, hx⟩, hplaces⟩ := entryOf_eq_some hsome
    have hcmd : x.exec_cmd = firstCommand lines entry.exec_name := by rw [hx]
    have htakes : takesPlace lines entry = (Present entry && decide (x.exec_cmd ≠ [])) := by
      rw [takesPlace, any_name_iff hfirst, Bool.not_true, Bool.false_or, Bool.eq_iff_iff,
        Bool.and_eq_true, Bool.and_eq_true, any_present_iff, hcmd, decide_eq_true_iff]
    by_cases hnone : x.exec_cmd = []
    · rw [if_pos hnone] at hstep
      obtain ⟨l, r, hexec, hxname, hl, hstep⟩ := hstep
      have hlength : (Execd.addEntry exec entry).length = exec.length := by
        rw [hstep, hexec, length_append, length_append, length_cons, length_cons]
      refine ⟨fun name => ?_, ?_, ?_⟩
      · rw [hstep, entryOf_concat, ← h.find? name]
        by_cases hname : entry.exec_name = name
        · subst hname
          rw [if_pos rfl, hfirst, hfind, map_some, if_pos hnone]
          have hlnone : l.find? (fun e => e.exec_name == entry.exec_name) = none :=
            find?_eq_none.mpr fun e he => by simpa using hl e he
          rw [find?_append, hlnone, none_or, find?_cons_of_pos (by simp [hxname])]
        · have hne : x.exec_name ≠ name := fun heq => hname (hxname.symm.trans heq)
          rw [if_neg hname, hexec, find?_append, find?_append,
            find?_cons_of_neg (by simpa using hne), find?_cons_of_neg (by simpa using hne)]
      · rw [hlength, h.length, places_concat, htakes]
        simp [hnone]
      · have hrev := h.revivable
        rw [Revivable, hexec, pairwise_append, pairwise_cons] at hrev
        obtain ⟨hleft, ⟨hright, hr⟩, hacross⟩ := hrev
        rw [hstep, Revivable, pairwise_append, pairwise_cons]
        refine ⟨hleft, ⟨hright, hr⟩, fun a ha b hb hname => ?_⟩
        rcases mem_cons.mp hb with rfl | hb
        · exact absurd (hname.trans hxname) (hl a ha)
        · exact hacross a ha b (mem_cons_of_mem x hb) hname
    · rw [if_neg hnone] at hstep
      have hkept : ∀ name, entryOf (lines ++ [entry]) name = entryOf lines name := by
        intro name
        rw [entryOf_concat]
        by_cases hname : entry.exec_name = name
        · subst hname
          rw [if_pos rfl, hfirst, hsome, map_some, if_neg hnone]
        · rw [if_neg hname]
      by_cases hroom' : entry.exec_cmd ≠ [] ∧ exec.length < MAX_AR
      · rw [if_pos hroom'] at hstep
        have hpresent : Present entry = true := bne_iff_ne.mpr hroom'.1
        refine ⟨fun name => ?_, ?_, ?_⟩
        · rw [hstep, hkept, ← h.find? name, find?_append]
          by_cases hname : entry.exec_name = name
          · subst hname
            rw [hfind, some_or]
          · rw [find?_cons_of_neg (by simp [hname]), find?_nil, or_none]
        · rw [hstep, length_append, length_singleton, places_concat, htakes, hpresent,
            Bool.true_and, if_pos (decide_eq_true hnone)]
          have hlt := hroom.mp hroom'.2
          rw [h.length]
          omega
        · rw [hstep]
          exact h.revivable.concat fun _ _ _ => hroom'.1
      · rw [if_neg hroom'] at hstep
        refine ⟨fun name => ?_, ?_, ?_⟩
        · rw [hstep, hkept, h.find?]
        · rw [hstep, h.length, places_concat, htakes]
          by_cases hcmd' : entry.exec_cmd = []
          · simp [Present, hcmd']
          · -- there is no room
            have hfull : ¬ places lines < MAX_AR := fun hlt => hroom' ⟨hcmd', hroom.mpr hlt⟩
            omega
        · rw [hstep]
          exact h.revivable

/-- The command of a line fits in its place. -/
theorem strncpy_exec_cmd {present : Bytes → Bool} {buffer : Bytes}
    (h : parseLine present buffer = some entry) :
    strncpy OS_FLSIZE entry.exec_cmd = entry.exec_cmd := by
  have hstr : ∀ b ∈ str buffer, b ≠ 0 := fun b hb => by
    simpa using mem_takeWhile_imp hb
  have hpath : ∀ {t : Bytes}, (∀ b ∈ t, b ≠ 0) →
      strncpy OS_FLSIZE (commandPath present t) = commandPath present t := by
    intro t ht
    have hbin : ∀ b ∈ AR_BINDIRPATH ++ lit "/", b ≠ 0 := forall_mem_of_all (by decide)
    rw [commandPath]
    dsimp only
    split_ifs
    · rfl
    · rw [snprintf]
      refine strncpy_self ((List.length_take_le _ _).trans (Nat.le_succ 255)) fun b hb => ?_
      rcases mem_append.mp (mem_of_mem_take hb) with hb | hb
      · exact hbin b hb
      · exact ht b hb
    · rfl
  rw [parseLine] at h
  split at h
  case h_1 => cases h
  case h_2 tmp_str hfirst =>
    dsimp only at h
    split at h
    case h_1 => cases h
    case h_2 =>
      rw [← some.inj h]
      refine hpath fun b hb => hstr b ?_
      exact (isSuffix_of_strstr hfirst).subset (mem_of_mem_drop (mem_of_mem_take hb))

theorem reads_execLines (present : Bytes → Bool) (fp : Bytes) :
    Reads (execLines present fp) ((execLines present fp).foldl addEntry []) := by
  have hcopy : ∀ entry ∈ execLines present fp,
      strncpy OS_FLSIZE entry.exec_cmd = entry.exec_cmd := by
    intro entry hentry
    obtain ⟨buffer, -, hparse⟩ := mem_filterMap.mp hentry
    exact strncpy_exec_cmd hparse
  generalize execLines present fp = lines at hcopy
  induction lines using List.reverseRecOn with
  | nil => exact ⟨fun _ => rfl, rfl, List.Pairwise.nil⟩
  | append_singleton lines entry ih =>
    rw [foldl_append]
    exact (ih fun e he => hcopy e (mem_append_left _ he)).addEntry
      (hcopy entry (mem_append_right _ (mem_singleton_self entry)))

/-- The reads of the table, one behind the other -/
def readAll (s : ExecState) (envs : List Environment) : ExecState :=
  envs.foldl (fun s env => (readExecConfig s env).1) s

/-- **The command and the timeout that a name has behind any sequence of reads**: those of the last
file. A line without a place is not kept; the command is that of the first line of the name whose
command is there, and if it is the first line of the name, the timeout is that of the same line. -/
theorem getCommandbyName_law (s : ExecState) (envs : List Environment) (env : Environment) :
    (readExecConfig (readAll s (envs ++ [env])) env).1 = readAll s (envs ++ [env]) ∧
      ∀ name, match env.ar_conf with
        | none => getCommandbyName (readAll s (envs ++ [env])).exec name = none
        | some fp =>
          match getCommandbyName (readAll s (envs ++ [env])).exec name with
          | none => (∀ e ∈ execLines env.present fp, e.exec_name ≠ name) ∨
              MAX_AR ≤ places (inFront (execLines env.present fp) name)
          | some e => ∃ first,
              (execLines env.present fp).find? (fun e => e.exec_name == name) = some first ∧
              places (inFront (execLines env.present fp) name) < MAX_AR ∧
              e.exec_cmd = firstCommand (execLines env.present fp) name ∧
              (Present first = true → e = first) := by
  have hlast : readAll s (envs ++ [env]) = (readExecConfig (readAll s envs) env).1 := by
    rw [readAll, foldl_append]
    rfl
  rw [hlast]
  cases hconf : env.ar_conf with
  | none =>
    have hread : ∀ s, (readExecConfig s env).1 = { s with exec := [] } := fun s => by
      rw [readExecConfig, hconf]
    rw [hread, hread]
    exact ⟨rfl, fun name => rfl⟩
  | some fp =>
    have hread : ∀ s, (readExecConfig s env).1 =
        ⟨(execLines env.present fp).foldl addEntry [], false⟩ := fun s => by
      rw [readExecConfig, hconf]
    rw [hread, hread]
    refine ⟨rfl, fun name => ?_⟩
    have hfind := (reads_execLines env.present fp).find? name
    dsimp only
    rw [getCommandbyName, hfind]
    cases hentry : entryOf (execLines env.present fp) name with
    | none =>
      rw [entryOf] at hentry
      split at hentry
      case h_1 hnone => exact Or.inl fun e he => by simpa using find?_eq_none.mp hnone e he
      case h_2 =>
        split_ifs at hentry with hplaces
        exact Or.inr (Nat.not_lt.mp hplaces)
    | some e =>
      obtain ⟨⟨first, hfirst, rfl⟩, hplaces⟩ := entryOf_eq_some hentry
      refine ⟨first, hfirst, hplaces, rfl, fun hpresent => ?_⟩
      -- the first line of the name is the first one whose command is there
      have hcmd : firstCommand (execLines env.present fp) name = first.exec_cmd := by
        obtain ⟨hname, l, r, hlines, hl⟩ := find?_eq_some_iff_append.mp hfirst
        rw [firstCommand, find?_eq_some_iff_append.mpr ⟨by rw [hname, hpresent]; rfl, l, r,
          hlines, fun e he => by rw [Bool.not_eq_true']; simpa using fun h => absurd h (by simpa using hl e he)⟩]
        rfl
      rw [hcmd]

/-- The commands of a system, which has one. -/
def onlyPresent (name : Bytes) (path : Bytes) : Bool := path == AR_BINDIRPATH ++ lit "/" ++ name

set_option maxRecDepth 20000 in
/-- Behind 64 places a name is not kept, and a command gets the timeout of an earlier line. -/
theorem not_getCommandbyName_first :
    (getCommandbyName (readExecConfig ⟨[], true⟩ ⟨some ((List.replicate 64
        (lit "a - y - 1\n")).flatten ++ lit "b - y - 1\n"), onlyPresent (lit "y")⟩).1.exec (lit "b") =
      none) ∧
    (getCommandbyName (readExecConfig ⟨[], true⟩ ⟨some (lit "a - x - 600\na - y - 5\n"),
        onlyPresent (lit "y")⟩).1.exec (lit "a") =
      some ⟨lit "a", AR_BINDIRPATH ++ lit "/y", 600⟩) :=
  ⟨by rfl, by rfl⟩

end Execd
