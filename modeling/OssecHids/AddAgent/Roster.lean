import OssecHids.AddAgent.Validate
import OssecHids.Lib.Lines
import OssecHids.OsExecd.Repeated

/-!
# The keys file as a list of agents

Every line of the file is that of an agent. A line that was overwritten begins as before, with the
id, and is as long as before.

- `Slot`: an agent, and whether it is still there; `rosterText`: the file;
- `mem_mapIDToBitArray`, `countAgents_roster`, `nameExist_roster`, `ipExist_roster`: what the
  parsers find;
- `osRemoveAgent_roster`, `newAgent_roster`: an agent is removed and added;
- `osReadKeys_roster`: the agents that are loaded.
-/

open CString List Option

namespace AddAgent

structure Slot where
  agent : KeyLine
  live : Bool

/-- The line of an agent; that of a removed one is overwritten. -/
def Slot.line (s : Slot) : Bytes :=
  if s.live then text s.agent else overwrite (s.agent.id ++ REMOVED) (text s.agent)

/-- The keys file of some agents. -/
def rosterText (r : List Slot) : Bytes := unlines (r.map Slot.line)

/-- The agents that are still there. -/
def liveAgents (r : List Slot) : List KeyLine := (r.filter Slot.live).map Slot.agent

/-- An agent is removed, and its id is kept. -/
def remove (id : Bytes) (r : List Slot) : List Slot :=
  r.map fun s => if s.agent.id = id then { s with live := false } else s

/-- A field of a line. -/
structure Field (s : Bytes) : Prop where
  blank : chr ' ' ∉ s
  newline : chr '\n' ∉ s
  zero : ∀ b ∈ s, b ≠ 0

/-- The fields of an agent fit in a line that all parsers read as a whole. -/
structure Sound (max_agents : ℕ) (a : KeyLine) : Prop where
  id : ∃ i < max_agents, a.id = fmtU (i + AUTHD_FIRST_ID)
  id_length : a.id.length ≤ 7
  name : Field a.name
  name_head : a.name.headD 0 ≠ chr '#'
  name_length : a.name.length ≤ 128
  ip : Field a.ip
  ip_length : a.ip.length ≤ 50
  key : Field a.key
  key_length : a.key.length = 64

variable {max_agents n : ℕ} {a : KeyLine} {s : Slot} {r : List Slot} {l t acc id : Bytes}

/-! ## Lines -/

theorem field_fmtU (n : ℕ) : Field (fmtU n) := by
  have hnot : ∀ c : UInt8, isDigit c = false → c ∉ fmtU n := by
    intro c hc h
    rw [isDigit_of_mem_fmtU h] at hc
    cases hc
  exact ⟨hnot _ (by decide), hnot _ (by decide), fun b hb hz => hnot 0 (by decide) (hz ▸ hb)⟩

theorem Sound.field_id (h : Sound max_agents a) : Field a.id := by
  obtain ⟨i, -, hi⟩ := h.id
  rw [hi]
  exact field_fmtU _

theorem headD_append (h : l ≠ []) (r : Bytes) : (l ++ r).headD 0 = l.headD 0 := by
  cases l with
  | nil => exact absurd rfl h
  | cons b l => rfl

theorem Sound.headD_id (h : Sound max_agents a) (t : Bytes) : isDigit ((a.id ++ t).headD 0) := by
  obtain ⟨i, -, hi⟩ := h.id
  have hne := fmtU_ne_nil (i + AUTHD_FIRST_ID)
  rw [hi, headD_append hne]
  obtain ⟨b, l, hl⟩ := exists_cons_of_ne_nil hne
  have hb : b ∈ fmtU (i + AUTHD_FIRST_ID) := hl ▸ mem_cons_self
  rw [hl]
  exact isDigit_of_mem_fmtU hb

/-- What is behind the id in a line. -/
def Slot.tail (s : Slot) : Bytes :=
  if s.live then s.agent.name ++ chr ' ' :: (s.agent.ip ++ chr ' ' :: s.agent.key)
  else REMOVED.tail ++ (text s.agent).drop (s.agent.id ++ REMOVED).length

theorem Slot.line_eq (s : Slot) : s.line = s.agent.id ++ chr ' ' :: s.tail := by
  rw [line, tail]
  split_ifs
  · rfl
  · rw [overwrite, append_assoc]
    rfl

theorem length_text (a : KeyLine) :
    (text a).length = a.id.length + a.name.length + a.ip.length + a.key.length + 3 := by
  rw [text]
  simp only [length_append, length_cons]
  omega

theorem length_line (h : s.agent.key.length = 64) : s.line.length = (text s.agent).length := by
  have hlen := length_text s.agent
  have hremoved : REMOVED.length = 22 := by decide
  rw [Slot.line]
  split_ifs
  · rfl
  · rw [overwrite, length_append, length_drop, length_append]
    omega

theorem newline_notMem_text (h : Sound max_agents a) : chr '\n' ∉ text a := by
  have hblank : chr '\n' ≠ chr ' ' := by decide
  simp only [text, mem_append, mem_cons, not_or]
  exact ⟨h.field_id.newline, hblank, h.name.newline, hblank, h.ip.newline, hblank, h.key.newline⟩

theorem newline_notMem_line (h : Sound max_agents s.agent) : chr '\n' ∉ s.line := by
  rw [Slot.line]
  split_ifs
  · exact newline_notMem_text h
  · rw [overwrite, mem_append, mem_append, not_or, not_or]
    exact ⟨⟨h.field_id.newline, by decide⟩,
      fun hmem => newline_notMem_text h (mem_of_mem_drop hmem)⟩

theorem Sound.length_line (h : Sound max_agents s.agent) : s.line.length < FILE_SIZE - 2 := by
  have hid := h.id_length
  have hname := h.name_length
  have hip := h.ip_length
  have hkey := h.key_length
  rw [AddAgent.length_line hkey, length_text]
  show _ < 255
  omega

theorem fgetsAll_cons (n : ℕ) (line : Bytes) (b : UInt8) (t : Bytes) :
    fgetsAll n line (b :: t) =
      if b = chr '\n' ∨ (line ++ [b]).length ≥ n then (line ++ [b]) :: fgetsAll n [] t
      else fgetsAll n (line ++ [b]) t := by
  cases line with
  | nil => rfl
  | cons c line => rfl

theorem fgetsAll_line (hl : chr '\n' ∉ l) (hlen : acc.length + l.length < n) (t : Bytes) :
    fgetsAll n acc (l ++ chr '\n' :: t) = (acc ++ (l ++ [chr '\n'])) :: fgetsAll n [] t := by
  induction l generalizing acc with
  | nil => rw [nil_append, fgetsAll_cons, if_pos (.inl rfl), nil_append]
  | cons b l ih =>
    rw [mem_cons, not_or] at hl
    rw [length_cons] at hlen
    have hnot : ¬ (b = chr '\n' ∨ (acc ++ [b]).length ≥ n) := by
      rw [not_or, length_append, length_singleton]
      exact ⟨Ne.symm hl.1, by omega⟩
    rw [cons_append, fgetsAll_cons, if_neg hnot, ih hl.2
      (by rw [length_append, length_singleton]; omega), append_assoc]
    rfl

theorem fgetsAll_unlines {lines : List Bytes}
    (h : ∀ l ∈ lines, chr '\n' ∉ l ∧ l.length < n) :
    fgetsAll n [] (unlines lines) = lines.map (· ++ [chr '\n']) := by
  induction lines with
  | nil => rfl
  | cons l lines ih =>
    obtain ⟨hl, hlen⟩ := h l mem_cons_self
    rw [unlines_cons, fgetsAll_line hl (by rwa [length_nil, zero_add]),
      ih fun l' hl' => h l' (mem_cons_of_mem _ hl')]
    rfl

/-! ## What the parsers find in a line -/

theorem Sound.headD_line (h : Sound max_agents s.agent) {c : UInt8} (hc : isDigit c = false) :
    (s.line ++ [chr '\n']).headD 0 ≠ c := by
  intro heq
  have hdigit := h.headD_id (chr ' ' :: (s.tail ++ [chr '\n']))
  rw [Slot.line_eq, append_assoc, cons_append] at heq
  rw [heq, hc] at hdigit
  cases hdigit

theorem Sound.cutAt_line (h : Sound max_agents s.agent) :
    cutAt (chr ' ') (s.line ++ [chr '\n']) = some (s.agent.id, s.tail ++ [chr '\n']) := by
  rw [Slot.line_eq, append_assoc, cons_append]
  exact cutAt_append h.field_id.blank h.field_id.zero

/-- Only what is behind the id of a removed agent begins with `#`. -/
theorem Sound.headD_tail (h : Sound max_agents s.agent) :
    (s.tail ++ [chr '\n']).headD 0 = chr '#' ↔ s.live = false := by
  rw [Slot.tail]
  split_ifs with hlive
  · refine ⟨fun hhash => absurd hhash ?_, fun hremoved => absurd hlive (by rw [hremoved]; decide)⟩
    rw [append_assoc, cons_append]
    by_cases hne : s.agent.name = []
    case pos =>
      rw [hne]
      exact (by decide : chr ' ' ≠ chr '#')
    case neg =>
      rw [headD_append hne]
      exact h.name_head
  · rw [Bool.not_eq_true] at hlive
    exact ⟨fun _ => hlive, fun _ => rfl⟩

theorem Sound.there (h : Sound max_agents s.agent) (hlive : s.live = true) :
    ¬(s.tail ++ [chr '\n']).headD 0 = chr '#' := by
  rw [h.headD_tail, hlive]
  decide

theorem Sound.head (h : Sound max_agents s.agent) :
    ¬((s.line ++ [chr '\n']).headD 0 = chr '#' ∨ (s.line ++ [chr '\n']).headD 0 = chr ' ') :=
  not_or.mpr ⟨h.headD_line (by decide), h.headD_line (by decide)⟩

theorem tail_live (hlive : s.live = true) :
    s.tail ++ [chr '\n'] =
      s.agent.name ++ chr ' ' :: (s.agent.ip ++ chr ' ' :: (s.agent.key ++ [chr '\n'])) := by
  rw [Slot.tail, if_pos hlive]
  simp only [append_assoc, cons_append]

theorem Sound.cutAt_name (h : Sound max_agents s.agent) (hlive : s.live = true) :
    cutAt (chr ' ') (s.tail ++ [chr '\n']) =
      some (s.agent.name, s.agent.ip ++ chr ' ' :: (s.agent.key ++ [chr '\n'])) := by
  rw [tail_live hlive]
  exact cutAt_append h.name.blank h.name.zero

theorem Sound.cutAt_ip (h : Sound max_agents a) (t : Bytes) :
    cutAt (chr ' ') (a.ip ++ chr ' ' :: t) = some (a.ip, t) :=
  cutAt_append h.ip.blank h.ip.zero

theorem Sound.countedLine (h : Sound max_agents s.agent) :
    countedLine (s.line ++ [chr '\n']) = s.live := by
  rw [AddAgent.countedLine, if_neg h.head, h.cutAt_line]
  dsimp only
  cases hlive : s.live with
  | false => rw [if_pos (h.headD_tail.mpr hlive)]
  | true =>
    rw [if_neg (h.there hlive), h.cutAt_name hlive]
    dsimp only
    rw [strchr_append h.ip.blank h.ip.zero]
    rfl

/-- `OS_ReadKeys` finds the fields of an agent that is still there. -/
theorem keyLine_slot (h : Sound max_agents s.agent) (hname : s.agent.name.length < KEYSIZE) :
    keyLine (s.line ++ [chr '\n']) = if s.live then some s.agent else none := by
  have hsize : KEYSIZE - 1 = 127 := rfl
  have hid := h.id_length
  have hip := h.ip_length
  have hkey := h.key_length
  rw [keyLine, if_neg h.head, h.cutAt_line, bind_some]
  dsimp only
  cases hlive : s.live with
  | false => rw [if_pos (h.headD_tail.mpr hlive), if_neg Bool.false_ne_true]
  | true =>
    rw [if_neg (h.there hlive), h.cutAt_name hlive, bind_some]
    rw [h.cutAt_ip, map_some, cutAt_append h.key.newline h.key.zero, if_pos rfl]
    dsimp only [map_some, getD_some]
    rw [strncpy_self (by omega) h.field_id.zero, strncpy_self (by omega) h.name.zero,
      strncpy_self (by omega) h.ip.zero, strncpy_self (by omega) h.key.zero]

/-! ## What they find in the file -/

section Parsers

variable (hr : ∀ s ∈ r, Sound max_agents s.agent)
include hr

theorem fgetsAll_roster (hn : FILE_SIZE - 2 ≤ n) :
    fgetsAll n [] (rosterText r) = r.map fun s => s.line ++ [chr '\n'] := by
  rw [rosterText, fgetsAll_unlines, List.map_map]
  · rfl
  · intro l hl
    obtain ⟨s, hs, rfl⟩ := List.mem_map.mp hl
    exact ⟨newline_notMem_line (hr s hs), (hr s hs).length_line.trans_le hn⟩

/-- The bits are those of the ids of all agents, also of those that were removed. -/
theorem mem_mapIDToBitArray (hmax : max_agents + AUTHD_FIRST_ID ≤ 10 ^ 7) (i : ℕ) :
    i ∈ mapIDToBitArray max_agents (rosterText r) ↔
      ∃ s ∈ r, s.agent.id = fmtU (i + AUTHD_FIRST_ID) := by
  have hline : ∀ s ∈ r, ∀ k, s.agent.id = fmtU (k + AUTHD_FIRST_ID) → k < max_agents →
      (if (s.line ++ [chr '\n']).headD 0 = chr '#' then none
        else (cutAt (chr ' ') (s.line ++ [chr '\n'])).bind fun p =>
          let name_num := atoi p.1
          if name_num ≥ AUTHD_FIRST_ID ∧ name_num < (max_agents + AUTHD_FIRST_ID : ℕ) then
            some (name_num - AUTHD_FIRST_ID).toNat
          else none) = some k := by
    intro s hs k hk hlt
    have hnum : atoi s.agent.id = (k + AUTHD_FIRST_ID : ℕ) := by
      have hfmt := Execd.atoi_fmtD_natCast (m := k + AUTHD_FIRST_ID) (by omega)
      rwa [fmtD_natCast, ← hk] at hfmt
    rw [if_neg ((hr s hs).headD_line (by decide)), (hr s hs).cutAt_line, bind_some]
    have hindex : (((k + AUTHD_FIRST_ID : ℕ) : ℤ) - (AUTHD_FIRST_ID : ℕ)).toNat = k := by omega
    rw [hnum, if_pos ⟨by omega, by omega⟩, hindex]
  rw [mapIDToBitArray, fgetsAll_roster hr le_rfl, mem_filterMap]
  constructor
  · rintro ⟨line, hmem, hi⟩
    obtain ⟨s, hs, rfl⟩ := List.mem_map.mp hmem
    obtain ⟨k, hk, hid⟩ := (hr s hs).id
    rw [hline s hs k hid hk] at hi
    cases hi
    exact ⟨s, hs, hid⟩
  · rintro ⟨s, hs, hid⟩
    obtain ⟨k, hk, hid'⟩ := (hr s hs).id
    obtain rfl : k = i := by
      have hsame := fmtU_injective (hid'.symm.trans hid)
      omega
    exact ⟨_, mem_map_of_mem hs, hline s hs k hid hk⟩

theorem countAgents_roster : countAgents (rosterText r) = (liveAgents r).length := by
  rw [countAgents, fgetsAll_roster hr (by decide), List.filter_map, length_map, liveAgents, length_map]
  congr 1
  exact filter_congr fun s hs => (hr s hs).countedLine

/-- An agent that is still there has the name. -/
theorem nameExist_roster {u_name : Bytes} (hhead : ¬ (u_name.headD 0 = 0 ∨
      u_name.headD 0 = chr '\r' ∨ u_name.headD 0 = chr '\n')) :
    nameExist (rosterText r) u_name = true ↔ ∃ a ∈ liveAgents r, a.name = u_name := by
  rw [nameExist, if_neg hhead, fgetsAll_roster hr le_rfl, List.any_map, List.any_eq_true, liveAgents]
  simp only [List.mem_map, mem_filter, Function.comp_apply, exists_exists_and_eq_and]
  refine exists_congr fun s => ?_
  rw [and_assoc]
  refine and_congr_right fun hs => ?_
  have h := hr s hs
  rw [if_neg (h.headD_line (by decide)), h.cutAt_line]
  dsimp only
  cases hlive : s.live with
  | false =>
    rw [if_pos (h.headD_tail.mpr hlive)]
    exact ⟨fun hfalse => absurd hfalse Bool.false_ne_true,
      fun hfalse => absurd hfalse.1 Bool.false_ne_true⟩
  | true =>
    rw [if_neg (h.there hlive), h.cutAt_name hlive]
    rw [beq_iff_eq]
    exact ⟨fun hname => ⟨rfl, hname.symm⟩, fun hname => hname.2.symm⟩

/-- No agent that is still there has the address. -/
theorem ipExist_roster {u_ip : Bytes}
    (hany : ¬ (strncmpEq 3 u_ip (lit "any") = true ∨ (strchr (chr '/') u_ip).isSome = true)) :
    ipExist (rosterText r) u_ip = none ↔ ∀ a ∈ liveAgents r, a.ip ≠ u_ip := by
  rw [ipExist, if_neg hany, fgetsAll_roster hr le_rfl, findSome?_eq_none_iff, liveAgents]
  simp only [List.forall_mem_map, mem_filter, and_imp]
  refine forall_congr' fun s => forall_congr' fun hs => ?_
  have h := hr s hs
  rw [if_neg (h.headD_line (by decide)), h.cutAt_line, bind_some]
  cases hlive : s.live with
  | false =>
    rw [if_pos (h.headD_tail.mpr hlive)]
    exact ⟨fun _ hfalse => absurd hfalse Bool.false_ne_true, fun _ => rfl⟩
  | true =>
    rw [if_neg (h.there hlive), h.cutAt_name hlive, bind_some]
    rw [h.cutAt_ip, bind_some]
    split_ifs with hip
    · exact ⟨fun hsome => hsome.elim, fun hne => absurd hip.symm (hne rfl)⟩
    · exact ⟨fun _ _ hsame => hip hsame.symm, fun _ => rfl⟩

end Parsers

/-! ## Agents are removed -/

theorem rosterText_cons (s : Slot) (r : List Slot) :
    rosterText (s :: r) = s.line ++ chr '\n' :: rosterText r := unlines_cons _ _

theorem rosterText_append (r r' : List Slot) :
    rosterText (r ++ r') = rosterText r ++ rosterText r' := by
  rw [rosterText, map_append, unlines_append]
  rfl

theorem remove_of_forall_ne (h : ∀ s ∈ r, s.agent.id ≠ id) : remove id r = r := by
  exact (map_congr_left fun s hs => if_neg (h s hs)).trans (map_id' r)

theorem ids_remove (id : Bytes) (r : List Slot) :
    (remove id r).map (fun s => s.agent.id) = r.map fun s => s.agent.id := by
  rw [remove, List.map_map]
  refine map_congr_left fun s _ => ?_
  rw [Function.comp_apply]
  split_ifs
  · rfl
  · rfl

theorem agents_remove (id : Bytes) (r : List Slot) :
    (remove id r).map Slot.agent = r.map Slot.agent := by
  rw [remove, List.map_map]
  refine map_congr_left fun s _ => ?_
  rw [Function.comp_apply]
  split_ifs
  · rfl
  · rfl

theorem overwrite_line (s : Slot) :
    overwrite (s.agent.id ++ REMOVED) s.line = Slot.line { s with live := false } := by
  rw [Slot.line, Slot.line, if_neg Bool.false_ne_true]
  split_ifs
  · rfl
  · rw [overwrite, overwrite, drop_left]

theorem overwrite_append {new old : Bytes} (hle : new.length ≤ old.length) (t : Bytes) :
    overwrite new (old ++ t) = overwrite new old ++ t := by
  rw [overwrite, overwrite, drop_append_of_le_length hle, append_assoc]

theorem idExistLoop_of_forall_ne (hr : ∀ s ∈ r, Sound max_agents s.agent)
    (h : ∀ s ∈ r, s.agent.id ≠ id) (fp_pos : ℕ) (lines : List Bytes) :
    idExistLoop id fp_pos ((r.map fun s => s.line ++ [chr '\n']) ++ lines) =
      idExistLoop id (fp_pos + (rosterText r).length) lines := by
  induction r generalizing fp_pos with
  | nil => rfl
  | cons s r ih =>
    have hs := hr s mem_cons_self
    rw [map_cons, cons_append, idExistLoop, if_neg (hs.headD_line (by decide)), hs.cutAt_line]
    dsimp only
    rw [if_neg (h s mem_cons_self), ih (fun s' hs' => hr s' (mem_cons_of_mem _ hs'))
      (fun s' hs' => h s' (mem_cons_of_mem _ hs')), rosterText_cons]
    simp only [length_append, length_cons, length_nil]
    congr 1
    omega

theorem idExist_roster {r₁ r₂ : List Slot}
    (hr : ∀ s' ∈ r₁ ++ s :: r₂, Sound max_agents s'.agent)
    (hids : ((r₁ ++ s :: r₂).map fun s => s.agent.id).Nodup) :
    idExist (rosterText (r₁ ++ s :: r₂)) s.agent.id = some (rosterText r₁).length := by
  rw [map_append, map_cons, nodup_append] at hids
  have hsound := hr s (mem_append_right _ mem_cons_self)
  have hloop := idExistLoop_of_forall_ne (fun s hs => hr s (mem_append_left _ hs))
    (fun s hs => hids.2.2 _ (mem_map_of_mem hs) _ mem_cons_self) 0
    ((s :: r₂).map fun s => s.line ++ [chr '\n'])
  rw [idExist, fgetsAll_roster hr le_rfl, map_append, hloop, map_cons, idExistLoop,
    if_neg (hsound.headD_line (by decide)), hsound.cutAt_line, zero_add]
  exact if_pos rfl

/-- **An agent is removed** from the file, and the other lines stay as they are. -/
theorem osRemoveAgent_roster (hr : ∀ s ∈ r, Sound max_agents s.agent)
    (hids : (r.map fun s => s.agent.id).Nodup) (id : Bytes) :
    (osRemoveAgent (rosterText r) id).2 = rosterText (remove id r) := by
  rw [osRemoveAgent]
  by_cases hmem : id ∈ r.map fun s => s.agent.id
  case neg =>
    -- no line has the id
    have hne : ∀ s ∈ r, s.agent.id ≠ id := fun s hs heq => hmem (heq ▸ mem_map_of_mem hs)
    have hloop := idExistLoop_of_forall_ne hr hne 0 []
    rw [append_nil] at hloop
    rw [idExist, fgetsAll_roster hr le_rfl, hloop, remove_of_forall_ne hne]
    rfl
  case pos =>
    obtain ⟨s, hs, rfl⟩ := List.mem_map.mp hmem
    obtain ⟨r₁, r₂, rfl⟩ := append_of_mem hs
    rw [idExist_roster hr hids]
    rw [map_append, map_cons, nodup_append] at hids
    obtain ⟨-, hcons, hdisjoint⟩ := hids
    have hbefore : ∀ s' ∈ r₁, s'.agent.id ≠ s.agent.id := fun s' hs' =>
      hdisjoint _ (mem_map_of_mem hs') _ mem_cons_self
    have hbehind : ∀ s' ∈ r₂, s'.agent.id ≠ s.agent.id := fun s' hs' heq =>
      (nodup_cons.mp hcons).1 (heq ▸ mem_map_of_mem hs')
    have hsound := hr s (mem_append_right _ mem_cons_self)
    have hfits : (s.agent.id ++ REMOVED).length ≤ s.line.length := by
      rw [length_line hsound.key_length, length_text, hsound.key_length, length_append]
      show _ + 22 ≤ _
      omega
    have hremove : remove s.agent.id (r₁ ++ s :: r₂) = r₁ ++ { s with live := false } :: r₂ := by
      have hsplit : remove s.agent.id (r₁ ++ s :: r₂) = remove s.agent.id r₁ ++
          (if s.agent.id = s.agent.id then { s with live := false } else s) ::
            remove s.agent.id r₂ := by
        rw [remove, map_append, map_cons]
        rfl
      rw [hsplit, if_pos rfl, remove_of_forall_ne hbefore, remove_of_forall_ne hbehind]
    rw [hremove]
    dsimp only
    rw [rosterText_append, take_left, drop_left, rosterText_cons,
      overwrite_append hfits, overwrite_line, rosterText_append, rosterText_cons]

/-! ## Agents are added -/

variable {P : Crypto}

theorem isXDigit_hexDigit : ∀ n < 16, isXDigit (Crypto.hexDigit n) = true := by decide

theorem isXDigit_of_mem_osMD5Bytes {x : Bytes} {b : UInt8} (h : b ∈ P.osMD5Bytes x) :
    isXDigit b = true := by
  obtain ⟨d, -, hb⟩ := mem_flatMap.mp h
  have hd : d.toNat < 256 := d.toNat_lt
  rcases mem_pair.mp hb with rfl | rfl
  · exact isXDigit_hexDigit _ (by omega)
  · exact isXDigit_hexDigit _ (by omega)

theorem field_of_isXDigit (h : ∀ b ∈ l, isXDigit b = true) : Field l := by
  have hnot : ∀ c : UInt8, isXDigit c = false → c ∉ l := by
    intro c hc hmem
    rw [h c hmem] at hc
    cases hc
  exact ⟨hnot _ (by decide), hnot _ (by decide), fun b hb hz => hnot 0 (by decide) (hz ▸ hb)⟩

/-- A valid name is a field of a line. -/
theorem field_of_osIsValidName (h : osIsValidName l = true) :
    Field l ∧ l.headD 0 ≠ chr '#' ∧ l.length ≤ 128 ∧
      ¬ (l.headD 0 = 0 ∨ l.headD 0 = chr '\r' ∨ l.headD 0 = chr '\n') := by
  rw [osIsValidName, Bool.and_eq_true, Bool.and_eq_true, decide_eq_true_iff, decide_eq_true_iff,
    List.all_eq_true] at h
  obtain ⟨⟨hmin, hmax⟩, hall⟩ := h
  have hnot : ∀ c : UInt8, (isAlnum c || c == chr '-' || c == chr '_' || c == chr '.') = false →
      c ∉ l := by
    intro c hc hmem
    rw [hall c hmem] at hc
    cases hc
  obtain ⟨b, t, rfl⟩ : ∃ b t, l = b :: t := exists_cons_of_length_pos (by omega)
  have hhead : ∀ c : UInt8, (isAlnum c || c == chr '-' || c == chr '_' || c == chr '.') = false →
      b ≠ c := fun c hc heq => hnot c hc (heq ▸ mem_cons_self)
  refine ⟨⟨hnot _ (by decide), hnot _ (by decide), fun b hb hz => hnot 0 (by decide) (hz ▸ hb)⟩,
    hhead _ (by decide), hmax, ?_⟩
  rw [not_or, not_or]
  exact ⟨hhead _ (by decide), hhead _ (by decide), hhead _ (by decide)⟩

theorem freeId_roster (hr : ∀ s ∈ r, Sound max_agents s.agent)
    (hmax : max_agents + AUTHD_FIRST_ID ≤ 10 ^ 7) (h : freeId max_agents (rosterText r) = some id) :
    id.length ≤ 7 ∧ (∃ i < max_agents, id = fmtU (i + AUTHD_FIRST_ID)) ∧
      ∀ s ∈ r, s.agent.id ≠ id := by
  obtain ⟨i, hfind, hid⟩ := map_eq_some_iff.mp h
  have hi : i < max_agents := mem_range.mp (mem_of_find?_eq_some hfind)
  have hfree : i ∉ mapIDToBitArray max_agents (rosterText r) := by
    simpa using find?_some hfind
  have hlen : (fmtU (i + AUTHD_FIRST_ID)).length ≤ 7 :=
    length_fmtU_le (by decide) (by omega)
  have hsame : id = fmtU (i + AUTHD_FIRST_ID) := by
    rw [← hid, fmtD_natCast, snprintf, take_of_length_le hlen]
  refine ⟨hsame ▸ hlen, ⟨i, hi, hsame⟩, fun s hs heq => hfree ?_⟩
  exact (mem_mapIDToBitArray hr hmax i).mpr ⟨s, hs, heq.trans hsame⟩

/-- There is an id as long as there is one that no line has. -/
theorem exists_freeId (hr : ∀ s ∈ r, Sound max_agents s.agent)
    (hmax : max_agents + AUTHD_FIRST_ID ≤ 10 ^ 7) {i : ℕ} (hi : i < max_agents)
    (hfree : ∀ s ∈ r, s.agent.id ≠ fmtU (i + AUTHD_FIRST_ID)) :
    ∃ id, freeId max_agents (rosterText r) = some id := by
  have hbit : i ∉ mapIDToBitArray max_agents (rosterText r) := by
    rw [mem_mapIDToBitArray hr hmax]
    rintro ⟨s, hs, heq⟩
    exact hfree s hs heq
  have hsome : ((List.range max_agents).find?
      fun i => i ∉ mapIDToBitArray max_agents (rosterText r)).isSome = true := by
    rw [find?_isSome]
    exact ⟨i, mem_range.mpr hi, by simpa using hbit⟩
  obtain ⟨k, hk⟩ := isSome_iff_exists.mp hsome
  rw [freeId, hk]
  exact ⟨_, rfl⟩

/-- What the agent that is made has; the id is its own. -/
theorem newAgent_fields {name : Bytes} {ip random_data : Option Bytes}
    (hr : ∀ s ∈ r, Sound max_agents s.agent) (hmax : max_agents + AUTHD_FIRST_ID ≤ 10 ^ 7)
    (h : newAgent P max_agents (rosterText r) name ip none random_data = some a) :
    (a.id.length ≤ 7 ∧ (∃ i < max_agents, a.id = fmtU (i + AUTHD_FIRST_ID)) ∧
        ∀ s ∈ r, s.agent.id ≠ a.id) ∧
      (liveAgents r).length + 3 < max_agents ∧ a.name = name ∧ a.ip = ip.getD (lit "any") ∧
        (∀ b ∈ a.key, isXDigit b = true) ∧ a.key.length = 64 := by
  rw [newAgent, countAgents_roster hr] at h
  split_ifs at h with hfull
  obtain ⟨id, hid, h⟩ := bind_eq_some_iff.mp h
  obtain ⟨random_data, -, rfl⟩ := map_eq_some_iff.mp h
  refine ⟨freeId_roster hr hmax hid, not_le.mp hfull, rfl, rfl, fun b hb => ?_, ?_⟩
  · exact (mem_append.mp hb).elim isXDigit_of_mem_osMD5Bytes isXDigit_of_mem_osMD5Bytes
  · dsimp only
    rw [length_append, Crypto.length_osMD5Bytes, Crypto.length_osMD5Bytes]

/-- The agent that is made fits in a line. -/
theorem newAgent_roster {name : Bytes} {ip random_data : Option Bytes}
    (hr : ∀ s ∈ r, Sound max_agents s.agent) (hmax : max_agents + AUTHD_FIRST_ID ≤ 10 ^ 7)
    (hname : osIsValidName name = true) (hip : Field (ip.getD (lit "any")))
    (hlen : (ip.getD (lit "any")).length ≤ 50)
    (h : newAgent P max_agents (rosterText r) name ip none random_data = some a) :
    Sound max_agents a := by
  obtain ⟨⟨hidlen, hnum, -⟩, -, rfl, hip', hkey, hkeylen⟩ := newAgent_fields hr hmax h
  obtain ⟨hfield, hhead, hnamelen, -⟩ := field_of_osIsValidName hname
  exact {
    id := hnum
    id_length := hidlen
    name := hfield
    name_head := hhead
    name_length := hnamelen
    ip := hip' ▸ hip
    ip_length := hip' ▸ hlen
    key := field_of_isXDigit hkey
    key_length := hkeylen }

/-- **An agent is added** to the file. -/
theorem osAddNewAgent_roster {content name : Bytes} {ip random_data : Option Bytes}
    (ha : Sound max_agents a)
    (h : newAgent P max_agents content name ip none random_data = some a) :
    osAddNewAgent P max_agents content name ip none random_data =
      (some (text a), content ++ rosterText [⟨a, true⟩]) := by
  have hlen : (text a).length ≤ 2048 - 1 := by
    have hline := Sound.length_line (s := ⟨a, true⟩) ha
    rw [length_line ha.key_length] at hline
    exact (hline.trans (by decide)).le
  rw [osAddNewAgent, h]
  dsimp only
  rw [snprintf, take_of_length_le hlen, rosterText_cons]
  rfl

/-! ## The agents are loaded -/

/-- What is kept of an entry. -/
def fields (e : KeyEntry) : Bytes × Bytes × Bytes × Bytes := (e.id, e.name, e.ip, e.key)

/-- What is to be kept of an agent: the address without its prefix length, and the key that is
derived from the one in the file. -/
def loaded (P : Crypto) (a : KeyLine) : Bytes × Bytes × Bytes × Bytes :=
  (a.id, a.name, ((cutAt (chr '/') a.ip).map Prod.fst).getD a.ip, finalKey P a)

variable {env : KeysEnv}

theorem liveAgents_cons (s : Slot) (r : List Slot) :
    liveAgents (s :: r) = if s.live then s.agent :: liveAgents r else liveAgents r := by
  rw [liveAgents, filter_cons]
  split_ifs
  · rfl
  · rfl

theorem chash_loaded {t : KeyTable} (hip : osIsValidIP env a.ip ≠ 0) :
    ∃ t', chash P env t a = some t' ∧ t'.keyentries.length = t.keyentries.length + 1 ∧
      t'.keyentries.map fields = t.keyentries.map fields ++ [loaded P a] := by
  rw [chash, if_neg hip]
  refine ⟨_, rfl, length_append, ?_⟩
  rw [map_append]
  rfl

theorem readKeyLines_roster (hr : ∀ s ∈ r, Sound max_agents s.agent)
    (hname : ∀ s ∈ r, s.agent.name.length < KEYSIZE)
    (hip : ∀ a ∈ liveAgents r, osIsValidIP env a.ip ≠ 0) {t : KeyTable}
    (hroom : t.keyentries.length + (liveAgents r).length + 2 < env.max_agents) :
    ∃ t', readKeyLines P env t (r.map fun s => s.line ++ [chr '\n']) = some t' ∧
      t'.keyentries.map fields =
        t.keyentries.map fields ++ (liveAgents r).map (loaded P) := by
  induction r generalizing t with
  | nil => exact ⟨t, rfl, (append_nil _).symm⟩
  | cons s r ih =>
    have hr' : ∀ s ∈ r, Sound max_agents s.agent := fun s' hs' => hr s' (mem_cons_of_mem _ hs')
    have hname' : ∀ s ∈ r, s.agent.name.length < KEYSIZE :=
      fun s' hs' => hname s' (mem_cons_of_mem _ hs')
    rw [map_cons, readKeyLines.eq_def]
    dsimp only
    rw [keyLine_slot (hr s mem_cons_self) (hname s mem_cons_self)]
    rw [liveAgents_cons] at hip hroom ⊢
    cases hlive : s.live with
    | false =>
      rw [hlive, if_neg Bool.false_ne_true] at hip hroom
      rw [if_neg Bool.false_ne_true, if_neg Bool.false_ne_true]
      exact ih hr' hname' hip hroom
    | true =>
      rw [hlive, if_pos rfl] at hip hroom
      rw [length_cons] at hroom
      rw [if_pos rfl, if_pos rfl]
      obtain ⟨t₁, hchash, hlen, hadded⟩ := @chash_loaded s.agent P env t (hip _ mem_cons_self)
      obtain ⟨t', hread, hfields⟩ := @ih hr' hname'
        (fun a ha => hip a (mem_cons_of_mem _ ha)) t₁ (by omega)
      refine ⟨t', ?_, ?_⟩
      · show (chash P env t s.agent).bind _ = _
        rw [hchash, bind_some, if_neg (by omega), hread]
      · rw [hfields, hadded, append_assoc]
        rfl

/-- **The agents that are still there are loaded.** -/
theorem osReadKeys_roster (hr : ∀ s ∈ r, Sound max_agents s.agent)
    (hname : ∀ s ∈ r, s.agent.name.length < KEYSIZE)
    (hip : ∀ a ∈ liveAgents r, osIsValidIP env a.ip ≠ 0)
    (hroom : (liveAgents r).length + 2 < env.max_agents)
    (hsome : liveAgents r ≠ [] ∨ env.pass_empty_keyfile = true) :
    ∃ t, osReadKeys P env (rosterText r) = some t ∧
      t.keyentries.map fields = (liveAgents r).map (loaded P) := by
  obtain ⟨t, hread, hfields⟩ := @readKeyLines_roster max_agents r P env hr hname hip
    { keyentries := [], keyhash_id := [], keyhash_ip := [] } (by
      rw [length_nil, zero_add]
      exact hroom)
  rw [map_nil, nil_append] at hfields
  refine ⟨t, ?_, hfields⟩
  have hnot : ¬ (t.keyentries.length = 0 ∧ (!env.pass_empty_keyfile) = true) := by
    rintro ⟨hzero, hempty⟩
    have hlen := congrArg List.length hfields
    rw [length_map, length_map, hzero] at hlen
    rcases hsome with hne | hpass
    · exact hne (length_eq_zero_iff.mp hlen.symm)
    · rw [hpass] at hempty
      cases hempty
  rw [osReadKeys, fgetsAll_roster hr (by decide), hread, bind_some, if_neg hnot]

end AddAgent
