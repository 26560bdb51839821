import OssecHids.AddAgent.Roster

/-!
# Agents are added to the keys file and removed from it

- `KeysEnv.Documented`: what is known about `inet_pton`;
- `Meets`: the additions whose lines are read back as they were meant;
- `Keeps.step`: the file is that of the agents added so far;
- `keysFile_law`: the ids are distinct, a removal changes one line, and the daemon loads the agents
  that were added and not removed.
-/

open CString Transition Framing List Option

/-- `inet_pton` accepts digits, letters, colons and dots only, some of them but less than
`INET6_ADDRSTRLEN`; `::` is an address. -/
structure KeysEnv.Documented (env : KeysEnv) : Prop where
  length : ∀ address inet6, env.os_pton_sockaddr address = some inet6 → address.length ≤ 45
  letters : ∀ address inet6, env.os_pton_sockaddr address = some inet6 →
    ∀ b ∈ address, AddAgent.isXDigit b = true ∨ b = chr ':' ∨ b = chr '.'
  nil : env.os_pton_sockaddr [] = none
  any : env.os_pton_sockaddr (lit "::") = some true

namespace AddAgent

/-- A call of one of the tools; of `OS_AddNewAgent`, with the agent that it makes. -/
inductive KeysEvent
  | add (name : Bytes) (ip random_data : Option Bytes) (agent : Option KeyLine)
  | remove (id : Bytes)

/-- The file after a call. -/
def Step (P : Crypto) (env : KeysEnv) (content : Bytes) : KeysEvent → Bytes → Prop
  | .add name ip random_data agent, content' =>
    agent = newAgent P env.max_agents content name ip none random_data ∧
      content' = (osAddNewAgent P env.max_agents content name ip none random_data).2
  | .remove id, content' => content' = (osRemoveAgent content id).2

/-- The names and addresses are valid. -/
def Valid (env : KeysEnv) : KeysEvent → Prop
  | .add name ip _ _ => osIsValidName name = true ∧
    ∀ address ∈ ip, osIsValidIP env address ≠ 0 ∧ ∀ b ∈ address, b ≠ 0
  | .remove _ => True

/-- The name is not longer than what the daemon keeps of it, and no blank or newline is hidden
behind the slash of the address. -/
def Meets : KeysEvent → Prop
  | .add name ip _ _ =>
    name.length < KEYSIZE ∧ ∀ address ∈ ip, chr ' ' ∉ address ∧ chr '\n' ∉ address
  | .remove _ => True

def GoodStep (P : Crypto) (env : KeysEnv) (content : Bytes) (e : KeysEvent) (content' : Bytes) :
    Prop :=
  Step P env content e content' ∧ Valid env e ∧ Meets e

/-- The agents that were added, and whether they are still there. -/
def rosterOf (es : List KeysEvent) : List Slot :=
  es.foldl
    (fun r e =>
      match e with
      | .add _ _ _ (some agent) => r ++ [⟨agent, true⟩]
      | .add _ _ _ none => r
      | .remove id => remove id r) []

/-- The id of a line. -/
def lineId (line : Bytes) : Option Bytes := (cutAt (chr ' ') line).map Prod.fst

/-- What a removal does to a line. -/
def removeLine (id line : Bytes) : Bytes :=
  if lineId line = some id then overwrite (id ++ REMOVED) line else line

variable {P : Crypto} {env : KeysEnv} {r : List Slot} {content content' : Bytes}
  {e : KeysEvent} {es : List KeysEvent} {id address : Bytes}

/-! ## Addresses -/

theorem osIsValidIP_any (hdoc : env.Documented) : osIsValidIP env (lit "any") ≠ 0 := by
  have hhead : ¬(lit "any").headD 0 = chr '!' := by decide
  have hstr : str (lit "any") = ['a', 'n', 'y'].map chr := rfl
  have hcut : cutAt (chr '/') ([':', ':', '/', '0'].map chr) = some (lit "::", lit "0") := rfl
  rw [osIsValidIP, if_neg hhead]
  rw [if_pos hstr, hcut]
  dsimp only
  rw [hdoc.any]
  decide

/-- A valid address is not longer than the longest one, with `!` in front of it and a prefix length
behind it. -/
theorem length_of_osIsValidIP (hdoc : env.Documented) (hz : ∀ b ∈ address, b ≠ 0)
    (h : osIsValidIP env address ≠ 0) : address.length ≤ 50 := by
  rw [osIsValidIP] at h
  generalize hx : (if address.headD 0 = chr '!' then address.drop 1 else address) = x at h
  have hlen : address.length ≤ x.length + 1 := by
    rw [← hx]
    split_ifs
    · rw [length_drop]
      omega
    · omega
  have hxz : ∀ b ∈ x, b ≠ 0 := by
    intro b hb
    rw [← hx] at hb
    split_ifs at hb
    · exact hz b (mem_of_mem_drop hb)
    · exact hz b hb
  rw [str_eq_self hxz] at h
  by_cases hany : x = ['a', 'n', 'y'].map chr
  case pos =>
    rw [hany] at hlen
    exact hlen.trans (by decide)
  case neg =>
    rw [if_neg hany] at h
    have hshort : x.length ≤ 49 := by
      cases hcut : cutAt (chr '/') x with
      | none =>
        rw [hcut] at h
        dsimp only at h
        cases hpton : env.os_pton_sockaddr x with
        | none =>
          rw [hpton] at h
          exact absurd rfl h
        | some inet6 => exact (hdoc.length x inet6 hpton).trans (by decide)
      | some parts =>
        obtain ⟨a, tmp_str⟩ := parts
        obtain ⟨rfl, -⟩ := exists_of_cutAt_eq_some hcut
        rw [hcut] at h
        dsimp only at h
        by_cases hprefix : tmp_str.length ≤ 3
        case pos =>
          cases hpton : env.os_pton_sockaddr a with
          | none =>
            rw [hpton, if_pos hprefix] at h
            exact absurd rfl h
          | some inet6 =>
            have hle := hdoc.length a inet6 hpton
            rw [length_append, length_cons]
            omega
        case neg =>
          rw [if_neg hprefix] at h
          exact absurd rfl h
    omega

/-! ## The file and the agents -/

theorem rosterOf_concat (es : List KeysEvent) (e : KeysEvent) :
    rosterOf (es ++ [e]) =
      match e with
      | .add _ _ _ (some agent) => rosterOf es ++ [⟨agent, true⟩]
      | .add _ _ _ none => rosterOf es
      | .remove id => remove id (rosterOf es) := by
  rw [rosterOf, foldl_append]
  rfl

/-- The file has a line for each agent, that all parsers read as it was meant. -/
structure Keeps (env : KeysEnv) (r : List Slot) (content : Bytes) : Prop where
  text : content = rosterText r
  sound : ∀ s ∈ r, Sound env.max_agents s.agent
  ids : (r.map fun s => s.agent.id).Nodup
  name : ∀ s ∈ r, s.agent.name.length < KEYSIZE
  ip : ∀ s ∈ r, osIsValidIP env s.agent.ip ≠ 0
  room : r = [] ∨ (liveAgents r).length + 2 < env.max_agents

theorem forall_mem_remove {p : KeyLine → Prop} (h : ∀ s ∈ r, p s.agent) (id : Bytes) :
    ∀ s ∈ remove id r, p s.agent := by
  intro s hs
  have hmem : s.agent ∈ (remove id r).map Slot.agent := mem_map_of_mem hs
  rw [agents_remove] at hmem
  obtain ⟨s', hs', heq⟩ := mem_map.mp hmem
  rw [← heq]
  exact h s' hs'

theorem length_liveAgents_remove (id : Bytes) (r : List Slot) :
    (liveAgents (remove id r)).length ≤ (liveAgents r).length := by
  induction r with
  | nil => exact le_rfl
  | cons s r ih =>
    have hcons : remove id (s :: r) =
        (if s.agent.id = id then { s with live := false } else s) :: remove id r := rfl
    rw [hcons, liveAgents_cons, liveAgents_cons]
    by_cases hid : s.agent.id = id
    case pos =>
      rw [if_pos hid, if_neg Bool.false_ne_true]
      split_ifs
      · exact ih.trans (Nat.le_succ _)
      · exact ih
    case neg =>
      rw [if_neg hid]
      split_ifs
      · exact Nat.succ_le_succ ih
      · exact ih

theorem liveAgents_append (r : List Slot) (a : KeyLine) :
    liveAgents (r ++ [⟨a, true⟩]) = liveAgents r ++ [a] := by
  rw [liveAgents, filter_append, map_append]
  rfl

theorem Keeps.remove (h : Keeps env r content) (id : Bytes) :
    Keeps env (remove id r) (osRemoveAgent content id).2 where
  text := by rw [h.text, osRemoveAgent_roster h.sound h.ids]
  sound := forall_mem_remove h.sound id
  ids := by rw [ids_remove]; exact h.ids
  name := forall_mem_remove (p := fun a => a.name.length < KEYSIZE) h.name id
  ip := forall_mem_remove (p := fun a => osIsValidIP env a.ip ≠ 0) h.ip id
  room := by
    have hle := length_liveAgents_remove id r
    refine h.room.imp (fun hnil => ?_) fun hlt => by omega
    rw [hnil]
    rfl

/-- An addition. -/
theorem Keeps.add (hdoc : env.Documented) (hmax : env.max_agents + AUTHD_FIRST_ID ≤ 10 ^ 7)
    (h : Keeps env r content) {name : Bytes} {ip random_data : Option Bytes} {a : KeyLine}
    (hvalid : Valid env (.add name ip random_data (some a)))
    (hmeets : Meets (.add name ip random_data (some a)))
    (hnew : newAgent P env.max_agents content name ip none random_data = some a) :
    Keeps env (r ++ [⟨a, true⟩])
      (osAddNewAgent P env.max_agents content name ip none random_data).2 := by
  have hip : osIsValidIP env (ip.getD (lit "any")) ≠ 0 ∧ Field (ip.getD (lit "any")) := by
    cases ip with
    | none =>
      exact ⟨osIsValidIP_any hdoc, by decide, by decide,
        forall_mem_of_all (P := (· ≠ 0)) (by decide)⟩
    | some address =>
      obtain ⟨hok, hz⟩ := hvalid.2 address rfl
      obtain ⟨hblank, hnl⟩ := hmeets.2 address rfl
      exact ⟨hok, hblank, hnl, hz⟩
  have hnew' := hnew
  rw [h.text] at hnew'
  obtain ⟨⟨-, -, hfree⟩, hroom, hname, haddress, -⟩ := newAgent_fields h.sound hmax hnew'
  have hsound := newAgent_roster h.sound hmax hvalid.1 hip.2
    (length_of_osIsValidIP hdoc hip.2.zero hip.1) hnew'
  have hall : ∀ p : KeyLine → Prop, (∀ s ∈ r, p s.agent) → p a →
      ∀ s ∈ r ++ [⟨a, true⟩], p s.agent := by
    intro p hp ha s hs
    rcases mem_append.mp hs with hs | hs
    · exact hp s hs
    · rw [mem_singleton.mp hs]
      exact ha
  exact {
    text := by rw [osAddNewAgent_roster hsound hnew, h.text, rosterText_append]
    sound := hall _ h.sound hsound
    ids := by
      rw [map_append, nodup_append]
      refine ⟨h.ids, nodup_singleton _, ?_⟩
      intro x hx y hy
      obtain ⟨s, hs, rfl⟩ := mem_map.mp hx
      rw [mem_singleton.mp hy]
      exact hfree s hs
    name := hall (fun a => a.name.length < KEYSIZE) h.name (by rw [hname]; exact hmeets.1)
    ip := hall (fun a => osIsValidIP env a.ip ≠ 0) h.ip (by rw [haddress]; exact hip.1)
    room := .inr (by
      rw [liveAgents_append, length_append, length_singleton]
      omega) }

/-- **A call** keeps the file that of the agents added so far. -/
theorem Keeps.step (hdoc : env.Documented) (hmax : env.max_agents + AUTHD_FIRST_ID ≤ 10 ^ 7)
    (h : Keeps env (rosterOf es) content) (hstep : GoodStep P env content e content') :
    Keeps env (rosterOf (es ++ [e])) content' := by
  obtain ⟨hstep, hvalid, hmeets⟩ := hstep
  rw [rosterOf_concat]
  cases e with
  | add name ip random_data agent =>
    obtain ⟨hagent, rfl⟩ := hstep
    cases agent with
    | none =>
      rw [osAddNewAgent, ← hagent]
      exact h
    | some a => exact h.add hdoc hmax hvalid hmeets hagent.symm
  | remove id =>
    obtain rfl : content' = _ := hstep
    exact h.remove id

/-! ## The lines of the file -/

theorem Keeps.frames (h : Keeps env r content) :
    frames (chr '\n') content = r.map Slot.line := by
  rw [h.text, rosterText, frames_unlines]
  intro l hl
  obtain ⟨s, hs, rfl⟩ := mem_map.mp hl
  exact newline_notMem_line (h.sound s hs)

theorem Sound.lineId {max_agents : ℕ} {s : Slot} (h : Sound max_agents s.agent) :
    lineId s.line = some s.agent.id := by
  rw [AddAgent.lineId, Slot.line_eq, cutAt_append h.field_id.blank h.field_id.zero]
  rfl

theorem Keeps.ids_frames (h : Keeps env r content) :
    ((Framing.frames (chr '\n') content).map lineId).Nodup := by
  have hids : (Framing.frames (chr '\n') content).map lineId =
      (r.map fun s => s.agent.id).map some := by
    rw [h.frames, List.map_map, List.map_map]
    exact map_congr_left fun s hs => (h.sound s hs).lineId
  rw [hids]
  exact h.ids.map (some_injective _)

theorem Keeps.frames_remove (h : Keeps env r content) (id : Bytes) :
    Framing.frames (chr '\n') (osRemoveAgent content id).2 =
      (Framing.frames (chr '\n') content).map (removeLine id) := by
  rw [(h.remove id).frames, h.frames, AddAgent.remove, List.map_map, List.map_map]
  refine map_congr_left fun s hs => ?_
  rw [Function.comp_apply, Function.comp_apply, removeLine, (h.sound s hs).lineId]
  by_cases hid : s.agent.id = id
  case pos => rw [if_pos hid, if_pos (congrArg some hid), ← hid, overwrite_line]
  case neg => rw [if_neg hid, if_neg fun hsome => hid (some.inj hsome)]

/-- The daemon loads the agents. -/
theorem Keeps.loads (h : Keeps env r content)
    (hsome : liveAgents r ≠ [] ∨ env.pass_empty_keyfile = true) :
    ∃ t, osReadKeys P env content = some t ∧
      t.keyentries.map fields = (liveAgents r).map (loaded P) := by
  have hip : ∀ a ∈ liveAgents r, osIsValidIP env a.ip ≠ 0 := by
    intro a ha
    obtain ⟨s, hs, rfl⟩ := mem_map.mp ha
    exact h.ip s (mem_of_mem_filter hs)
  rw [h.text]
  rcases h.room with hnil | hroom
  · -- no agent was ever added
    obtain rfl := hnil
    have hempty := hsome.resolve_left fun hne => hne rfl
    refine ⟨{ keyentries := [], keyhash_id := [], keyhash_ip := [] }, ?_, rfl⟩
    have hnot : ¬ (([] : List KeyEntry).length = 0 ∧ (!env.pass_empty_keyfile) = true) := by
      rw [hempty]
      exact fun h => absurd h.2 Bool.false_ne_true
    exact if_neg hnot
  · exact osReadKeys_roster h.sound h.name hip hroom hsome

/-- **The keys file**: along every run of additions, with ids that are chosen, and removals that
starts from an empty file, the ids of its lines are distinct, a removal changes only the line with
the id, and `OS_ReadKeys` loads exactly the agents that were added and not removed. -/
theorem keysFile_law (hdoc : env.Documented) (hmax : env.max_agents + AUTHD_FIRST_ID ≤ 10 ^ 7)
    (hrun : Run (GoodStep P env) [] es content) :
    ((frames (chr '\n') content).map lineId).Nodup ∧
      (∀ id, frames (chr '\n') (osRemoveAgent content id).2 =
        (frames (chr '\n') content).map (removeLine id)) ∧
      (liveAgents (rosterOf es) ≠ [] ∨ env.pass_empty_keyfile = true →
        ∃ t, osReadKeys P env content = some t ∧
          t.keyentries.map fields = (liveAgents (rosterOf es)).map (loaded P)) := by
  have hstart : Keeps env (rosterOf []) [] := {
    text := rfl
    sound := fun s hs => absurd hs not_mem_nil
    ids := nodup_nil
    name := fun s hs => absurd hs not_mem_nil
    ip := fun s hs => absurd hs not_mem_nil
    room := .inl rfl }
  have hstep : ∀ (pre : List KeysEvent) content e content', Keeps env (rosterOf pre) content →
      GoodStep P env content e content' → Keeps env (rosterOf (pre ++ [e])) content' :=
    fun pre content e content' h hstep => h.step hdoc hmax hstep
  have h := hrun.history hstep hstart
  exact ⟨h.ids_frames, h.frames_remove, h.loads⟩

def sampleEnv : KeysEnv where
  max_agents := 256
  pass_empty_keyfile := true
  os_pton_sockaddr := fun address =>
    if address = lit "::" then some true
    else if address = lit "10.0.0.1" then some false
    else none

theorem documented_sampleEnv : sampleEnv.Documented where
  length address inet6 h := by
    dsimp only [sampleEnv] at h
    split_ifs at h with h₁ h₂
    · rw [h₁]
      decide
    · rw [h₂]
      decide
  letters address inet6 h := by
    dsimp only [sampleEnv] at h
    split_ifs at h with h₁ h₂
    · rw [h₁]
      exact forall_mem_of_all (by decide)
    · rw [h₂]
      exact forall_mem_of_all (by decide)
  nil := rfl
  any := rfl

theorem max_sampleEnv : sampleEnv.max_agents + AUTHD_FIRST_ID ≤ 10 ^ 7 := by
  show 256 + 1024 ≤ 10 ^ 7
  omega

/-- An agent is added between the addition and the removal of another one. -/
theorem keysFile_law_three : ∃ es content, es.length = 3 ∧
    ((frames (chr '\n') content).map lineId).Nodup ∧
      ∃ t, osReadKeys .plain sampleEnv content = some t ∧
        t.keyentries.map fields = (liveAgents (rosterOf es)).map (loaded .plain) := by
  have hvalid : ∀ name agent random_data, osIsValidName name = true →
      Valid sampleEnv (.add name (some (lit "10.0.0.1")) random_data agent) := by
    intro name agent random_data hname
    refine ⟨hname, fun address haddress => ?_⟩
    obtain rfl := some.inj haddress
    exact ⟨by decide, forall_mem_of_all (P := (· ≠ 0)) (by decide)⟩
  have hmeets : ∀ name agent random_data, name.length < KEYSIZE →
      Meets (.add name (some (lit "10.0.0.1")) random_data agent) := by
    intro name agent random_data hname
    refine ⟨hname, fun address haddress => ?_⟩
    obtain rfl := some.inj haddress
    exact ⟨by decide, by decide⟩
  have hrun : ∃ es content, Run (GoodStep .plain sampleEnv) [] es content ∧ es.length = 3 :=
    ⟨[.add (lit "web") (some (lit "10.0.0.1")) (some (List.replicate 64 0)) _,
        .add (lit "db") (some (lit "10.0.0.1")) (some (List.replicate 64 1)) _,
        .remove (lit "1024")], _,
      .cons ⟨⟨rfl, rfl⟩, hvalid _ _ _ (by decide), hmeets _ _ _ (by decide)⟩
        (.cons ⟨⟨rfl, rfl⟩, hvalid _ _ _ (by decide), hmeets _ _ _ (by decide)⟩
          (.cons ⟨rfl, trivial, trivial⟩ (.nil _))), rfl⟩
  obtain ⟨es, content, hrun, hlen⟩ := hrun
  obtain ⟨hids, -, hloads⟩ := keysFile_law documented_sampleEnv max_sampleEnv hrun
  exact ⟨es, content, hlen, hids, hloads (.inr rfl)⟩

/-! ## A name that is too long -/

theorem length_name_keyLine {buffer : Bytes} {l : KeyLine} (h : keyLine buffer = some l) :
    l.name.length < KEYSIZE := by
  have hstrncpy : ∀ n s, (strncpy n s).length ≤ n := fun n s =>
    ((List.takeWhile_prefix _).length_le).trans (List.length_take_le ..)
  rw [keyLine] at h
  split_ifs at h
  obtain ⟨⟨id, tmp_str⟩, -, h⟩ := bind_eq_some_iff.mp h
  simp only at h
  split_ifs at h
  obtain ⟨⟨name, tmp_str⟩, -, h⟩ := bind_eq_some_iff.mp h
  obtain ⟨⟨ip, tmp_str⟩, -, rfl⟩ := map_eq_some_iff.mp h
  exact Nat.lt_succ_of_le (hstrncpy (KEYSIZE - 1) name)

theorem length_name_readKeyLines {lines : List Bytes} {t t' : KeyTable}
    (ht : ∀ e ∈ t.keyentries, e.name.length < KEYSIZE)
    (h : readKeyLines P env t lines = some t') : ∀ e ∈ t'.keyentries, e.name.length < KEYSIZE := by
  induction lines generalizing t with
  | nil => exact some.inj h ▸ ht
  | cons buffer lines ih =>
    rw [readKeyLines] at h
    split at h
    case h_1 => exact ih ht h
    case h_2 l hl =>
      obtain ⟨t₁, hchash, h⟩ := bind_eq_some_iff.mp h
      split_ifs at h
      refine ih (fun e he => ?_) h
      rw [chash] at hchash
      split_ifs at hchash
      rw [← some.inj hchash] at he
      rcases mem_append.mp he with he | he
      · exact ht e he
      · rw [mem_singleton.mp he]
        exact length_name_keyLine hl

theorem length_name_osReadKeys {t : KeyTable} (h : osReadKeys P env content = some t) :
    ∀ e ∈ t.keyentries, e.name.length < KEYSIZE := by
  obtain ⟨u, hu, h⟩ := bind_eq_some_iff.mp h
  split_ifs at h
  cases h
  exact length_name_readKeyLines (fun e he => absurd he not_mem_nil) hu

/-- The longest name that is valid is not loaded. -/
theorem not_keysFile : ¬ ∀ (P : Crypto) (env : KeysEnv) (es : List KeysEvent) (content : Bytes),
    env.Documented → env.max_agents + AUTHD_FIRST_ID ≤ 10 ^ 7 → env.pass_empty_keyfile = true →
    Run (fun content e content' => Step P env content e content' ∧ Valid env e) [] es content →
      ∃ t, osReadKeys P env content = some t ∧
        t.keyentries.map fields = (liveAgents (rosterOf es)).map (loaded P) := by
  intro h
  have hname : osIsValidName (List.replicate 128 (chr 'a')) = true := by
    rw [osIsValidName, length_replicate, all_replicate]
    rfl
  obtain ⟨a, hnew, hlong⟩ : ∃ a, newAgent .plain sampleEnv.max_agents []
      (List.replicate 128 (chr 'a')) none none (some (List.replicate 64 0)) = some a ∧
        a.name.length = 128 := ⟨_, rfl, length_replicate⟩
  obtain ⟨t, hread, hloads⟩ := h .plain sampleEnv [.add (List.replicate 128 (chr 'a')) none
    (some (List.replicate 64 0)) (some a)] _ documented_sampleEnv max_sampleEnv rfl
    (.cons ⟨⟨hnew.symm, rfl⟩, hname, fun _ hnone => by cases hnone⟩ (.nil _))
  have hlive : liveAgents (rosterOf [.add (List.replicate 128 (chr 'a')) none
      (some (List.replicate 64 0)) (some a)]) = [a] := rfl
  rw [hlive, map_singleton] at hloads
  obtain ⟨e, he, hfields⟩ := mem_map.mp (hloads ▸ mem_singleton.mpr rfl :
    loaded .plain a ∈ t.keyentries.map fields)
  have hshort := length_name_osReadKeys hread e he
  have hsame : e.name = a.name := (Prod.mk.inj (Prod.mk.inj hfields).2).1
  rw [hsame, hlong] at hshort
  exact absurd hshort (lt_irrefl _)

end AddAgent
