import OssecHids.Lib.Tail
import OssecHids.OsAuth.AuthConn

/-!
# The keys file in the hands of the enrollment daemon

The workers do what they do with the file one after the other, in any order.

- `Request.Meets`: the requests whose names leave room for the number that makes them unique;
- `Enrolled.step`: what a request keeps;
- `enrollment_law`: every line is accepted by the agents, names and ids are distinct, and so are the
  addresses when they are used.
-/

open CString Transition Framing AddAgent List Option

namespace OsAuth

/-- The address is one that `inet_ntop` writes: `inet_pton` reads it. -/
def Request.Formed (env : KeysEnv) (req : Request) : Prop :=
  ∃ inet6, env.os_pton_sockaddr req.srcip = some inet6

/-- A request is handled. -/
def Step (P : Crypto) (env : KeysEnv) (cfg : AuthConfig) (content : Bytes) (req : Request)
    (content' : Bytes) : Prop :=
  content' = (authConnectionWorker P env cfg content req).2 ∧ req.Formed env

/-- When the name is taken, and so are those with the numbers below `k` but not the one with `k`,
then that one has at most 128 characters. -/
def Request.Meets (cfg : AuthConfig) (content : Bytes) (req : Request) : Prop :=
  ∀ name, parseRequest cfg.authpass req.received = some name → osIsValidName name = true →
    nameExist content name = true → ∀ k : ℕ, 2 ≤ k → k ≤ 255 →
      (∀ j : ℕ, 2 ≤ j → j < k → nameExist content (name ++ fmtD j) = true) →
        nameExist content (name ++ fmtD k) = false → (name ++ fmtD k).length ≤ 128

def GoodStep (P : Crypto) (env : KeysEnv) (cfg : AuthConfig) (content : Bytes) (req : Request)
    (content' : Bytes) : Prop :=
  Step P env cfg content req content' ∧ req.Meets cfg content

/-- The name in a line. -/
def lineName (line : Bytes) : Option Bytes :=
  (cutAt (chr ' ') line).bind fun (_, rest) => (cutAt (chr ' ') rest).map Prod.fst

/-- The address in a line. -/
def lineIp (line : Bytes) : Option Bytes :=
  (cutAt (chr ' ') line).bind fun (_, rest) =>
    (cutAt (chr ' ') rest).bind fun (_, rest) => (cutAt (chr ' ') rest).map Prod.fst

variable {P : Crypto} {env : KeysEnv} {cfg : AuthConfig} {r : List Slot}
  {content content' name fname : Bytes} {req : Request} {reqs : List Request}

/-! ## Addresses -/

/-- A numeric address is a field, and is valid. -/
theorem Request.Formed.valid (hdoc : env.Documented) (h : req.Formed env) :
    Field req.srcip ∧ req.srcip ≠ [] ∧ req.srcip.length ≤ 50 ∧ osIsValidIP env req.srcip = 1 ∧
      ¬ (strncmpEq 3 req.srcip (lit "any") = true ∨
        (strchr (chr '/') req.srcip).isSome = true) := by
  obtain ⟨inet6, hpton⟩ := h
  have hnot : ∀ c : UInt8, isXDigit c = false → c ≠ chr ':' → c ≠ chr '.' → c ∉ req.srcip := by
    intro c hc hcolon hdot hmem
    rcases hdoc.letters _ _ hpton c hmem with hx | hx | hx
    · rw [hx] at hc
      cases hc
    · exact hcolon hx
    · exact hdot hx
  have hne : req.srcip ≠ [] := by
    intro hnil
    rw [hnil, hdoc.nil] at hpton
    cases hpton
  have hfield : Field req.srcip := ⟨hnot _ (by decide) (by decide) (by decide),
    hnot _ (by decide) (by decide) (by decide),
    fun b hb hz => hnot 0 (by decide) (by decide) (by decide) (hz ▸ hb)⟩
  have hslash : chr '/' ∉ req.srcip := hnot _ (by decide) (by decide) (by decide)
  have hn : chr 'n' ∉ req.srcip := hnot _ (by decide) (by decide) (by decide)
  have hbang : ¬ req.srcip.headD 0 = chr '!' := by
    obtain ⟨b, t, ht⟩ := exists_cons_of_ne_nil hne
    intro hb
    rw [ht] at hb
    obtain rfl : b = chr '!' := hb
    exact hnot (chr '!') (by decide) (by decide) (by decide) (ht ▸ mem_cons_self)
  have hany : ¬ req.srcip = ['a', 'n', 'y'].map chr := fun heq => hn (by rw [heq]; decide)
  refine ⟨hfield, hne, (hdoc.length _ _ hpton).trans (by decide), ?_, ?_⟩
  · rw [osIsValidIP, if_neg hbang]
    rw [str_eq_self hfield.zero, if_neg hany, cutAt_of_notMem hslash]
    dsimp only
    rw [hpton]
    cases inet6
    · rfl
    · rfl
  · rw [not_or]
    constructor
    · intro heq
      have htext := append_of_strncmpEq (t := lit "any")
        (forall_mem_of_all (P := (· ≠ 0)) (by decide)) heq
      rw [htext] at hn
      exact hn (mem_append_left _ (by decide))
    · intro hsome
      obtain ⟨p, hp⟩ := isSome_iff_exists.mp hsome
      obtain ⟨l, t, hl, -, -⟩ := exists_of_strchr_eq_some hp
      exact hslash (hl ▸ mem_append_right _ mem_cons_self)

/-! ## Names -/

/-- A number does not make a name invalid, as long as there is room for it. -/
theorem osIsValidName_number (h : osIsValidName name = true) {k : ℕ}
    (hlen : (name ++ fmtD k).length ≤ 128) : osIsValidName (name ++ fmtD k) = true := by
  rw [osIsValidName, Bool.and_eq_true, Bool.and_eq_true, decide_eq_true_iff, decide_eq_true_iff,
    List.all_eq_true] at h ⊢
  obtain ⟨⟨hmin, -⟩, hall⟩ := h
  refine ⟨⟨hmin.trans (by rw [length_append]; omega), hlen⟩, fun b hb => ?_⟩
  rcases mem_append.mp hb with hb | hb
  · exact hall b hb
  · rw [fmtD_natCast] at hb
    rw [isAlnum, isDigit_of_mem_fmtU hb]
    rfl

theorem Request.Meets.uniqueName (h : req.Meets cfg content)
    (hparse : parseRequest cfg.authpass req.received = some name)
    (hname : osIsValidName name = true)
    (hunique : OsAuth.uniqueName content name = some fname) :
    osIsValidName fname = true ∧ nameExist content fname = false := by
  obtain ⟨hfree, rfl | ⟨htaken, k, hk, hle, rfl, hbelow⟩⟩ := uniqueName_spec hname hunique
  · exact ⟨hname, hfree⟩
  · exact ⟨osIsValidName_number hname (h name hparse hname htaken k hk hle hbelow hfree), hfree⟩

/-! ## Runs -/

/-- All agents have lines that agents accept, and nothing in common that must be distinct. -/
structure Enrolled (env : KeysEnv) (cfg : AuthConfig) (r : List Slot) (content : Bytes) : Prop where
  text : content = rosterText r
  live : ∀ s ∈ r, s.live = true
  sound : ∀ s ∈ r, Sound env.max_agents s.agent
  valid : ∀ s ∈ r, osIsValidAgentKey env (AddAgent.text s.agent) = true
  ids : (r.map fun s => s.agent.id).Nodup
  names : (r.map fun s => s.agent.name).Nodup
  ips : cfg.use_ip_address = true → (r.map fun s => s.agent.ip).Nodup

/-- What a worker does. -/
theorem authConnectionWorker_cases (P : Crypto) (env : KeysEnv) (cfg : AuthConfig)
    (content : Bytes) (req : Request) :
    authConnectionWorker P env cfg content req = (none, content) ∨
      ∃ name fname a, parseRequest cfg.authpass req.received = some name ∧
        osIsValidName name = true ∧ uniqueName content name = some fname ∧
        ipExist content req.srcip = none ∧
        newAgent P env.max_agents content fname
          (if cfg.use_ip_address then some req.srcip else none) none req.random_data = some a ∧
        authConnectionWorker P env cfg content req = osAddNewAgent P env.max_agents content fname
          (if cfg.use_ip_address then some req.srcip else none) none req.random_data := by
  rw [authConnectionWorker.eq_def]
  cases hparse : parseRequest cfg.authpass req.received with
  | none => exact .inl rfl
  | some name =>
    dsimp only
    cases hname : osIsValidName name with
    | false => exact .inl rfl
    | true =>
      rw [if_neg (by decide)]
      cases hunique : uniqueName content name with
      | none => exact .inl rfl
      | some fname =>
        dsimp only
        cases hip : ipExist content req.srcip with
        | some _ => exact .inl rfl
        | none =>
          dsimp only
          cases hnew : newAgent P env.max_agents content fname
              (if cfg.use_ip_address then some req.srcip else none) none req.random_data with
          | none =>
            rw [osAddNewAgent, hnew]
            exact .inl rfl
          | some a => exact .inr ⟨name, fname, a, rfl, hname, hunique, rfl, hnew, rfl⟩

theorem authConnectionWorker_of_not_wellFormed (h : ¬ WellFormed cfg.authpass req.received) :
    authConnectionWorker P env cfg content req = (none, content) := by
  obtain hnone | ⟨name, fname, a, hparse, hname, -⟩ :=
    authConnectionWorker_cases P env cfg content req
  · exact hnone
  · obtain ⟨rest, hrest⟩ := request_of_parseRequest hparse
    exact absurd ⟨name, rest, hrest, hname⟩ h

/-- **A line is appended** that agents accept, with a name, an id and, where it is used, an address
that no other line has. -/
theorem Enrolled.add (hdoc : env.Documented) (hmax : env.max_agents + AUTHD_FIRST_ID ≤ 10 ^ 7)
    (h : Enrolled env cfg r content) (hformed : req.Formed env) {a : KeyLine}
    (hname : osIsValidName fname = true) (hfree : nameExist content fname = false)
    (hip : ipExist content req.srcip = none)
    (hnew : newAgent P env.max_agents content fname
      (if cfg.use_ip_address then some req.srcip else none) none req.random_data = some a) :
    Enrolled env cfg (r ++ [⟨a, true⟩]) (content ++ rosterText [⟨a, true⟩]) ∧
      Sound env.max_agents a := by
  obtain ⟨hfield, hne, hlen, hvalid, hplain⟩ := hformed.valid hdoc
  -- the address of the line
  have haddress : ∀ ip, ip = (if cfg.use_ip_address then some req.srcip else none) →
      Field (ip.getD (lit "any")) ∧ (ip.getD (lit "any")).length ≤ 50 ∧
        ip.getD (lit "any") ≠ [] ∧ (ip.getD (lit "any") = lit "any" ∨
          osIsValidIP env (ip.getD (lit "any")) = 1) := by
    rintro ip rfl
    split_ifs
    · exact ⟨hfield, hlen, hne, .inr hvalid⟩
    · exact ⟨⟨by decide, by decide, forall_mem_of_all (P := (· ≠ 0)) (by decide)⟩, by decide,
        by decide, .inl rfl⟩
  obtain ⟨hip₁, hip₂, hip₃, hip₄⟩ := haddress _ rfl
  have hnew' := hnew
  rw [h.text] at hnew'
  obtain ⟨⟨-, -, hid⟩, -, hname', hip', hkey, -⟩ := newAgent_fields h.sound hmax hnew'
  have hsound := newAgent_roster h.sound hmax hname hip₁ hip₂ hnew'
  obtain ⟨hfield', -, -, hhead⟩ := field_of_osIsValidName hname
  have hlive : ∀ s ∈ r, s.agent ∈ liveAgents r := fun s hs =>
    mem_map_of_mem (mem_filter.mpr ⟨hs, h.live s hs⟩)
  have hall : ∀ p : Slot → Prop, (∀ s ∈ r, p s) → p ⟨a, true⟩ → ∀ s ∈ r ++ [⟨a, true⟩], p s := by
    intro p hp ha s hs
    rcases mem_append.mp hs with hs | hs
    · exact hp s hs
    · rw [mem_singleton.mp hs]
      exact ha
  have hnodup : ∀ f : Slot → Bytes, (r.map f).Nodup → (∀ s ∈ r, f s ≠ f ⟨a, true⟩) →
      ((r ++ [Slot.mk a true]).map f).Nodup := by
    intro f hf hne
    rw [map_append, nodup_append]
    refine ⟨hf, nodup_singleton _, ?_⟩
    intro x hx y hy
    obtain ⟨s, hs, rfl⟩ := mem_map.mp hx
    rw [mem_singleton.mp hy]
    exact hne s hs
  have hvalid' : osIsValidAgentKey env (AddAgent.text a) = true := by
    have hid' : osIsValidID a.id = true := by
      obtain ⟨i, -, hi⟩ := hsound.id
      have hlen := hsound.id_length
      rw [osIsValidID, Bool.and_eq_true, decide_eq_true_iff, List.all_eq_true]
      refine And.intro (by omega) fun b hb => ?_
      rw [hi] at hb
      exact isDigit_of_mem_fmtU hb
    have hne' : a.name ≠ [] := by
      intro hnil
      rw [hname'] at hnil
      rw [hnil] at hname
      cases hname
    rw [osIsValidAgentKey_text hid' hsound.field_id hsound.name hne' hsound.ip (by rwa [hip'])
      (by rwa [hip']) hkey hsound.key_length, hname', hname]
  have hnames : ∀ s ∈ r, s.agent.name ≠ a.name := by
    intro s hs heq
    have hexist := (nameExist_roster h.sound hhead).mpr ⟨s.agent, hlive s hs, heq.trans hname'⟩
    rw [← h.text, hfree] at hexist
    cases hexist
  have hips : cfg.use_ip_address = true → ∀ s ∈ r, s.agent.ip ≠ a.ip := by
    intro huse s hs heq
    rw [h.text] at hip
    rw [if_pos huse] at hip'
    exact (ipExist_roster h.sound hplain).mp hip s.agent (hlive s hs) (heq.trans hip')
  refine ⟨?_, hsound⟩
  exact {
    text := by rw [h.text, rosterText_append]
    live := hall (fun s => s.live = true) h.live rfl
    sound := hall (fun s => Sound env.max_agents s.agent) h.sound hsound
    valid := hall (fun s => osIsValidAgentKey env (AddAgent.text s.agent) = true) h.valid hvalid'
    ids := hnodup _ h.ids hid
    names := hnodup _ h.names hnames
    ips := fun huse => hnodup _ (h.ips huse) (hips huse) }

/-- **A request** keeps the file as it must be. -/
theorem Enrolled.step (hdoc : env.Documented) (hmax : env.max_agents + AUTHD_FIRST_ID ≤ 10 ^ 7)
    (h : Enrolled env cfg r content) (hformed : req.Formed env) (hmeets : req.Meets cfg content) :
    authConnectionWorker P env cfg content req = (none, content) ∨
      ∃ a, Enrolled env cfg (r ++ [⟨a, true⟩]) (content ++ rosterText [⟨a, true⟩]) ∧
        Sound env.max_agents a ∧ authConnectionWorker P env cfg content req =
          (some (AddAgent.text a), content ++ rosterText [⟨a, true⟩]) := by
  obtain hnone | ⟨name, fname, a, hparse, hname, hunique, hip, hnew, hworker⟩ :=
    authConnectionWorker_cases P env cfg content req
  · exact .inl hnone
  · obtain ⟨hvalid, hfree⟩ := hmeets.uniqueName hparse hname hunique
    obtain ⟨hadd, hsound⟩ := h.add hdoc hmax hformed hvalid hfree hip hnew
    exact .inr ⟨a, hadd, hsound, by rw [hworker, osAddNewAgent_roster hsound hnew]⟩

/-! ## The lines -/

theorem line_live {s : Slot} (h : s.live = true) : s.line = AddAgent.text s.agent := by
  rw [Slot.line, if_pos h]

theorem Enrolled.frames (h : Enrolled env cfg r content) :
    frames (chr '\n') content = r.map fun s => AddAgent.text s.agent := by
  have hlines : r.map Slot.line = r.map fun s => AddAgent.text s.agent :=
    map_congr_left fun s hs => line_live (h.live s hs)
  rw [h.text, rosterText, hlines, frames_unlines]
  intro l hl
  obtain ⟨s, hs, rfl⟩ := mem_map.mp hl
  exact newline_notMem_text (h.sound s hs)

/-- The fields of a line. -/
theorem fields_text {a : KeyLine} (h : Sound env.max_agents a) :
    lineId (AddAgent.text a) = some a.id ∧ lineName (AddAgent.text a) = some a.name ∧
      lineIp (AddAgent.text a) = some a.ip := by
  have hid : cutAt (chr ' ') (AddAgent.text a) =
      some (a.id, a.name ++ chr ' ' :: (a.ip ++ chr ' ' :: a.key)) :=
    cutAt_append h.field_id.blank h.field_id.zero
  have hname : cutAt (chr ' ') (a.name ++ chr ' ' :: (a.ip ++ chr ' ' :: a.key)) =
      some (a.name, a.ip ++ chr ' ' :: a.key) := cutAt_append h.name.blank h.name.zero
  refine ⟨?_, ?_, ?_⟩
  · rw [lineId, hid]
    rfl
  · rw [lineName, hid, bind_some]
    dsimp only
    rw [hname]
    rfl
  · rw [lineIp, hid, bind_some]
    dsimp only
    rw [hname, bind_some]
    rw [cutAt_append h.ip.blank h.ip.zero]
    rfl

theorem Enrolled.nodup_frames (h : Enrolled env cfg r content) {field : Bytes → Option Bytes}
    {f : KeyLine → Bytes}
    (hfield : ∀ a, Sound env.max_agents a → field (AddAgent.text a) = some (f a))
    (hf : (r.map fun s => f s.agent).Nodup) :
    ((Framing.frames (chr '\n') content).map field).Nodup := by
  have hsome : (Framing.frames (chr '\n') content).map field =
      (r.map fun s => f s.agent).map some := by
    rw [h.frames, List.map_map, List.map_map]
    exact map_congr_left fun s hs => hfield s.agent (h.sound s hs)
  rw [hsome]
  exact hf.map (some_injective _)

theorem keyResponse_text {a : KeyLine} (h : Sound env.max_agents a) :
    keyResponse (AddAgent.text a) = lit "OSSEC K:'" ++ (AddAgent.text a ++ lit "'\n\n") := by
  have hline : (AddAgent.text a).length < FILE_SIZE - 2 := by
    have hline := Sound.length_line (s := ⟨a, true⟩) h
    rwa [length_line h.key_length] at hline
  rw [keyResponse, snprintf, take_of_length_le]
  rw [length_append, length_append]
  have hsize : (lit "OSSEC K:'").length + ((lit "'\n\n").length + (FILE_SIZE - 2)) ≤ 2048 - 1 := by
    decide
  omega

/-- **Enrollment**: along every run of requests that leave room for the number of a name, from the
empty file on, agents accept every line of the file, the ids and names of the lines are distinct,
and so are the addresses when they are used. What is sent back is the line that is appended. A
request without the password and a valid name changes nothing. -/
theorem enrollment_law (hdoc : env.Documented) (hmax : env.max_agents + AUTHD_FIRST_ID ≤ 10 ^ 7)
    (hrun : Run (GoodStep P env cfg) [] reqs content) :
    (∀ line ∈ frames (chr '\n') content, osIsValidAgentKey env line = true) ∧
      ((frames (chr '\n') content).map lineId).Nodup ∧
      ((frames (chr '\n') content).map lineName).Nodup ∧
      (cfg.use_ip_address = true → ((frames (chr '\n') content).map lineIp).Nodup) ∧
      (∀ req, req.Formed env → req.Meets cfg content →
        authConnectionWorker P env cfg content req = (none, content) ∨
          ∃ line, authConnectionWorker P env cfg content req =
              (some line, content ++ (line ++ [chr '\n'])) ∧
            osIsValidAgentKey env line = true ∧
            keyResponse line = lit "OSSEC K:'" ++ (line ++ lit "'\n\n")) ∧
      (∀ req : Request, ¬ WellFormed cfg.authpass req.received →
        authConnectionWorker P env cfg content req = (none, content)) := by
  have hstart : Enrolled env cfg [] [] := {
    text := rfl
    live := fun s hs => absurd hs not_mem_nil
    sound := fun s hs => absurd hs not_mem_nil
    valid := fun s hs => absurd hs not_mem_nil
    ids := nodup_nil
    names := nodup_nil
    ips := fun _ => nodup_nil }
  have hstep : ∀ content req content', (∃ r, Enrolled env cfg r content) →
      GoodStep P env cfg content req content' → ∃ r, Enrolled env cfg r content' := by
    rintro content req content' ⟨r, h⟩ ⟨⟨rfl, hformed⟩, hmeets⟩
    obtain hnone | ⟨a, hadd, -, hworker⟩ := h.step hdoc hmax hformed hmeets
    · exact ⟨r, by rw [hnone]; exact h⟩
    · exact ⟨_, by rw [hworker]; exact hadd⟩
  obtain ⟨r, h⟩ := hrun.invariant hstep ⟨[], hstart⟩
  refine ⟨fun line hline => ?_, h.nodup_frames (fun a ha => (fields_text ha).1) h.ids,
    h.nodup_frames (fun a ha => (fields_text ha).2.1) h.names,
    fun huse => h.nodup_frames (fun a ha => (fields_text ha).2.2) (h.ips huse),
    fun req hformed hmeets => ?_, fun req hnot => authConnectionWorker_of_not_wellFormed hnot⟩
  · rw [h.frames] at hline
    obtain ⟨s, hs, rfl⟩ := mem_map.mp hline
    exact h.valid s hs
  · obtain hnone | ⟨a, hadd, hsound, hworker⟩ := h.step hdoc hmax hformed hmeets
    · exact .inl hnone
    · refine .inr ⟨_, ?_, hadd.valid _ (mem_append_right _ mem_cons_self),
        keyResponse_text hsound⟩
      rw [hworker, rosterText_cons]
      rfl

/-! ## A name without room -/

def sampleConfig : AuthConfig where
  authpass := some (lit "pw")
  use_ip_address := false
  authpass_ne_zero pass hpass := by
    obtain rfl := Option.some.inj hpass
    exact forall_mem_of_all (P := (· ≠ 0)) (by decide)

/-- A request for a name. -/
def requestOf (name : Bytes) : Request where
  srcip := lit "10.0.0.1"
  received := lit "OSSEC PASS: pw OSSEC A:'" ++ (name ++ lit "'")
  random_data := some (List.replicate 64 0)

theorem formed_requestOf (name : Bytes) : (requestOf name).Formed sampleEnv := ⟨false, rfl⟩

/-- Two agents ask for the same name. -/
theorem enrollment_law_two : ∃ content : Bytes,
    (∀ line ∈ frames (chr '\n') content, osIsValidAgentKey sampleEnv line = true) ∧
      ((frames (chr '\n') content).map lineName).Nodup := by
  have hparse : parseRequest sampleConfig.authpass (requestOf (lit "web")).received =
      some (lit "web") := rfl
  have hmeets : ∀ content, (requestOf (lit "web")).Meets sampleConfig content := by
    intro content name hparse' hname htaken k hk hle hbelow hfree
    obtain rfl := some.inj (hparse.symm.trans hparse')
    have hdigits : (fmtD k).length ≤ 3 := by
      rw [fmtD_natCast]
      exact length_fmtU_le (by decide) (by omega)
    have hweb : (lit "web").length = 3 := rfl
    rw [length_append]
    omega
  have hrun : ∃ content, Run (GoodStep .plain sampleEnv sampleConfig) []
      [requestOf (lit "web"), requestOf (lit "web")] content :=
    ⟨_, .cons ⟨⟨rfl, formed_requestOf _⟩, hmeets _⟩
      (.cons ⟨⟨rfl, formed_requestOf _⟩, hmeets _⟩ (.nil _))⟩
  obtain ⟨content, hrun⟩ := hrun
  obtain ⟨hvalid, -, hnames, -⟩ := enrollment_law documented_sampleEnv max_sampleEnv hrun
  exact ⟨content, hvalid, hnames⟩

/-- The longest name that is valid. -/
def longName : Bytes := List.replicate 128 (chr 'a')

theorem osIsValidName_longName : osIsValidName longName = true := by
  rw [longName, osIsValidName, length_replicate, all_replicate]
  rfl

theorem parseRequest_requestOf (hname : osIsValidName name = true) :
    parseRequest sampleConfig.authpass (requestOf name).received = some name := by
  obtain ⟨hfield, -, hlen, -⟩ := field_of_osIsValidName hname
  have hquote : chr '\'' ∉ name := by
    rw [osIsValidName, Bool.and_eq_true, List.all_eq_true] at hname
    intro hmem
    exact absurd (hname.2 _ hmem) (by decide)
  have hstr : str ((requestOf name).received.take 4096) = (requestOf name).received := by
    have hsize : (requestOf name).received.length ≤ 4096 := by
      rw [requestOf, length_append, length_append]
      have hfixed : (lit "OSSEC PASS: pw OSSEC A:'").length + (128 + (lit "'").length) ≤ 4096 := by
        decide
      omega
    rw [take_of_length_le hsize, str_eq_self]
    intro b hb
    rcases mem_append.mp hb with hb | hb
    · exact forall_mem_of_all (P := (· ≠ 0)) (by decide) b hb
    · rcases mem_append.mp hb with hb | hb
      · exact hfield.zero b hb
      · exact forall_mem_of_all (P := (· ≠ 0)) (by decide) b hb
  have hpass : checkPass (some (lit "pw")) (requestOf name).received =
      some (lit "OSSEC A:'" ++ (name ++ lit "'")) := by
    have hlong : ((requestOf name).received.drop 12).length > (lit "pw").length := by
      have hdrop : (requestOf name).received.drop 12 =
          lit "pw OSSEC A:'" ++ (name ++ lit "'") := rfl
      rw [hdrop, length_append]
      exact Nat.lt_add_right _ (by decide)
    have hstart : strncmpEq 12 (requestOf name).received (lit "OSSEC PASS: ") = true := rfl
    have hword :
        strncmpEq (lit "pw").length ((requestOf name).received.drop 12) (lit "pw") = true := rfl
    rw [checkPass]
    rw [if_pos hstart, if_pos ⟨hlong, hword⟩]
    exact if_pos rfl
  have hcut : cutAt (chr '\'') (name ++ chr '\'' :: []) = some (name, []) :=
    cutAt_append hquote hfield.zero
  rw [parseRequest, hstr, show sampleConfig.authpass = some (lit "pw") from rfl, hpass, bind_some]
  refine (if_pos rfl).trans ?_
  show (cutAt (chr '\'') (name ++ chr '\'' :: [])).map Prod.fst = some name
  rw [hcut]
  rfl

theorem authConnectionWorker_of
    (hparse : parseRequest cfg.authpass req.received = some name)
    (hname : osIsValidName name = true) (hunique : uniqueName content name = some fname)
    (hip : ipExist content req.srcip = none)
    (huse : cfg.use_ip_address = false) :
    authConnectionWorker P env cfg content req =
      osAddNewAgent P env.max_agents content fname none none req.random_data := by
  rw [authConnectionWorker.eq_def, hparse]
  dsimp only
  rw [hname, if_neg (by decide), hunique]
  rw [hip]
  rw [huse, if_neg Bool.false_ne_true]

theorem uniqueName_of_free (hname : osIsValidName name = true)
    (hfree : nameExist content name = false) : uniqueName content name = some name := by
  obtain ⟨hfield, -, hlen, -⟩ := field_of_osIsValidName hname
  rw [uniqueName, strncpy_self (by omega) hfield.zero, uniqueLoop, hfree]
  exact if_neg Bool.false_ne_true

theorem uniqueName_of_taken (hname : osIsValidName name = true)
    (htaken : nameExist content name = true)
    (hfree : nameExist content (name ++ lit "2") = false) :
    uniqueName content name = some (name ++ lit "2") := by
  obtain ⟨hfield, -, hlen, -⟩ := field_of_osIsValidName hname
  have hprint : snprintf 2048 (name ++ fmtD ((2 : ℕ) : ℤ)) = name ++ lit "2" := by
    rw [snprintf, take_of_length_le]
    · rfl
    · rw [length_append]
      have htwo : (fmtD ((2 : ℕ) : ℤ)).length = 1 := rfl
      omega
  rw [uniqueName, strncpy_self (by omega) hfield.zero, uniqueLoop, htaken, if_pos rfl]
  rw [hprint, if_neg (by decide), uniqueLoop, hfree]
  exact if_neg Bool.false_ne_true

/-- Two agents ask for a name of 128 letters, and the second one is given one of 129. -/
theorem not_enrollment : ¬ ∀ (P : Crypto) (env : KeysEnv) (cfg : AuthConfig) (reqs : List Request)
    (content : Bytes), env.Documented → env.max_agents + AUTHD_FIRST_ID ≤ 10 ^ 7 →
    Run (Step P env cfg) [] reqs content →
      ∀ line ∈ frames (chr '\n') content, osIsValidAgentKey env line = true := by
  intro h
  have hparse := parseRequest_requestOf osIsValidName_longName
  have hformed := formed_requestOf longName
  obtain ⟨hfield, -, hlen, hhead⟩ := field_of_osIsValidName osIsValidName_longName
  obtain ⟨-, -, -, -, hplain⟩ := hformed.valid documented_sampleEnv
  have hany : Field (lit "any") :=
    ⟨by decide, by decide, forall_mem_of_all (P := (· ≠ 0)) (by decide)⟩
  -- the first agent
  have hempty : ∀ s ∈ ([] : List Slot), Sound sampleEnv.max_agents s.agent :=
    fun s hs => absurd hs not_mem_nil
  obtain ⟨a, hnew, hname, hip, hid⟩ : ∃ a, newAgent .plain sampleEnv.max_agents (rosterText [])
      longName none none (requestOf longName).random_data = some a ∧ a.name = longName ∧
        a.ip = lit "any" ∧ a.id = fmtU AUTHD_FIRST_ID := ⟨_, rfl, rfl, rfl, rfl⟩
  have hsound : Sound sampleEnv.max_agents a :=
    @newAgent_roster _ _ _ _ _ none _ hempty max_sampleEnv osIsValidName_longName hany (by decide) hnew
  have hfirst : (authConnectionWorker .plain sampleEnv sampleConfig (rosterText [])
      (requestOf longName)).2 = rosterText [⟨a, true⟩] := by
    have hfree : nameExist (rosterText []) longName = false := by
      rw [Bool.eq_false_iff]
      intro hexist
      obtain ⟨b, hb, -⟩ := (nameExist_roster hempty hhead).mp hexist
      exact absurd hb not_mem_nil
    rw [authConnectionWorker_of hparse osIsValidName_longName
      (uniqueName_of_free osIsValidName_longName hfree) rfl rfl, osAddNewAgent_roster hsound hnew]
    rfl
  -- the second one
  have hone : ∀ s ∈ [Slot.mk a true], Sound sampleEnv.max_agents s.agent := by
    intro s hs
    rw [mem_singleton.mp hs]
    exact hsound
  have hlive : liveAgents [⟨a, true⟩] = [a] := rfl
  have htaken : nameExist (rosterText [⟨a, true⟩]) longName = true := by
    rw [nameExist_roster hone hhead, hlive]
    exact ⟨a, mem_singleton_self a, hname⟩
  have hlong : (longName ++ lit "2").length = 129 := by
    rw [length_append, longName, length_replicate]
    rfl
  have hfree : nameExist (rosterText [⟨a, true⟩]) (longName ++ lit "2") = false := by
    rw [Bool.eq_false_iff]
    intro hexist
    have hhead' : ¬ ((longName ++ lit "2").headD 0 = 0 ∨ (longName ++ lit "2").headD 0 = chr '\r' ∨
        (longName ++ lit "2").headD 0 = chr '\n') := hhead
    obtain ⟨b, hb, heq⟩ := (nameExist_roster hone hhead').mp hexist
    rw [hlive, mem_singleton] at hb
    rw [hb, hname] at heq
    rw [← heq, longName, length_replicate] at hlong
    exact absurd hlong (by decide)
  have hnoip : ipExist (rosterText [⟨a, true⟩]) (requestOf longName).srcip = none := by
    rw [ipExist_roster hone hplain, hlive]
    intro b hb
    rw [mem_singleton.mp hb, hip]
    decide
  obtain ⟨a₂, hnew₂⟩ : ∃ a₂, newAgent .plain sampleEnv.max_agents (rosterText [⟨a, true⟩])
      (longName ++ lit "2") none none (requestOf longName).random_data = some a₂ := by
    obtain ⟨id, hid'⟩ := exists_freeId hone max_sampleEnv (show 1 < sampleEnv.max_agents by decide)
      (by
        intro s hs heq
        rw [mem_singleton.mp hs, hid] at heq
        exact absurd (fmtU_injective heq) (by decide))
    have hroom : ¬ ((liveAgents [⟨a, true⟩]).length + 3 ≥ sampleEnv.max_agents) :=
      show ¬ (1 + 3 ≥ 256) by decide
    rw [newAgent, countAgents_roster hone, if_neg hroom, none_or, hid']
    exact ⟨_, rfl⟩
  obtain ⟨⟨hidlen, hnum, -⟩, -, hname₂, hip₂, hkey, hkeylen⟩ :=
    newAgent_fields hone max_sampleEnv hnew₂
  have hfield₂ : Field (longName ++ lit "2") := by
    refine ⟨?_, ?_, fun b hb => ?_⟩
    · rw [mem_append, not_or]
      exact ⟨hfield.blank, by decide⟩
    · rw [mem_append, not_or]
      exact ⟨hfield.newline, by decide⟩
    · exact (mem_append.mp hb).elim (hfield.zero b)
        (forall_mem_of_all (P := (· ≠ 0)) (by decide) b)
  have hid₂ : Field a₂.id := by
    obtain ⟨i, -, hi⟩ := hnum
    rw [hi]
    exact field_fmtU _
  have hprint : snprintf 2048 (AddAgent.text a₂) = AddAgent.text a₂ := by
    rw [snprintf, take_of_length_le]
    have htext := length_text a₂
    have hipLen : (lit "any").length = 3 := rfl
    rw [hname₂, hlong, hip₂, getD_none] at htext
    omega
  have hsecond : (authConnectionWorker .plain sampleEnv sampleConfig (rosterText [⟨a, true⟩])
      (requestOf longName)).2 =
        rosterText [⟨a, true⟩] ++ (AddAgent.text a₂ ++ [chr '\n']) := by
    rw [authConnectionWorker_of hparse osIsValidName_longName
      (uniqueName_of_taken osIsValidName_longName htaken hfree) hnoip rfl, osAddNewAgent, hnew₂]
    dsimp only
    rw [hprint]
  have hnl : chr '\n' ∉ AddAgent.text a₂ := by
    have hblank : chr '\n' ≠ chr ' ' := by decide
    simp only [AddAgent.text, mem_append, mem_cons, not_or]
    rw [hname₂, hip₂]
    exact ⟨hid₂.newline, hblank, hfield₂.newline, hblank,
      hany.newline, hblank, (field_of_isXDigit hkey).newline⟩
  have hrest : rest (chr '\n') (rosterText [⟨a, true⟩]) = [] := by
    rw [rosterText, rest_unlines]
    intro l hl
    rw [map_singleton, mem_singleton] at hl
    rw [hl]
    exact newline_notMem_line (s := ⟨a, true⟩) hsound
  have hrun : Run (Step .plain sampleEnv sampleConfig) []
      [requestOf longName, requestOf longName]
      (rosterText [⟨a, true⟩] ++ (AddAgent.text a₂ ++ [chr '\n'])) :=
    .cons ⟨hfirst.symm, hformed⟩ (.cons ⟨hsecond.symm, hformed⟩ (.nil _))
  have haccepted := h .plain sampleEnv sampleConfig _ _ documented_sampleEnv max_sampleEnv hrun
    (AddAgent.text a₂) (by
      rw [Tail.frames_line hrest hnl]
      exact mem_append_right _ mem_cons_self)
  -- the name of the second one is too long
  have hdigits : osIsValidID a₂.id = true := by
    obtain ⟨i, -, hi⟩ := hnum
    rw [osIsValidID, Bool.and_eq_true, decide_eq_true_iff, List.all_eq_true]
    refine And.intro (by omega) fun b hb => ?_
    rw [hi] at hb
    exact isDigit_of_mem_fmtU hb
  have hname' : Field a₂.name := hname₂ ▸ hfield₂
  have hip' : Field a₂.ip := hip₂ ▸ hany
  have hne : a₂.name ≠ [] := by
    intro hnil
    rw [← hname₂, hnil] at hlong
    exact absurd hlong (by decide)
  rw [osIsValidAgentKey_text hdigits hid₂ hname' hne hip' (by rw [hip₂]; decide) (.inl hip₂) hkey
    hkeylen] at haccepted
  obtain ⟨-, -, hshort, -⟩ := field_of_osIsValidName haccepted
  rw [hname₂, hlong] at hshort
  exact absurd hshort (by decide)

end OsAuth
