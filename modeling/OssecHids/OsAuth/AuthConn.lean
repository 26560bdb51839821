import OssecHids.AddAgent.KeysFile

/-!
# Enrollment

`auth_connection_worker` takes the request of an agent, makes its name one that no other agent has,
and appends a line to the keys file. What it does with the file is done under a lock.

- `parseRequest`: the name that is asked for;
- `uniqueName`: the name that is given;
- `authConnectionWorker`: the line that is sent back, and the file;
- `request_of_parseRequest`: only requests with the password and a name are taken.
-/

open CString AddAgent List Option

namespace OsAuth

/-- What `ossec-authd` was started with. -/
structure AuthConfig where
  authpass : Option Bytes
  use_ip_address : Bool
  /-- The password is a C string. -/
  authpass_ne_zero : ∀ pass ∈ authpass, ∀ b ∈ pass, b ≠ 0

/-- A request: the address that it comes from, as text, the bytes that are read, and the random
bytes for its key, if there are any. -/
structure Request where
  srcip : Bytes
  received : Bytes
  random_data : Option Bytes

/-- The request behind the password. -/
def checkPass (authpass : Option Bytes) (tmpstr : Bytes) : Option Bytes :=
  match authpass with
  | none => some tmpstr
  | some authpass =>
    if strncmpEq 12 tmpstr (lit "OSSEC PASS: ") then
      let tmpstr := tmpstr.drop 12
      if tmpstr.length > authpass.length ∧ strncmpEq authpass.length tmpstr authpass then
        let tmpstr := tmpstr.drop authpass.length
        if tmpstr.headD 0 = chr ' ' then some (tmpstr.drop 1) else none
      else none
    else none

/-- The name in a request; the buffer has room for 4096 bytes and a zero byte. -/
def parseRequest (authpass : Option Bytes) (received : Bytes) : Option Bytes :=
  (checkPass authpass (str (received.take 4096))).bind fun tmpstr =>
    if strncmpEq 9 tmpstr (lit "OSSEC A:'") then (cutAt (chr '\'') (tmpstr.drop 9)).map Prod.fst
    else none

/-- The loop that appends a number to the name as long as there is an agent with it. -/
def uniqueLoop (content agentname : Bytes) : ℕ → ℕ → Bytes → Option Bytes
  | 0, _, _ => none
  | fuel + 1, acount, fname =>
    if nameExist content fname then
      let fname := snprintf 2048 (agentname ++ fmtD acount)
      let acount := acount + 1
      if acount > 256 then none else uniqueLoop content agentname fuel acount fname
    else some fname

/-- The name that an agent is given. -/
def uniqueName (content agentname : Bytes) : Option Bytes :=
  uniqueLoop content agentname 256 2 (strncpy 2048 agentname)

/-- `auth_connection_worker`, from the request on: the line of the key, if there is one, and the
keys file. -/
def authConnectionWorker (P : Crypto) (env : KeysEnv) (cfg : AuthConfig) (content : Bytes)
    (req : Request) : Option Bytes × Bytes :=
  match parseRequest cfg.authpass req.received with
  | none => (none, content)
  | some agentname =>
    if !osIsValidName agentname then (none, content)
    else
      match uniqueName content agentname with
      | none => (none, content)
      | some fname =>
        match ipExist content req.srcip with
        | some _ => (none, content)
        | none =>
          osAddNewAgent P env.max_agents content fname
            (if cfg.use_ip_address then some req.srcip else none) none req.random_data

/-- What is sent back with a key. -/
def keyResponse (finalkey : Bytes) : Bytes :=
  snprintf 2048 (lit "OSSEC K:'" ++ (finalkey ++ lit "'\n\n"))

/-! ## Requests -/

/-- What stands in front of a request when there is a password. -/
def passText : Option Bytes → Bytes
  | none => []
  | some pass => lit "OSSEC PASS: " ++ (pass ++ [chr ' '])

/-- A request that begins with the password and a valid name. -/
def WellFormed (authpass : Option Bytes) (received : Bytes) : Prop :=
  ∃ name rest, received =
      passText authpass ++ (lit "OSSEC A:'" ++ (name ++ chr '\'' :: rest)) ∧
    osIsValidName name = true

variable {cfg : AuthConfig} {content name fname received s t : Bytes}

theorem append_of_checkPass (h : checkPass cfg.authpass s = some t) :
    s = passText cfg.authpass ++ t := by
  have hpass := cfg.authpass_ne_zero
  cases hauth : cfg.authpass with
  | none =>
    rw [hauth] at h
    exact some.inj h
  | some pass =>
    rw [hauth, checkPass] at h
    dsimp only at h
    split_ifs at h with hstart hpassword hblank
    have htext : s = lit "OSSEC PASS: " ++ s.drop 12 :=
      append_of_strncmpEq (forall_mem_of_all (P := (· ≠ 0)) (by decide)) hstart
    have hword := append_of_strncmpEq (hpass pass hauth) hpassword.2
    cases h
    -- the blank behind the password
    have hrest : (s.drop 12).drop pass.length =
        chr ' ' :: ((s.drop 12).drop pass.length).drop 1 := by
      cases hdrop : (s.drop 12).drop pass.length with
      | nil =>
        rw [hdrop] at hblank
        cases hblank
      | cons b rest =>
        rw [hdrop] at hblank
        obtain rfl : b = chr ' ' := hblank
        rfl
    rw [hrest] at hword
    rw [passText, append_assoc, append_assoc, singleton_append, ← hword]
    exact htext

theorem str_isPrefix (s : Bytes) : str s <+: s := List.takeWhile_prefix _

/-- **Only well-formed requests** are taken, and their names. -/
theorem request_of_parseRequest (h : parseRequest cfg.authpass received = some name) :
    ∃ rest, received =
      passText cfg.authpass ++ (lit "OSSEC A:'" ++ (name ++ chr '\'' :: rest)) := by
  obtain ⟨tmpstr, hpass, h⟩ := bind_eq_some_iff.mp h
  split_ifs at h with hstart
  obtain ⟨⟨name', rest⟩, hcut, rfl⟩ := map_eq_some_iff.mp h
  have htext : tmpstr = lit "OSSEC A:'" ++ tmpstr.drop 9 :=
    append_of_strncmpEq (forall_mem_of_all (P := (· ≠ 0)) (by decide)) hstart
  obtain ⟨hname, -⟩ := exists_of_cutAt_eq_some hcut
  -- what is read as a string is the beginning of the request
  obtain ⟨more, hmore⟩ := (str_isPrefix (received.take 4096)).trans (List.take_prefix ..)
  refine ⟨rest ++ more, ?_⟩
  rw [hname] at htext
  rw [← hmore, append_of_checkPass hpass, htext]
  simp only [append_assoc, cons_append]

/-- The name that is given is the first one that no agent has. -/
theorem uniqueLoop_spec {fuel acount : ℕ} {agentname : Bytes}
    (hlen : agentname.length ≤ 128) (hacount : 2 ≤ acount)
    (h : uniqueLoop content agentname fuel acount fname = some name) :
    name = fname ∧ nameExist content fname = false ∨
      nameExist content fname = true ∧ ∃ k : ℕ, acount ≤ k ∧ k ≤ 255 ∧
        name = agentname ++ fmtD k ∧ nameExist content name = false ∧
          ∀ j : ℕ, acount ≤ j → j < k → nameExist content (agentname ++ fmtD j) = true := by
  induction fuel generalizing acount fname with
  | zero => cases h
  | succ fuel ih =>
    rw [uniqueLoop] at h
    dsimp only at h
    split_ifs at h with hexist hmany
    · -- the next number, for which the name is not cut
      have hdigits : (fmtD acount).length ≤ 3 := by
        exact length_fmtU_le (by decide) (by omega)
      have hsame : snprintf 2048 (agentname ++ fmtD acount) = agentname ++ fmtD acount := by
        rw [snprintf, take_of_length_le]
        rw [length_append]
        omega
      rw [hsame] at h
      obtain ⟨rfl, hfree⟩ | ⟨htaken, k, hk, hle, rfl, hfree, hbelow⟩ := ih (by omega) h
      · exact .inr ⟨hexist, acount, le_rfl, by omega, rfl, hfree, fun j hj hlt => by omega⟩
      · refine .inr ⟨hexist, k, by omega, hle, rfl, hfree, fun j hj hlt => ?_⟩
        by_cases heq : j = acount
        case pos => rwa [heq]
        case neg => exact hbelow j (by omega) hlt
    · cases h
      exact .inl ⟨rfl, by rwa [Bool.not_eq_true] at hexist⟩

theorem uniqueName_spec (hname : osIsValidName name = true)
    (h : uniqueName content name = some fname) :
    nameExist content fname = false ∧
      (fname = name ∨ nameExist content name = true ∧ ∃ k : ℕ, 2 ≤ k ∧ k ≤ 255 ∧
        fname = name ++ fmtD k ∧
          ∀ j : ℕ, 2 ≤ j → j < k → nameExist content (name ++ fmtD j) = true) := by
  obtain ⟨hfield, -, hlen, -⟩ := field_of_osIsValidName hname
  have hcopy : strncpy 2048 name = name := strncpy_self (by omega) hfield.zero
  rw [uniqueName, hcopy] at h
  obtain ⟨rfl, hfree⟩ | ⟨htaken, k, hk, hle, hfname, hfree, hbelow⟩ :=
    uniqueLoop_spec hlen le_rfl h
  · exact ⟨hfree, .inl rfl⟩
  · exact ⟨hfree, .inr ⟨htaken, k, hk, hle, hfname, hbelow⟩⟩

/-! ## Keys -/

theorem dropWhile_field {l r : Bytes} (h : Field l) (hne : l ≠ []) :
    (l ++ r).dropWhile (· == chr ' ') = l ++ r := by
  obtain ⟨b, l, rfl⟩ := exists_cons_of_ne_nil hne
  refine dropWhile_cons_of_neg ?_
  rw [beq_iff_eq]
  exact fun hb => h.blank (hb ▸ mem_cons_self)

/-- The line of an agent is accepted exactly when its name is. -/
theorem osIsValidAgentKey_text {env : KeysEnv} {a : KeyLine} (hid : osIsValidID a.id = true)
    (hid' : Field a.id) (hname : Field a.name) (hname' : a.name ≠ []) (hip : Field a.ip)
    (hip' : a.ip ≠ []) (hvalid : a.ip = lit "any" ∨ osIsValidIP env a.ip = 1)
    (hkey : ∀ b ∈ a.key, isXDigit b = true) (hlen : a.key.length = 64) :
    osIsValidAgentKey env (text a) = osIsValidName a.name := by
  have hfield := field_of_isXDigit hkey
  have hkey' : a.key ≠ [] := ne_nil_of_length_pos (by omega)
  have hhash : osIsValidAgentKeyHash a.key = true := by
    rw [osIsValidAgentKeyHash, hlen, Bool.and_eq_true, List.all_eq_true]
    exact ⟨rfl, hkey⟩
  have hend : ¬ (a.key.headD 0 = 0 ∨ (strchr (chr ' ') a.key).isSome = true) := by
    rw [not_or]
    constructor
    · obtain ⟨b, t, ht⟩ := exists_cons_of_ne_nil hkey'
      rw [ht]
      exact hfield.zero b (ht ▸ mem_cons_self)
    · intro hsome
      obtain ⟨p, hp⟩ := isSome_iff_exists.mp hsome
      obtain ⟨l, r, hl, -, -⟩ := exists_of_strchr_eq_some hp
      exact hfield.blank (hl ▸ mem_append_right _ mem_cons_self)
  have haddress : ¬ (a.ip ≠ lit "any" ∧ osIsValidIP env a.ip ≠ 1) := fun h =>
    hvalid.elim h.1 h.2
  rw [text, osIsValidAgentKey, cutAt_append hid'.blank hid'.zero]
  dsimp only
  rw [dropWhile_field hname hname', cutAt_append hname.blank hname.zero]
  dsimp only
  rw [dropWhile_field hip hip', cutAt_append hip.blank hip.zero]
  dsimp only
  have hdrop := dropWhile_field (r := []) hfield hkey'
  rw [append_nil] at hdrop
  rw [hdrop, if_neg hend, hid, Bool.true_and, if_neg haddress, hhash]
  cases osIsValidName a.name
  · rfl
  · rfl


end OsAuth
