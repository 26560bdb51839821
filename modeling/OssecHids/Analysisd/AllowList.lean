import OssecHids.Analysisd.Exec
import OssecHids.Shared.IPFound

/-!
# The allow lists of active responses

The contents of the elements `allow_list` are addresses and networks, or else names of hosts.
`OS_Exec` looks for the source of an event in both lists before it sends a request.

- `suppressed_iff`: when the lists keep a response from being executed;
- `osExec_of_suppressed`, `osExec_of_not_suppressed`: what that means for the request;
- `Exec.Allowed`: the source is in a list;
- `allowLaw_iff`: when the lists keep back the responses to these sources, and no others.
-/

open CString Execd ValidateOp List Option

namespace Exec

/-! ## The lists -/

/-- `Config.allow_list`, from the contents of the elements. -/
def allowList (inet : Inet) (contents : List CStr) : List OsIp :=
  contents.filterMap fun content => (ValidateOp.osIsValidIP inet content.1).map Prod.snd

/-- `Config.hostname_allow_list`, from the contents of the elements. -/
def hostnameAllowList (inet : Inet) (contents : List CStr) : List CStr :=
  contents.filter fun content => (ValidateOp.osIsValidIP inet content.1).isNone

/-- The configuration with the lists that the elements stand for. -/
def Config.withLists (config : Config) (inet : Inet) (contents : List CStr) : Config :=
  { config with
    allow_list := fun ip => osIPFoundList inet ip (allowList inet contents)
    hostname_allow_list := hostnameAllowList inet contents }

/-- The configuration without lists. -/
def Config.unlisted (config : Config) : Config :=
  { config with allow_list := fun _ => false, hostname_allow_list := [] }

/-- The lists keep the response from being executed. -/
def Config.Suppressed (config : Config) (lf : Eventinfo) (ar : ActiveResponse) : Prop :=
  config.ip lf ar = none ∧ config.unlisted.ip lf ar ≠ none

/-- The source that a response is executed for. -/
def Eventinfo.source (lf : Eventinfo) (ar : ActiveResponse) : Option Bytes :=
  lf.srcip.bind fun srcip =>
    if hasFlag ar.expect SRCIP ∧ arSafeArgument (cleanIp srcip.1) then some (cleanIp srcip.1)
    else none

variable {inet : Inet} {contents : List CStr} {config : Config} {lf : Eventinfo}
  {ar : ActiveResponse} {ip wl : Bytes}

theorem arSafeArgument_of_source (h : lf.source ar = some ip) : arSafeArgument ip := by
  obtain ⟨srcip, -, hif⟩ := bind_eq_some_iff.mp h
  split at hif
  case isTrue hsafe =>
    cases hif
    exact hsafe.2
  case isFalse => exact nomatch hif

/-- The source is in one of the lists, as `OS_Exec` looks for it. -/
def Config.Listed (config : Config) (ip : Bytes) : Prop :=
  config.allow_list ip = true ∨ ∃ wl ∈ config.hostname_allow_list, ip <+: wl.1

theorem ip_of_source (h : lf.source ar = some ip) :
    (config.Listed ip → config.ip lf ar = none) ∧
      (¬ config.Listed ip → config.ip lf ar = some ip) := by
  have hz : ∀ b ∈ ip, b ≠ 0 :=
    ne_zero_of_isSafe (isSafe_of_arSafeArgument (arSafeArgument_of_source h))
  obtain ⟨srcip, hsrcip, hif⟩ := bind_eq_some_iff.mp h
  split at hif
  case isFalse => exact nomatch hif
  case isTrue hsafe =>
    cases hif
    have hany : (config.hostname_allow_list.any fun wl =>
        strncmpEq (cleanIp srcip.1).length wl.1 (cleanIp srcip.1)) = true ↔
        ∃ wl ∈ config.hostname_allow_list, cleanIp srcip.1 <+: wl.1 := by
      simp only [List.any_eq_true, strncmpEq_comm _ _ (cleanIp srcip.1), strncmpEq_iff_isPrefix hz]
    rw [Config.ip, hsrcip]
    dsimp only
    rw [if_neg (by simp [hsafe.1]), if_neg (by simp [hsafe.2]), Config.Listed, ← hany]
    constructor
    · rintro (hip | hhost)
      · rw [if_pos hip]
      · rw [if_pos hhost, ite_self]
    · intro hnot
      obtain ⟨hip, hhost⟩ := not_or.mp hnot
      rw [if_neg hip, if_neg hhost]

/-- Without a source that a response is executed for, the lists are not looked at. -/
theorem ip_of_source_none (h : lf.source ar = none) :
    config.ip lf ar = config.unlisted.ip lf ar := by
  rw [Config.ip, Config.ip]
  rw [Eventinfo.source] at h
  cases hsrcip : lf.srcip with
  | none => rfl
  | some srcip =>
    rw [hsrcip, bind_some] at h
    split at h
    case isTrue => cases h
    case isFalse hunsafe =>
      by_cases hflag : hasFlag ar.expect SRCIP = true
      · have hsafe : arSafeArgument (cleanIp srcip.1) = false :=
          Bool.eq_false_iff.mpr fun hsafe => hunsafe ⟨hflag, hsafe⟩
        simp [hflag, hsafe]
      · simp [hflag]

theorem not_listed_unlisted : ¬ config.unlisted.Listed ip := by
  rintro (h | ⟨wl, h, -⟩)
  · exact Bool.false_ne_true h
  · cases h

theorem suppressed_iff (config : Config) (lf : Eventinfo) (ar : ActiveResponse) :
    config.Suppressed lf ar ↔ ∃ ip, lf.source ar = some ip ∧ config.Listed ip := by
  constructor
  · rintro ⟨hnone, hsome⟩
    cases hsource : lf.source ar with
    | none => exact absurd (ip_of_source_none hsource ▸ hnone) hsome
    | some ip =>
      refine ⟨ip, rfl, ?_⟩
      by_contra hlisted
      rw [(ip_of_source hsource).2 hlisted] at hnone
      exact nomatch hnone
  · rintro ⟨ip, hsource, hlisted⟩
    refine ⟨(ip_of_source hsource).1 hlisted, ?_⟩
    rw [(ip_of_source hsource).2 not_listed_unlisted]
    exact some_ne_none ip

/-! ## The law -/

/-- The source is an address that the entries let in, or the name of a host in the list. -/
def Allowed (inet : Inet) (contents : List CStr) (ip : Bytes) : Prop :=
  ((osPtonSockaddr inet ip).isSome ∧ Admits inet ip (allowList inet contents)) ∨
    ∃ wl ∈ hostnameAllowList inet contents, wl.1 = ip

/-- The lists keep back the responses to the sources that are allowed, and no others. -/
def AllowLaw (inet : Inet) (contents : List CStr) (config : Config) (lf : Eventinfo)
    (ar : ActiveResponse) : Prop :=
  (config.withLists inet contents).Suppressed lf ar ↔
    ∃ ip, lf.source ar = some ip ∧ Allowed inet contents ip

/-- The source is the name of a host in the list. If it is the beginning of such a name only, the
entries let it in. Otherwise, no entry decides in the place of another, and the word `any` meets no
entry that lets the unspecified address in. -/
def Told (inet : Inet) (contents : List CStr) (ip : Bytes) : Prop :=
  (∃ wl ∈ hostnameAllowList inet contents, wl.1 = ip) ∨
  if ∃ wl ∈ hostnameAllowList inet contents, ip <+: wl.1 then
    (osPtonSockaddr inet ip).isSome ∧ Admits inet ip (allowList inet contents)
  else if ip = lit "any" then osIPFoundList inet (lit "::") (allowList inet contents) = false
  else (osPtonSockaddr inet ip).isSome → Decided inet ip (allowList inet contents)

/-- A source with safe characters is no network, and it is not negated. -/
theorem isSome_osIsValidIP (hsafe : arSafeArgument ip) (hany : ip ≠ lit "any") :
    (ValidateOp.osIsValidIP inet ip).isSome = (osPtonSockaddr inet ip).isSome := by
  have hchars := isSafe_of_arSafeArgument hsafe
  have hslash : chr '/' ∉ ip := fun hmem => absurd (hchars _ hmem) (by decide)
  have hunnegated : unnegated ip = ip := by
    rw [unnegated, if_neg]
    intro hhead
    cases ip with
    | nil => cases hhead
    | cons b ip =>
      have hb := hchars b mem_cons_self
      rw [headD_cons] at hhead
      rw [hhead] at hb
      cases hb
  have hparts : addressParts ip = some (ip, -1) := by
    rw [addressParts, hunnegated, if_neg hany, cutAt_of_notMem hslash]
  rw [ValidateOp.osIsValidIP, hparts, bind_some]
  dsimp only
  cases osPtonSockaddr inet ip <;> rfl

theorem osIPFoundList_any (hdoc : Documented inet) (l : List OsIp) :
    osIPFoundList inet (lit "any") l = osIPFoundList inet (lit "::") l := by
  have hfound : ∀ ip cidr, addressParts ip = some (lit "::", cidr) → cidr ≤ 0 →
      osIPFoundList inet ip l = foundListLoop (.inet6 0) true l := by
    intro ip cidr hparts hcidr
    rw [osIPFoundList, ValidateOp.osIsValidIP, hparts, bind_some]
    dsimp only
    rw [hdoc.unspecified, bind_some]
    cases hprefix : prefixOf (.inet6 0) cidr with
    | none => exact absurd (prefixOf_eq_none.mp hprefix) (by rw [width]; omega)
    | some n => rfl
  rw [hfound (lit "any") 0 rfl (Int.le_refl 0), hfound (lit "::") (-1) rfl (by decide)]

/-- When the answer of the entries is the right one, for a source that no name of a host begins
with. -/
theorem found_iff_told (hdoc : Documented inet) (hsafe : arSafeArgument ip) (l : List OsIp) :
    (osIPFoundList inet ip l = true ↔ (osPtonSockaddr inet ip).isSome ∧ Admits inet ip l) ↔
      if ip = lit "any" then osIPFoundList inet (lit "::") l = false
      else (osPtonSockaddr inet ip).isSome → Decided inet ip l := by
  by_cases hany : ip = lit "any"
  · rw [if_pos hany, hany, osIPFoundList_any hdoc, hdoc.any]
    simp
  · rw [if_neg hany, ← isSome_osIsValidIP hsafe hany]
    cases hvalid : ValidateOp.osIsValidIP inet ip with
    | none =>
      have hcode : osIPFoundList inet ip l = false := by rw [osIPFoundList, hvalid]
      simp [hcode]
    | some parts =>
      have hdecided : (osIPFoundList inet ip l = true ↔ Admits inet ip l) ↔ Decided inet ip l :=
        @admits_iff_decided_of_valid inet ip l parts.1 parts.2 hvalid
      simpa using hdecided

theorem listed_iff_allowed (hdoc : Documented inet) (hsafe : arSafeArgument ip) :
    ((config.withLists inet contents).Listed ip ↔ Allowed inet contents ip) ↔
      Told inet contents ip := by
  have hlisted : (config.withLists inet contents).Listed ip ↔
      osIPFoundList inet ip (allowList inet contents) = true ∨
        ∃ wl ∈ hostnameAllowList inet contents, ip <+: wl.1 := Iff.rfl
  rw [hlisted, Allowed, Told]
  by_cases hname : ∃ wl ∈ hostnameAllowList inet contents, wl.1 = ip
  · -- a name is a beginning of itself
    have hbegin : ∃ wl ∈ hostnameAllowList inet contents, ip <+: wl.1 := by
      obtain ⟨wl, hwl, rfl⟩ := hname
      exact ⟨wl, hwl, prefix_rfl⟩
    exact iff_of_true (iff_of_true (.inr hbegin) (.inr hname)) (.inl hname)
  · rw [or_iff_left hname, or_iff_right hname]
    by_cases hbegin : ∃ wl ∈ hostnameAllowList inet contents, ip <+: wl.1
    · rw [if_pos hbegin]
      exact ⟨fun h => h.mp (.inr hbegin), fun h => iff_of_true (.inr hbegin) h⟩
    · rw [if_neg hbegin, or_iff_left hbegin]
      exact found_iff_told hdoc hsafe _

/-- For every list of elements, every event and every response, the lists keep back the responses to
the sources that are allowed if and only if the source is told apart from the others. -/
theorem allowLaw_iff (hdoc : Documented inet) (contents : List CStr) (config : Config)
    (lf : Eventinfo) (ar : ActiveResponse) :
    AllowLaw inet contents config lf ar ↔
      ∀ ip, lf.source ar = some ip → Told inet contents ip := by
  rw [AllowLaw, suppressed_iff]
  cases hsource : lf.source ar with
  | none => simp
  | some ip =>
    have hsafe := arSafeArgument_of_source hsource
    simpa using @listed_iff_allowed inet contents config ip hdoc hsafe

/-- A response that expects a source. -/
def firewallDrop : ActiveResponse where
  name := ⟨lit "firewall-drop600", by decide⟩
  location := AS_ONLY
  agent_id := none
  expect := SRCIP

/-- An event with a source. -/
def sshEvent (srcip : CStr) : Eventinfo where
  srcip := some srcip
  dstuser := none
  srcuser := none
  filename := none
  location := ⟨lit "host->/var/log/auth.log", by decide⟩
  time := 1700000000
  alert_id := 42
  sigid := 5712

/-- A server without lists. -/
def openServer : Config where
  ar := LOCAL_AR
  allow_list _ := false
  hostname_allow_list := []
  crt_ftell := 0

/-- The beginning of a name that is allowed keeps the response back. -/
theorem not_allowLaw :
    ¬ AllowLaw inetTen [⟨lit "admin.example.com", by decide⟩] openServer
      (sshEvent ⟨lit "admin", by decide⟩) firewallDrop := by
  intro h
  have hsuppressed : (openServer.withLists inetTen [⟨lit "admin.example.com", by decide⟩]).ip
      (sshEvent ⟨lit "admin", by decide⟩) firewallDrop = none := by decide
  obtain ⟨ip, hsource, hallowed⟩ := h.mp ⟨hsuppressed, by decide⟩
  obtain rfl : lit "admin" = ip := some.inj hsource
  rcases hallowed with ⟨haddress, -⟩ | ⟨wl, hwl, hname⟩
  · exact absurd haddress (by decide)
  · have hhost : wl = ⟨lit "admin.example.com", by decide⟩ :=
      mem_singleton.mp (mem_of_mem_filter hwl)
    rw [hhost] at hname
    exact absurd hname (by decide)

/-- An address in a list with a network and a name. -/
theorem allowLaw_iff_ten :
    AllowLaw inetTen [⟨lit "10.0.0.1/24", by decide⟩, ⟨lit "admin.example.com", by decide⟩]
        openServer (sshEvent ⟨lit "10.0.0.1", by decide⟩) firewallDrop ↔
      ∀ ip, (sshEvent ⟨lit "10.0.0.1", by decide⟩).source firewallDrop = some ip →
        Told inetTen [⟨lit "10.0.0.1/24", by decide⟩, ⟨lit "admin.example.com", by decide⟩] ip :=
  allowLaw_iff documented_inetTen _ _ _ _

end Exec
