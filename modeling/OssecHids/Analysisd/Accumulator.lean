import OssecHids.Lib.Trace
import OssecHids.Lib.Words
import OssecHids.Shared.HashSweep

/-!
# The accumulator

`accumulator.c`: an event gets the fields that it lacks from earlier events with the same id, which
are kept for two minutes.

- `Kept.accumulate`: where the fields of the stored entries come from;
- `accumulateCleanUpStore_spec`: what a clean-up leaves;
- `accumulate_law`: what an event gets, and what is cleaned up.
-/

open CString OSHash Transition Words List Option

namespace Accumulate

/-! ## Events -/

def OS_ACM_EXPIRE_ELM : ℤ := 120
def OS_ACM_PURGE_INTERVAL : ℤ := 300
def OS_ACM_PURGE_COUNT : ℕ := 200
def OS_ACM_MAXKEY : ℕ := 640
def OS_ACM_MAXELM : ℕ := 81

/-- The fields that are accumulated. -/
structure Details where
  dstuser : Option Bytes := none
  srcuser : Option Bytes := none
  dstip : Option Bytes := none
  srcip : Option Bytes := none
  dstport : Option Bytes := none
  srcport : Option Bytes := none
  data : Option Bytes := none
  deriving DecidableEq, Repr

/-- `OSDecoderInfo` -/
structure OSDecoderInfo where
  name : Option Bytes
  deriving DecidableEq, Repr

structure Eventinfo extends Details where
  id : Option Bytes
  decoder_info : Option OSDecoderInfo
  agent_name : Option Bytes := none
  hostname : Option Bytes := none
  deriving DecidableEq, Repr

structure OS_ACM_Store extends Details where
  timestamp : ℤ
  deriving DecidableEq, Repr

/-- `InitACMStore` -/
def initACMStore : OS_ACM_Store := { timestamp := 0 }

/-- `acm_str_replace`: what `dst` is afterwards. -/
def acmStrReplace (dst src : Option Bytes) : Option Bytes :=
  match src with
  | none => dst
  | some s =>
    if dst.getD [] ≠ [] then dst
    else if s.length ≤ 0 ∨ s.length > OS_ACM_MAXELM - 1 then dst
    else some s

/-- `acm_str_replace` of one field after the other. -/
def Details.replace (dst src : Details) : Details where
  dstuser := acmStrReplace dst.dstuser src.dstuser
  srcuser := acmStrReplace dst.srcuser src.srcuser
  dstip := acmStrReplace dst.dstip src.dstip
  srcip := acmStrReplace dst.srcip src.srcip
  dstport := acmStrReplace dst.dstport src.dstport
  srcport := acmStrReplace dst.srcport src.srcport
  data := acmStrReplace dst.data src.data

/-- The names of the fields. -/
inductive Field
  | dstuser | srcuser | dstip | srcip | dstport | srcport | data

def Details.get (d : Details) : Field → Option Bytes
  | .dstuser => d.dstuser
  | .srcuser => d.srcuser
  | .dstip => d.dstip
  | .srcip => d.srcip
  | .dstport => d.dstport
  | .srcport => d.srcport
  | .data => d.data

/-- The name of the decoder and the id, without which there is nothing to do. -/
def Eventinfo.named (lf : Eventinfo) : Option (Bytes × Bytes) :=
  lf.id.bind fun id => (lf.decoder_info.bind fun d => d.name).map fun name => (name, id)

/-- The key of an event, unless it is too long. -/
def acmKey (lf : Eventinfo) (name id : Bytes) : Option Bytes :=
  let _key := [chr ' '].intercalate [lf.agent_name.getD [], lf.hostname.getD [], name, id]
  if _key.length ≥ OS_ACM_MAXKEY then none else some _key

/-! ## The store -/

/-- The variables of one store. -/
structure State where
  store : OSHash OS_ACM_Store
  lookups : ℕ
  purge_ts : ℤ

/-- `Accumulate_CreateStore` -/
def accumulateCreateStore (secret secret' : Option (UInt32 × UInt32)) :
    Option (OSHash OS_ACM_Store) :=
  (OSHash.create secret).bind fun store => store.setSize 2048 secret'

/-- `Accumulate_CleanUp_Store` -/
def accumulateCleanUpStore (s : State) (current_ts : ℤ) : State :=
  let lookups := s.lookups + 1
  if lookups < OS_ACM_PURGE_COUNT ∧ s.purge_ts < current_ts + OS_ACM_PURGE_INTERVAL then
    { s with lookups := lookups }
  else
    { store := s.store.sweep fun stored_data =>
        stored_data.timestamp < current_ts - OS_ACM_EXPIRE_ELM
      lookups := 0
      purge_ts := current_ts }

/-- The entry after an event. -/
def OS_ACM_Store.refresh (stored_data : OS_ACM_Store) (lf : Eventinfo) (current_ts : ℤ) :
    OS_ACM_Store :=
  { stored_data.toDetails.replace lf.toDetails with timestamp := current_ts }

/-- `Accumulate` behind the clean-up, with whether there is memory for a new node and its key. -/
def accumulateKey (s : State) (lf : Eventinfo) (_key : Bytes) (current_ts : ℤ)
    (calloc strdup : Bool) : Eventinfo × State :=
  match s.store.get _key with
  | some stored_data =>
    if stored_data.timestamp > 0 ∧ stored_data.timestamp < current_ts - OS_ACM_EXPIRE_ELM then
      let deleted := s.store.delete _key
      let stored_data := if deleted.1.isSome then initACMStore else stored_data
      let stored_data := stored_data.refresh lf current_ts
      (lf, { s with store := (deleted.2.add _key (some stored_data) calloc strdup).2 })
    else
      let lf := { lf with toDetails := lf.toDetails.replace stored_data.toDetails }
      let stored_data := stored_data.refresh lf current_ts
      (lf, { s with store := (s.store.update _key (some stored_data)).2 })
  | none =>
    let stored_data := initACMStore.refresh lf current_ts
    (lf, { s with store := (s.store.add _key (some stored_data) calloc strdup).2 })

/-- `Accumulate`, which reads the clock for the clean-up and then for the event. -/
def accumulate (s : State) (lf : Eventinfo) (cleanup_ts current_ts : ℤ) (calloc strdup : Bool) :
    Eventinfo × State :=
  match lf.named with
  | none => (lf, s)
  | some (name, id) =>
    let s := accumulateCleanUpStore s cleanup_ts
    match acmKey lf name id with
    | none => (lf, s)
    | some _key => accumulateKey s lf _key current_ts calloc strdup

/-! ## Runs -/

/-- A call: the event that it gets and the one that it gives back, what it reads from the clock, and
whether there is memory. -/
structure Call where
  lf : Eventinfo
  result : Eventinfo
  cleanup_ts : ℤ
  current_ts : ℤ
  calloc : Bool := true
  strdup : Bool := true

/-- A store and the time. -/
structure System where
  state : State
  now : ℤ

/-- The clock does not go back. -/
inductive Step : System → Call → System → Prop
  | call {σ : System} {c : Call} : σ.now ≤ c.cleanup_ts → c.cleanup_ts ≤ c.current_ts →
      c.result = (accumulate σ.state c.lf c.cleanup_ts c.current_ts c.calloc c.strdup).1 →
      Step σ c
        ⟨(accumulate σ.state c.lf c.cleanup_ts c.current_ts c.calloc c.strdup).2, c.current_ts⟩

/-- The agent, the host, the decoder and the id are the same. -/
structure SameSource (lf lf' : Eventinfo) : Prop where
  agent_name : lf.agent_name.getD [] = lf'.agent_name.getD []
  hostname : lf.hostname.getD [] = lf'.hostname.getD []
  named : lf.named = lf'.named

/-- A field is filled in only if it was empty, with the value that it had in an earlier event from
the same source, one of which was not longer ago than an entry is kept. -/
def Filled (calls : List Call) (c : Call) : Prop :=
  ∀ f, c.result.get f ≠ c.lf.get f → (c.lf.get f).getD [] = [] ∧
    (∃ e ∈ calls, SameSource e.lf c.lf ∧ e.lf.get f = c.result.get f) ∧
    ∃ e ∈ calls, SameSource e.lf c.lf ∧ c.current_ts - OS_ACM_EXPIRE_ELM ≤ e.current_ts

/-- A clean-up is due by count, or by time. -/
def Due (s : State) (current_ts : ℤ) : Prop :=
  OS_ACM_PURGE_COUNT ≤ s.lookups + 1 ∨ s.purge_ts + OS_ACM_PURGE_INTERVAL ≤ current_ts

/-- No entry is older than the purge age. -/
def Fresh (s : State) (current_ts : ℤ) : Prop :=
  ∀ key d, s.store.toMap key = some (some d) → current_ts - OS_ACM_EXPIRE_ELM ≤ d.timestamp

/-- A call that cleans up when it is due leaves no old entry. -/
def Purged (s : State) (c : Call) : Prop :=
  c.lf.named.isSome → Due s c.cleanup_ts → Fresh (accumulateCleanUpStore s c.cleanup_ts) c.cleanup_ts

/-- The names in front of the id are words. -/
structure IsNamed (lf : Eventinfo) : Prop where
  agent_name : chr ' ' ∉ lf.agent_name.getD []
  hostname : chr ' ' ∉ lf.hostname.getD []
  name : ∀ x ∈ lf.named, chr ' ' ∉ x.1

/-- The names of an event are words, and a clean-up that is due by time is due by count as well
unless no entry is old. -/
structure Regular (s : State) (c : Call) : Prop where
  words : IsNamed c.lf
  due : c.lf.named.isSome → s.purge_ts + OS_ACM_PURGE_INTERVAL ≤ c.cleanup_ts →
    OS_ACM_PURGE_COUNT ≤ s.lookups + 1 ∨ Fresh s c.cleanup_ts

/-- The key of an event that has one. -/
def Eventinfo.key (lf : Eventinfo) : Option Bytes := lf.named.bind fun x => acmKey lf x.1 x.2

/-! ## Fields -/

variable {s : State} {lf lf' : Eventinfo} {d : OS_ACM_Store} {f : Field} {key : Bytes}

@[simp] theorem Details.get_replace (dst src : Details) (f : Field) :
    (dst.replace src).get f = acmStrReplace (dst.get f) (src.get f) := by
  cases f <;> rfl

theorem acmStrReplace_cases (dst src : Option Bytes) :
    acmStrReplace dst src = dst ∨
      dst.getD [] = [] ∧ acmStrReplace dst src = src ∧ ∃ v, src = some v ∧ v ≠ [] := by
  cases src with
  | none => exact .inl rfl
  | some v =>
    rw [acmStrReplace]
    split_ifs with hdst hlen
    · exact .inl rfl
    · exact .inl rfl
    · right
      refine ⟨not_not.mp hdst, rfl, v, rfl, ?_⟩
      rintro rfl
      exact hlen (.inl (Nat.le_refl 0))

theorem acmStrReplace_none (dst : Option Bytes) : acmStrReplace dst none = dst := rfl

/-! ## Clean-up -/

/-- A clean-up keeps entries, and no old one when it is due by count. -/
theorem accumulateCleanUpStore_spec (hwf : s.store.WellFormed) (hrows : s.store.rows ≠ 0)
    (current_ts : ℤ) :
    (accumulateCleanUpStore s current_ts).store.WellFormed ∧
      (accumulateCleanUpStore s current_ts).store.rows ≠ 0 ∧
      (∀ key d, (accumulateCleanUpStore s current_ts).store.toMap key = some (some d) →
        s.store.toMap key = some (some d)) ∧
      (OS_ACM_PURGE_COUNT ≤ s.lookups + 1 ∨ Fresh s current_ts →
        Fresh (accumulateCleanUpStore s current_ts) current_ts) := by
  rw [accumulateCleanUpStore]
  split_ifs with hearly
  · refine ⟨hwf, hrows, fun _ _ h => h, fun hdue => ?_⟩
    rcases hdue with hdue | hfresh
    · omega
    · exact hfresh
  · obtain ⟨hwf', hsame, -⟩ := hwf.sweep_spec hrows fun stored_data =>
      stored_data.timestamp < current_ts - OS_ACM_EXPIRE_ELM
    refine ⟨hwf', by rw [hsame.rows]; exact hrows, fun _ _ h => (hwf.entry_sweep hrows h).1, ?_⟩
    intro _ key d h
    have hnot := (hwf.entry_sweep hrows h).2
    simpa using hnot

/-! ## Entries -/

/-- The fields of an entry are those of earlier events with its key. -/
def Sourced (calls : List Call) (key : Bytes) (d : Details) : Prop :=
  ∀ f v, d.get f = some v → v ≠ [] ∧ ∃ e ∈ calls, e.lf.key = some key ∧ e.lf.get f = some v

/-- A stored entry comes from earlier events. -/
structure Origin (calls : List Call) (key : Bytes) (d : OS_ACM_Store) : Prop where
  pos : 0 < d.timestamp
  refreshed : ∃ e ∈ calls, e.lf.key = some key ∧ e.current_ts = d.timestamp
  fields : Sourced calls key d.toDetails

/-- The store, after some calls. -/
structure Kept (calls : List Call) (s : State) : Prop where
  wellFormed : s.store.WellFormed
  rows : s.store.rows ≠ 0
  origin : ∀ key d, s.store.toMap key = some (some d) → Origin calls key d

variable {calls : List Call} {c : Call}

theorem Origin.concat (h : Origin calls key d) (c : Call) : Origin (calls ++ [c]) key d where
  pos := h.pos
  refreshed := by
    obtain ⟨e, he, hkey, hts⟩ := h.refreshed
    exact ⟨e, mem_append_left _ he, hkey, hts⟩
  fields := fun f v hv => by
    obtain ⟨hne, e, he, hkey, hget⟩ := h.fields f v hv
    exact ⟨hne, e, mem_append_left _ he, hkey, hget⟩

theorem Kept.concat (h : Kept calls s) (c : Call) : Kept (calls ++ [c]) s where
  wellFormed := h.wellFormed
  rows := h.rows
  origin := fun key d hd => (h.origin key d hd).concat c

/-- What is empty in an entry and not in the event comes from the event itself. -/
theorem Sourced.refresh {stored_data : OS_ACM_Store} (h : Sourced calls key stored_data.toDetails)
    (hkey : c.lf.key = some key) (hpos : 0 < c.current_ts) {lf : Eventinfo}
    (hlf : lf.toDetails = c.lf.toDetails.replace stored_data.toDetails) :
    Origin (calls ++ [c]) key (stored_data.refresh lf c.current_ts) where
  pos := hpos
  refreshed := ⟨c, mem_append_right _ mem_cons_self, hkey, rfl⟩
  fields := fun f v hv => by
    have hget : acmStrReplace (stored_data.get f) (lf.get f) = some v := by
      rw [← hv, ← Details.get_replace]
      rfl
    rcases acmStrReplace_cases (stored_data.get f) (lf.get f) with hold | ⟨hempty, hnew, w, hw, hne⟩
    · rw [hold] at hget
      obtain ⟨hne, e, he, hekey, heget⟩ := h f v hget
      exact ⟨hne, e, mem_append_left _ he, hekey, heget⟩
    · have hnone : stored_data.get f = none := by
        cases hstored : stored_data.get f with
        | none => rfl
        | some u =>
          rw [hstored] at hempty
          exact absurd hempty (h f u hstored).1
      have hsame : lf.get f = c.lf.get f := by
        rw [hlf, Details.get_replace, hnone, acmStrReplace_none]
      rw [hnew, hw] at hget
      cases hget
      exact ⟨hne, c, mem_append_right _ mem_cons_self, hkey, hsame.symm.trans hw⟩

theorem sourced_initACMStore (calls : List Call) (key : Bytes) :
    Sourced calls key initACMStore.toDetails := by
  intro f v hv
  cases f <;> cases hv

theorem replace_initACMStore (d : Details) : d.replace initACMStore.toDetails = d := rfl

/-- What `Accumulate` does with an event that has a key. -/
theorem Kept.accumulateKey (h : Kept calls s) (hkey : c.lf.key = some key)
    (hpos : 0 < c.current_ts) (calloc strdup : Bool) :
    Kept (calls ++ [c]) (accumulateKey s c.lf key c.current_ts calloc strdup).2 ∧
      ∀ f, (accumulateKey s c.lf key c.current_ts calloc strdup).1.get f ≠ c.lf.get f →
        ∃ d, s.store.toMap key = some (some d) ∧
          c.current_ts - OS_ACM_EXPIRE_ELM ≤ d.timestamp ∧ (c.lf.get f).getD [] = [] ∧
          (accumulateKey s c.lf key c.current_ts calloc strdup).1.get f = d.get f ∧
          (d.get f).isSome := by
  rw [Accumulate.accumulateKey]
  cases hget : s.store.get key with
  | none =>
    refine ⟨⟨(h.wellFormed.add_spec _ _ _ _).1, ?_, ?_⟩, fun f hne => absurd rfl hne⟩
    · rw [(sameRows_add ..).rows]
      exact h.rows
    · intro k e he
      rcases h.wellFormed.entry_add he with hold | ⟨rfl, rfl⟩
      · exact (h.origin k e hold).concat c
      · exact (sourced_initACMStore calls k).refresh hkey hpos (replace_initACMStore _).symm
  | some stored_data =>
    have hentry := get_eq_some hget
    have horigin := h.origin key stored_data hentry
    dsimp only
    by_cases hexpired : stored_data.timestamp > 0 ∧
        stored_data.timestamp < c.current_ts - OS_ACM_EXPIRE_ELM
    · rw [if_pos hexpired]
      have hdeleted : (s.store.delete key).1.isSome := by
        rw [congrArg Prod.fst (h.wellFormed.delete_spec key).2, mapDelete, hentry]
        rfl
      have hwf := (h.wellFormed.delete_spec key).1
      rw [if_pos hdeleted]
      refine ⟨⟨(hwf.add_spec _ _ _ _).1, ?_, ?_⟩, fun f hne => absurd rfl hne⟩
      · rw [((sameRows_delete s.store key).trans (sameRows_add ..)).rows]
        exact h.rows
      · intro k e he
        rcases hwf.entry_add he with hold | ⟨rfl, rfl⟩
        · exact (h.origin k e (h.wellFormed.entry_delete hold)).concat c
        · exact (sourced_initACMStore calls k).refresh hkey hpos (replace_initACMStore _).symm
    · rw [if_neg hexpired]
      refine ⟨⟨(h.wellFormed.update_spec _ _).1, ?_, ?_⟩, fun f hne => ?_⟩
      · rw [(sameRows_update ..).rows]
        exact h.rows
      · intro k e he
        rcases h.wellFormed.entry_update he with hold | ⟨rfl, rfl⟩
        · exact (h.origin k e hold).concat c
        · exact horigin.fields.refresh hkey hpos rfl
      · rw [Details.get_replace] at hne ⊢
        rcases acmStrReplace_cases (c.lf.get f) (stored_data.get f) with
          hold | ⟨hempty, hnew, v, hv, -⟩
        · exact absurd hold hne
        · have hpos := horigin.pos
          exact ⟨stored_data, hentry, by omega, hempty, hnew, isSome_of_eq_some hv⟩

theorem Kept.cleanUp (h : Kept calls s) (current_ts : ℤ) :
    Kept calls (accumulateCleanUpStore s current_ts) := by
  obtain ⟨hwf, hrows, hentries, -⟩ := accumulateCleanUpStore_spec h.wellFormed h.rows current_ts
  exact ⟨hwf, hrows, fun key d hd => h.origin key d (hentries key d hd)⟩

/-- What an event gets. -/
theorem Kept.accumulate (h : Kept calls s) (hpos : 0 < c.current_ts) (calloc strdup : Bool)
    (hresult : c.result = (accumulate s c.lf c.cleanup_ts c.current_ts calloc strdup).1) :
    Kept (calls ++ [c]) (accumulate s c.lf c.cleanup_ts c.current_ts calloc strdup).2 ∧
      ∀ f, c.result.get f ≠ c.lf.get f → ∃ key d, c.lf.key = some key ∧ Origin calls key d ∧
        c.current_ts - OS_ACM_EXPIRE_ELM ≤ d.timestamp ∧ (c.lf.get f).getD [] = [] ∧
        c.result.get f = d.get f ∧ (d.get f).isSome := by
  rw [hresult, Accumulate.accumulate]
  cases hnamed : c.lf.named with
  | none => exact ⟨h.concat c, fun f hne => absurd rfl hne⟩
  | some x =>
    obtain ⟨name, id⟩ := x
    have hclean := h.cleanUp c.cleanup_ts
    dsimp only
    cases hkey : acmKey c.lf name id with
    | none => exact ⟨hclean.concat c, fun f hne => absurd rfl hne⟩
    | some key =>
      have hkey : c.lf.key = some key := by rw [Eventinfo.key, hnamed, ← hkey]; rfl
      obtain ⟨hkept, hfilled⟩ := hclean.accumulateKey hkey hpos calloc strdup
      refine ⟨hkept, fun f hne => ?_⟩
      obtain ⟨d, hd, hfrom⟩ := hfilled f hne
      exact ⟨key, d, hkey, hclean.origin key d hd, hfrom⟩

/-! ## Keys -/

theorem acmKey_eq {name id : Bytes} (h : acmKey lf name id = some key) :
    key = lf.agent_name.getD [] ++ chr ' ' :: (lf.hostname.getD [] ++ chr ' ' ::
      (name ++ chr ' ' :: id)) := by
  rw [acmKey] at h
  split_ifs at h
  rw [← some.inj h]
  simp [intercalate_cons_cons]

theorem IsNamed.sameSource (h : IsNamed lf) (h' : IsNamed lf') (hkey : lf.key = some key)
    (hkey' : lf'.key = some key) : SameSource lf lf' := by
  obtain ⟨⟨name, id⟩, hnamed, hkey⟩ := bind_eq_some_iff.mp hkey
  obtain ⟨⟨name', id'⟩, hnamed', hkey'⟩ := bind_eq_some_iff.mp hkey'
  have heq := (acmKey_eq hkey).symm.trans (acmKey_eq hkey')
  -- the first three blanks of a key are those between the names
  obtain ⟨hagent, heq⟩ := append_cons_inj h.agent_name h'.agent_name heq
  obtain ⟨hhost, heq⟩ := append_cons_inj h.hostname h'.hostname heq
  obtain ⟨hname, hid⟩ := append_cons_inj (h.name _ hnamed) (h'.name _ hnamed') heq
  exact ⟨hagent, hhost, by rw [hnamed, hnamed', Prod.ext hname hid]⟩

/-! ## Runs -/

/-- A step of a regular call. -/
def RegularStep (σ : System) (c : Call) (σ' : System) : Prop := Step σ c σ' ∧ Regular σ.state c

/-- What holds after some calls. -/
structure Ready (calls : List Call) (σ : System) : Prop where
  kept : Kept calls σ.state
  now : 0 < σ.now
  words : ∀ e ∈ calls, IsNamed e.lf

theorem Ready.step {σ σ' : System} (h : Ready calls σ) (hstep : RegularStep σ c σ') :
    Ready (calls ++ [c]) σ' ∧ Filled calls c ∧ Purged σ.state c := by
  obtain ⟨hcall, hregular⟩ := hstep
  obtain ⟨hcleanup, hcurrent, hresult⟩ := hcall
  have hnow := h.now
  have hpos : 0 < c.current_ts := by omega
  obtain ⟨hkept, hfilled⟩ := h.kept.accumulate hpos c.calloc c.strdup hresult
  refine ⟨⟨hkept, hpos, ?_⟩, ?_, ?_⟩
  · intro e he
    rcases mem_append.mp he with he | he
    · exact h.words e he
    · rw [mem_singleton.mp he]
      exact hregular.words
  · intro f hne
    obtain ⟨key, d, hkey, horigin, hrecent, hempty, hget, hsome⟩ := hfilled f hne
    obtain ⟨e, he, hekey, hets⟩ := horigin.refreshed
    refine ⟨hempty, ?_, e, he, (h.words e he).sameSource hregular.words hekey hkey, ?_⟩
    · obtain ⟨v, hv⟩ := isSome_iff_exists.mp hsome
      obtain ⟨-, e, he, hekey, heget⟩ := horigin.fields f v hv
      exact ⟨e, he, (h.words e he).sameSource hregular.words hekey hkey,
        heget.trans (hget.trans hv).symm⟩
    · rw [hets]
      exact hrecent
  · intro hnamed hdue
    apply (accumulateCleanUpStore_spec h.kept.wellFormed h.kept.rows _).2.2.2
    rcases hdue with hcount | htime
    · exact .inl hcount
    · exact hregular.due hnamed htime

theorem Ready.run {σ σ' : System} (h : Ready calls σ) {ls : List Call}
    (hrun : Run RegularStep σ ls σ') : Ready (calls ++ ls) σ' := by
  induction hrun generalizing calls with
  | nil => rwa [append_nil]
  | @cons _ _ _ c ls hstep _ ih =>
    rw [append_cons]
    exact ih (h.step hstep).1

theorem sized_accumulateCreateStore {secret secret' : Option (UInt32 × UInt32)}
    {store : OSHash OS_ACM_Store} (h : accumulateCreateStore secret secret' = some store) :
    Sized store := by
  obtain ⟨t, hcreate, hsize⟩ := bind_eq_some_iff.mp h
  exact (Sized.create hcreate).setSize hsize

theorem ready_nil {store : OSHash OS_ACM_Store} (h : Sized store) {now : ℤ} (hnow : 0 < now)
    (purge_ts : ℤ) : Ready [] ⟨⟨store, 0, purge_ts⟩, now⟩ := by
  obtain ⟨hwf, hmap⟩ := wellFormed_of_empty h.table_eq
  refine ⟨⟨hwf, h.rows_ne_zero, fun key d hd => ?_⟩, hnow, fun e he => absurd he not_mem_nil⟩
  rw [hmap] at hd
  cases hd

/-- In every run of regular calls a field is filled in only if it was empty, only with the value
that it had in an earlier event of the same agent, host, decoder and id, and only if there was such
an event within the expiry time; and no entry that is older than the purge age is left by a clean-up
that is due by time or by count. -/
theorem accumulate_law {secret secret' : Option (UInt32 × UInt32)} {store : OSHash OS_ACM_Store}
    (hstore : accumulateCreateStore secret secret' = some store) {now purge_ts : ℤ}
    (hnow : 0 < now) {σ σ' : System} (hrun : Run RegularStep ⟨⟨store, 0, purge_ts⟩, now⟩ calls σ)
    (hstep : RegularStep σ c σ') : Filled calls c ∧ Purged σ.state c :=
  (((ready_nil (sized_accumulateCreateStore hstore) hnow purge_ts).run hrun).step hstep).2

/-! ## A mail session -/

/-- A line of the session `7`, whose first line has the address. -/
def session (srcip : Option Bytes) : Eventinfo where
  id := some (lit "7")
  decoder_info := some { name := some (lit "postfix") }
  agent_name := some (lit "mail")
  srcip := srcip

def address : Bytes := lit "10.0.0.1"

/-- The call with the first line. -/
def opened : Call where
  lf := session (some address)
  result := session (some address)
  cleanup_ts := 1000
  current_ts := 1000

/-- The store after the first line. -/
theorem exists_opened :
    ∃ store σ, accumulateCreateStore (some (1, 2)) (some (3, 4)) = some store ∧
      Step ⟨⟨store, 0, 1000⟩, 1000⟩ opened σ ∧ σ.now = 1000 ∧ σ.state.lookups = 1 ∧
      σ.state.purge_ts = 1000 ∧ σ.state.store.toMap (lit "mail  postfix 7") =
        some (some { srcip := some address, timestamp := 1000 }) := by
  obtain ⟨t, ht⟩ := isSome_iff_exists.mp (isSome_create (α := OS_ACM_Store) (1, 2))
  obtain ⟨store, hstore⟩ := isSome_iff_exists.mp (isSome_setSize t 2048 (3, 4))
  have hcreate : accumulateCreateStore (some (1, 2)) (some (3, 4)) = some store := by
    rw [accumulateCreateStore, ht, bind_some, hstore]
  obtain ⟨hwf, hmap⟩ := wellFormed_of_empty (sized_accumulateCreateStore hcreate).table_eq
  have hnone : store.get (lit "mail  postfix 7") = none := by rw [get_eq, hmap]; rfl
  have hkey : acmKey (session (some address)) (lit "postfix") (lit "7") =
      some (lit "mail  postfix 7") := by decide +kernel
  have hclean : accumulateCleanUpStore ⟨store, 0, 1000⟩ 1000 = ⟨store, 1, 1000⟩ := rfl
  have hcall : accumulate ⟨store, 0, 1000⟩ opened.lf 1000 1000 true true =
      (session (some address), ⟨(store.add (lit "mail  postfix 7")
        (some { srcip := some address, timestamp := 1000 }) true true).2, 1, 1000⟩) := by
    have hnamed : opened.lf.named = some (lit "postfix", lit "7") := rfl
    rw [accumulate, hnamed]
    dsimp only
    rw [opened, hkey, hclean]
    dsimp only
    rw [accumulateKey]
    rw [hnone]
    rfl
  have hadd := congrArg Prod.snd (hwf.add_spec (lit "mail  postfix 7")
    (some { srcip := some address, timestamp := 1000 }) true true).2
  rw [hmap] at hadd
  have hstep : Step ⟨⟨store, 0, 1000⟩, 1000⟩ opened
      ⟨(accumulate ⟨store, 0, 1000⟩ opened.lf 1000 1000 true true).2, 1000⟩ :=
    .call (Int.le_refl _) (Int.le_refl _) (congrArg Prod.fst hcall).symm
  rw [hcall] at hstep
  refine ⟨store, _, hcreate, hstep, rfl, rfl, rfl, (congrFun hadd _).trans ?_⟩
  simp [mapAdd]

/-- The call with the second line, and what it gets. -/
def continued (current_ts : ℤ) (srcip : Option Bytes) : Call where
  lf := session none
  result := session srcip
  cleanup_ts := current_ts
  current_ts := current_ts

variable {t : ℤ}

/-- The next clean-up, too early for the count, does nothing, whatever the time. -/
theorem cleanUp_opened (hlookups : s.lookups = 1) (hpurge : s.purge_ts = 1000) (ht : 1000 ≤ t) :
    accumulateCleanUpStore s t = { s with lookups := 2 } := by
  have hearly : s.lookups + 1 < OS_ACM_PURGE_COUNT ∧ s.purge_ts < t + OS_ACM_PURGE_INTERVAL := by
    rw [hlookups, hpurge, OS_ACM_PURGE_COUNT, OS_ACM_PURGE_INTERVAL]
    omega
  rw [accumulateCleanUpStore, if_pos hearly, hlookups]

theorem accumulate_continued (hlookups : s.lookups = 1) (hpurge : s.purge_ts = 1000)
    (ht : 1000 ≤ t) (hentry : s.store.toMap (lit "mail  postfix 7") =
      some (some { srcip := some address, timestamp := 1000 })) :
    (accumulate s (session none) t t true true).1 =
      session (if 1000 < t - OS_ACM_EXPIRE_ELM then none else some address) := by
  have hnamed : (session none).named = some (lit "postfix", lit "7") := rfl
  have hkey : acmKey (session none) (lit "postfix") (lit "7") =
      some (lit "mail  postfix 7") := by decide +kernel
  have hget : s.store.get (lit "mail  postfix 7") =
      some { srcip := some address, timestamp := 1000 } := by
    rw [get_eq, mapGet, hentry]
    rfl
  rw [accumulate, hnamed]
  dsimp only
  rw [hkey, cleanUp_opened hlookups hpurge ht]
  dsimp only
  rw [accumulateKey]
  rw [hget]
  dsimp only
  by_cases hexpired : 1000 < t - OS_ACM_EXPIRE_ELM
  · rw [if_pos hexpired, if_pos ⟨by decide, hexpired⟩]
  · rw [if_neg hexpired, if_neg fun h => hexpired h.2]
    rfl

theorem step_continued {σ : System} (hnow : σ.now = 1000) (hlookups : σ.state.lookups = 1)
    (hpurge : σ.state.purge_ts = 1000) (ht : 1000 ≤ t)
    (hentry : σ.state.store.toMap (lit "mail  postfix 7") =
      some (some { srcip := some address, timestamp := 1000 })) :
    ∃ σ', Step σ (continued t (if 1000 < t - OS_ACM_EXPIRE_ELM then none else some address)) σ' :=
  ⟨_, .call (hnow.trans_le ht) (Int.le_refl _)
    (accumulate_continued hlookups hpurge ht hentry).symm⟩

/-- Ten seconds later the second line gets the address of the first. -/
theorem accumulate_law_session :
    ∃ store σ σ', accumulateCreateStore (some (1, 2)) (some (3, 4)) = some store ∧
      Run RegularStep ⟨⟨store, 0, 1000⟩, 1000⟩ [opened] σ ∧
      RegularStep σ (continued 1010 (some address)) σ' ∧
      Filled [opened] (continued 1010 (some address)) ∧
      Purged σ.state (continued 1010 (some address)) := by
  obtain ⟨store, σ, hcreate, hstep, hnow, hlookups, hpurge, hentry⟩ := exists_opened
  obtain ⟨σ', hstep'⟩ := step_continued hnow hlookups hpurge (t := 1010) (by decide) hentry
  have hnamed (srcip : Option Bytes) : IsNamed (session srcip) := by
    refine ⟨?_, ?_, ?_⟩
    · change chr ' ' ∉ lit "mail"
      decide +kernel
    · exact not_mem_nil
    · rintro x ⟨⟩
      decide +kernel
  have hregular : Regular ⟨store, 0, 1000⟩ opened := by
    refine ⟨hnamed _, fun _ hdue => absurd hdue ?_⟩
    change ¬1000 + OS_ACM_PURGE_INTERVAL ≤ 1000
    decide
  have hregular' : Regular σ.state (continued 1010 (some address)) := by
    refine ⟨hnamed _, fun _ hdue => absurd hdue ?_⟩
    rw [hpurge]
    decide
  have hrun : Run RegularStep ⟨⟨store, 0, 1000⟩, 1000⟩ [opened] σ :=
    .cons ⟨hstep, hregular⟩ (.nil _)
  obtain ⟨hfilled, hpurged⟩ := accumulate_law hcreate (by decide) hrun ⟨hstep', hregular'⟩
  exact ⟨store, σ, σ', hcreate, hrun, ⟨hstep', hregular'⟩, hfilled, hpurged⟩

/-- A quarter of an hour later the first line is still stored: the clean-up that is due by time has
not removed it. -/
theorem not_purged_session :
    ∃ store σ σ', accumulateCreateStore (some (1, 2)) (some (3, 4)) = some store ∧
      Run Step ⟨⟨store, 0, 1000⟩, 1000⟩ [opened] σ ∧ Step σ (continued 2000 none) σ' ∧
      ¬Purged σ.state (continued 2000 none) := by
  obtain ⟨store, σ, hcreate, hstep, hnow, hlookups, hpurge, hentry⟩ := exists_opened
  obtain ⟨σ', hstep'⟩ := step_continued hnow hlookups hpurge (t := 2000) (by decide) hentry
  refine ⟨store, σ, σ', hcreate, .cons hstep (.nil _), hstep', fun hpurged => ?_⟩
  have hdue : Due σ.state 2000 := by
    right
    rw [hpurge]
    decide
  have hfresh := hpurged rfl hdue
  rw [continued, cleanUp_opened hlookups hpurge (by decide)] at hfresh
  exact absurd (hfresh _ _ hentry) (by decide)

end Accumulate
