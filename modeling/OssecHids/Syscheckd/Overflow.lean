import OssecHids.Shared.HashOp
import OssecHids.Syscheckd.OverflowDirs

/-!
# Recovery from lost notifications

When notifications were lost, the directories they were about are put into a queue, and the main
loop rescans one at a time: the list and the hash `rt_ovf_head` and `rt_ovf_hash` of
`run_realtime.c`. Memory can always be allocated.

- `Inv.schedule_of_ancestor`, `Inv.schedule_of_none`: what a request leaves of the queue;
- `Inv.covers_schedule_iff`: when a request is dropped;
- `overflow_law`: the queue in every run, and the runs in which no request is dropped.
-/

open CString Containment Transition List Option Function

namespace Overflow

/-! ## The queue -/

def CHECK_REALTIME : BitVec 32 := 0o100

def CHECK_NORECURSE : BitVec 32 := 0o2000

/-- `rt_ovf` -/
structure RtOvf where
  dir : Path
  opts : BitVec 32
  cfg : Option ℕ

/-- `rt_ovf_head` and `rt_ovf_hash` -/
structure Queue where
  head : List RtOvf
  hash : Option (OSHash RtOvf)

/-- `rt_ovf_compatible` -/
def rtOvfCompatible (a : RtOvf) (opts_b : BitVec 32) (cfg_b : Option ℕ) : Bool :=
  if a.opts &&& CHECK_NORECURSE ≠ 0 ∨ opts_b &&& CHECK_NORECURSE ≠ 0 then false
  else if a.cfg ≠ cfg_b then false
  else a.opts &&& ~~~CHECK_REALTIME == opts_b &&& ~~~CHECK_REALTIME

/-- The loop of `rt_ovf_coalesce_pending`; the entries `done` are in front of `curr`. -/
def coalesceLoop (p : Platform) (done : List RtOvf) :
    List RtOvf → Option (OSHash RtOvf) → Queue
  | [], hash => ⟨done, hash⟩
  | curr :: rest, hash =>
    if (done ++ rest).any fun other =>
        rtOvfCompatible other curr.opts curr.cfg &&
          rtPathUnderDir p curr.dir.text other.dir.text then
      -- `rt_ovf_unlink`
      coalesceLoop p done rest (hash.map fun t => (t.delete curr.dir.text).2)
    else coalesceLoop p (done ++ [curr]) rest hash

/-- `rt_ovf_coalesce_pending` -/
def rtOvfCoalescePending (p : Platform) (q : Queue) : Queue := coalesceLoop p [] q.head q.hash

/-- The loop of `rt_overflow_schedule`, and whether it returned. -/
def scheduleLoop (p : Platform) (dir : Bytes) (opts : BitVec 32) (cfg : Option ℕ)
    (done : List RtOvf) : List RtOvf → OSHash RtOvf → Bool × List RtOvf × OSHash RtOvf
  | [], hash => (false, done, hash)
  | curr :: rest, hash =>
    if !rtOvfCompatible curr opts cfg then
      scheduleLoop p dir opts cfg (done ++ [curr]) rest hash
    else if rtPathUnderDir p dir curr.dir.text then (true, done ++ curr :: rest, hash)
    else if rtPathUnderDir p curr.dir.text dir then
      -- `rt_ovf_unlink`
      scheduleLoop p dir opts cfg done rest (hash.delete curr.dir.text).2
    else scheduleLoop p dir opts cfg (done ++ [curr]) rest hash

/-- `rt_overflow_schedule`; the numbers are what the hash takes from the random generator. -/
def rtOverflowSchedule (p : Platform) (config : List Dir) (q : Queue) (secret : UInt32 × UInt32)
    (dir : Path) (opts : BitVec 32) : Queue :=
  if dir.text = [] then q
  else
    match q.hash.or (OSHash.create (some secret)) with
    | none => q
    | some hash =>
      let cfg := rtOvfCfgForDir p config dir.text
      let (found, head, hash) := scheduleLoop p dir.text opts cfg [] q.head hash
      if found then ⟨head, some hash⟩
      else if (hash.get dir.text).isSome then ⟨head, some hash⟩
      else
        let entry : RtOvf := ⟨dir, opts, cfg⟩
        let (res, hash) := hash.add dir.text (some entry) true true
        if res ≠ 2 then ⟨head, some hash⟩
        else ⟨entry :: head, some hash⟩

/-- The options that the directory of an entry is read with. -/
def scanOpts (p : Platform) (config : List Dir) (entry : RtOvf) : BitVec 32 :=
  let scan_opts := (entry.cfg.bind (config[·]?)).elim entry.opts Dir.opts
  match p with
  | .unix => scan_opts
  | .windows => scan_opts &&& ~~~CHECK_REALTIME

/-- `realtime_overflow_process`: the directory that is read, and how. -/
def realtimeOverflowProcess (p : Platform) (config : List Dir) (q : Queue) :
    Queue × Option (RtOvf × BitVec 32) :=
  let q := rtOvfCoalescePending p q
  match q.head with
  | [] => (q, none)
  | entry :: rest =>
    (⟨rest, q.hash.map fun t => (t.delete entry.dir.text).2⟩, some (entry, scanOpts p config entry))

/-! ## Runs -/

inductive Call
  | schedule (secret : UInt32 × UInt32) (dir : Path) (opts : BitVec 32)
  | process

/-- What a call leaves of the queue, and the entry that it takes from it. -/
def call (p : Platform) (config : List Dir) (q : Queue) : Call → Queue × Option (RtOvf × BitVec 32)
  | .schedule secret dir opts => (rtOverflowSchedule p config q secret dir opts, none)
  | .process => realtimeOverflowProcess p config q

/-- The queue before the first request. -/
def start : Queue := ⟨[], none⟩

/-- A call, and the entry that it took from the queue. -/
abbrev Label : Type := Call × Option (RtOvf × BitVec 32)

/-! ## What is promised -/

/-- Reading the directory of an entry finds what a request is about. Without recursion it must be
the directory itself. -/
structure Covers (p : Platform) (config : List Dir) (e : RtOvf) (dir : Path) (opts : BitVec 32) :
    Prop where
  cfg_eq : e.cfg = rtOvfCfgForDir p config dir.text
  opts_eq : e.opts &&& ~~~CHECK_REALTIME = opts &&& ~~~CHECK_REALTIME
  dir : e.dir = dir ∨
    e.opts &&& CHECK_NORECURSE = 0 ∧ rtPathUnderDir p dir.text e.dir.text = true

/-- One of two entries has no work that the other one does not do. -/
def Nested (p : Platform) (a b : RtOvf) : Prop :=
  rtOvfCompatible a b.opts b.cfg = true ∧
    (rtPathUnderDir p a.dir.text b.dir.text = true ∨ rtPathUnderDir p b.dir.text a.dir.text = true)

/-- What holds of the queue. -/
structure Tidy (p : Platform) (q : Queue) : Prop where
  apart : q.head.Pairwise fun a b => ¬Nested p a b
  /-- The hash has the directories of the list, each of which is there once. -/
  nodup : (q.head.map (·.dir)).Nodup
  hash : ∀ key, (∃ t, q.hash = some t ∧ (t.get key).isSome = true) ↔
    ∃ e ∈ q.head, e.dir.text = key

/-- A request is met: its directory is not queued, or an entry of the queue covers it. -/
def Met (p : Platform) (config : List Dir) (q : Queue) : Call → Prop
  | .schedule _ dir opts => (∃ e ∈ q.head, e.dir = dir) → ∃ e ∈ q.head, Covers p config e dir opts
  | .process => True

/-- A call in a queue that meets its request. -/
def MetStep (p : Platform) (config : List Dir) (q : Queue) (l : Label) (q' : Queue) : Prop :=
  StepOf (call p config) q l q' ∧ Met p config q l.1

/-- Every request since the start was read for, or it still is to be. -/
def Recovered (p : Platform) (config : List Dir) (ls : List Label) (q : Queue) : Prop :=
  ∀ ls₁ ls₂ secret dir opts, ls = ls₁ ++ (.schedule secret dir opts, none) :: ls₂ →
    dir.text ≠ [] →
    (∃ e scan, (.process, some (e, scan)) ∈ ls₂ ∧ Covers p config e dir opts) ∨
      ∃ e ∈ q.head, Covers p config e dir opts

variable {p : Platform} {config : List Dir} {dir : Bytes}

/-! ## Entries -/

variable {q q' : Queue} {e a b : RtOvf} {d : Path} {opts opts_b : BitVec 32} {cfg : Option ℕ}
  {done rest : List RtOvf} {t hash : OSHash RtOvf}

theorem compatible_iff :
    rtOvfCompatible a opts cfg = true ↔ a.opts &&& CHECK_NORECURSE = 0 ∧
      opts &&& CHECK_NORECURSE = 0 ∧ a.cfg = cfg ∧
      a.opts &&& ~~~CHECK_REALTIME = opts &&& ~~~CHECK_REALTIME := by
  rw [rtOvfCompatible]
  split
  case isTrue h =>
    refine iff_of_false Bool.false_ne_true fun h' => ?_
    exact h.elim (fun h => h h'.1) fun h => h h'.2.1
  case isFalse h =>
    rw [not_or, not_not, not_not] at h
    split
    case isTrue hcfg => exact iff_of_false Bool.false_ne_true fun h' => hcfg h'.2.2.1
    case isFalse hcfg =>
      rw [beq_iff_eq]
      exact ⟨fun hopts => ⟨h.1, h.2, not_not.mp hcfg, hopts⟩, fun h' => h'.2.2.2⟩

theorem norecurse_eq (h : opts &&& ~~~CHECK_REALTIME = opts_b &&& ~~~CHECK_REALTIME) :
    opts &&& CHECK_NORECURSE = opts_b &&& CHECK_NORECURSE := by
  have hmask : ∀ o : BitVec 32,
      o &&& CHECK_NORECURSE = o &&& ~~~CHECK_REALTIME &&& CHECK_NORECURSE := fun o => by
    rw [BitVec.and_assoc]
    rfl
  rw [hmask opts, hmask opts_b, h]

theorem under_refl (h : d.text ≠ []) : rtPathUnderDir p d.text d.text = true :=
  (underDir_iff d.zero_notMem d.zero_notMem).mpr (Inside.refl _ h)

theorem under_trans {d₁ d₂ d₃ : Path} (h : rtPathUnderDir p d₁.text d₂.text = true)
    (h' : rtPathUnderDir p d₂.text d₃.text = true) :
    rtPathUnderDir p d₁.text d₃.text = true := by
  rw [underDir_iff d₁.zero_notMem d₂.zero_notMem] at h
  rw [underDir_iff d₂.zero_notMem d₃.zero_notMem] at h'
  rw [underDir_iff d₁.zero_notMem d₃.zero_notMem]
  exact h.trans (sep_fold p) h'

/-! ## The loop over the entries -/

/-- An entry that makes a request superfluous. -/
def Ancestor (p : Platform) (dir : Bytes) (opts : BitVec 32) (cfg : Option ℕ) (e : RtOvf) : Prop :=
  rtOvfCompatible e opts cfg = true ∧ rtPathUnderDir p dir e.dir.text = true

/-- An entry that a request makes superfluous. -/
def descendant (p : Platform) (dir : Bytes) (opts : BitVec 32) (cfg : Option ℕ) (e : RtOvf) :
    Bool :=
  rtOvfCompatible e opts cfg && rtPathUnderDir p e.dir.text dir

/-- The hash without the directories of some entries. -/
def unlinked (hash : OSHash RtOvf) (entries : List RtOvf) : OSHash RtOvf :=
  entries.foldl (fun t e => (t.delete e.dir.text).2) hash

theorem scheduleLoop_of_ancestor (hthere : ∃ e ∈ rest, Ancestor p dir opts cfg e)
    (hdesc : ∀ e ∈ rest, descendant p dir opts cfg e = true → Ancestor p dir opts cfg e) :
    scheduleLoop p dir opts cfg done rest hash = (true, done ++ rest, hash) := by
  induction rest generalizing done with
  | nil =>
    obtain ⟨e, he, -⟩ := hthere
    cases he
  | cons curr rest ih =>
    rw [forall_mem_cons] at hdesc
    have hgo : ¬Ancestor p dir opts cfg curr →
        scheduleLoop p dir opts cfg (done ++ [curr]) rest hash =
          (true, done ++ curr :: rest, hash) :=
      fun hcurr => by
        rw [ih ((exists_mem_cons_iff ..).mp hthere |>.resolve_left hcurr) hdesc.2, append_assoc]
        rfl
    rw [scheduleLoop]
    cases hcompat : rtOvfCompatible curr opts cfg with
    | false =>
      rw [Bool.not_false, if_pos rfl]
      refine hgo fun h => ?_
      rw [h.1] at hcompat
      cases hcompat
    | true =>
      rw [Bool.not_true, if_neg Bool.false_ne_true]
      by_cases hunder : rtPathUnderDir p dir curr.dir.text = true
      case pos => rw [if_pos hunder]
      case neg =>
        have hcurr : ¬Ancestor p dir opts cfg curr := fun h => hunder h.2
        have hkeep : ¬rtPathUnderDir p curr.dir.text dir = true := fun h =>
          hcurr (hdesc.1 (by rw [descendant, hcompat, h]; rfl))
        rw [if_neg hunder, if_neg hkeep]
        exact hgo hcurr

theorem scheduleLoop_of_none (h : ∀ e ∈ rest, ¬Ancestor p dir opts cfg e) :
    scheduleLoop p dir opts cfg done rest hash =
      (false, done ++ rest.filter fun e => !descendant p dir opts cfg e,
        unlinked hash (rest.filter fun e => descendant p dir opts cfg e)) := by
  induction rest generalizing done hash with
  | nil => rw [scheduleLoop, filter_nil, append_nil]; rfl
  | cons curr rest ih =>
    rw [forall_mem_cons] at h
    have hkeep : descendant p dir opts cfg curr = false →
        scheduleLoop p dir opts cfg (done ++ [curr]) rest hash =
          (false, done ++ (curr :: rest).filter fun e => !descendant p dir opts cfg e,
            unlinked hash ((curr :: rest).filter fun e => descendant p dir opts cfg e)) :=
      fun hcurr => by
        rw [ih h.2, filter_cons_of_pos (by simp [hcurr]),
          filter_cons_of_neg (by simp [hcurr]), append_assoc]
        rfl
    rw [scheduleLoop]
    cases hcompat : rtOvfCompatible curr opts cfg with
    | false =>
      rw [Bool.not_false, if_pos rfl]
      exact hkeep (by rw [descendant, hcompat]; rfl)
    | true =>
      have hunder : ¬rtPathUnderDir p dir curr.dir.text = true := fun hu => h.1 ⟨hcompat, hu⟩
      rw [Bool.not_true, if_neg Bool.false_ne_true, if_neg hunder]
      split
      case isTrue hdesc =>
        have hcurr : descendant p dir opts cfg curr = true := by
          rw [descendant, hcompat, hdesc]
          rfl
        rw [ih h.2, filter_cons_of_neg (by simp [hcurr]), filter_cons_of_pos hcurr]
        rfl
      case isFalse hdesc =>
        refine hkeep ?_
        rw [descendant, hcompat, Bool.true_and]
        exact Bool.eq_false_iff.mpr hdesc

/-! ## The hash -/

/-- The directories of some entries. -/
def dirs (entries : List RtOvf) : Set Path := {d | ∃ e ∈ entries, e.dir = d}

/-- The hash has some directories. -/
structure Holds (t : OSHash RtOvf) (s : Set Path) : Prop where
  wellFormed : t.WellFormed
  get : ∀ d ∈ s, (t.get d.text).isSome = true
  toMap : ∀ key, (∀ d ∈ s, d.text ≠ key) → t.toMap key = none

theorem Holds.get_iff {s : Set Path} (h : Holds t s) (key : Bytes) :
    (t.get key).isSome = true ↔ ∃ d ∈ s, d.text = key := by
  constructor
  · intro hget
    by_contra hnone
    push Not at hnone
    rw [OSHash.get_eq, OSHash.mapGet, h.toMap key hnone] at hget
    cases hget
  · rintro ⟨d, hd, rfl⟩
    exact h.get d hd

theorem holds_create {secret : Option (UInt32 × UInt32)} (h : OSHash.create secret = some t) :
    Holds t ∅ := by
  obtain ⟨hwf, hmap⟩ := OSHash.wellFormed_of_empty (OSHash.Sized.create h).table_eq
  exact ⟨hwf, fun d hd => absurd hd (Set.notMem_empty d), fun key _ => by rw [hmap]⟩

theorem Holds.delete {s : Set Path} (h : Holds t s) (d : Path) :
    Holds (t.delete d.text).2 (s \ {d}) := by
  obtain ⟨hwf, hmap⟩ := h.wellFormed.delete_spec d.text
  have htoMap : (t.delete d.text).2.toMap = Function.update t.toMap d.text none :=
    (Prod.ext_iff.mp hmap).2
  refine ⟨hwf, ?_, ?_⟩
  · rintro d' ⟨hd', hne⟩
    have htext : d'.text ≠ d.text := fun h => hne (Path.ext h)
    rw [OSHash.get_eq, OSHash.mapGet, htoMap, update_of_ne htext]
    have hget := h.get d' hd'
    rwa [OSHash.get_eq] at hget
  · intro key hkey
    rw [htoMap]
    by_cases heq : key = d.text
    case pos =>
      rw [heq]
      exact update_self ..
    case neg =>
      rw [update_of_ne heq]
      refine h.toMap key fun d' hd' htext => ?_
      by_cases hd : d' = d
      · exact heq (htext.symm.trans (congrArg Path.text hd))
      · exact hkey d' ⟨hd', hd⟩ htext

theorem Holds.unlinked {s : Set Path} (h : Holds t s) (entries : List RtOvf) :
    Holds (unlinked t entries) (s \ dirs entries) := by
  induction entries generalizing t s with
  | nil =>
    have hempty : dirs [] = ∅ := by
      ext d
      simp [dirs]
    rw [hempty, Set.sdiff_empty]
    exact h
  | cons e entries ih =>
    have hcons : s \ dirs (e :: entries) = (s \ {e.dir}) \ dirs entries := by
      ext d
      simp only [dirs, mem_cons, exists_eq_or_imp, Set.mem_sdiff, Set.mem_ofPred_eq,
        Set.mem_singleton_iff, not_or, and_assoc, @eq_comm Path _ d]
    rw [hcons]
    exact ih (h.delete e.dir)

theorem Holds.add {s : Set Path} (h : Holds t s) (hd : d ∉ s) (e : RtOvf) :
    (t.add d.text (some e) true true).1 = 2 ∧
      Holds (t.add d.text (some e) true true).2 (insert d s) := by
  obtain ⟨hwf, hmap⟩ := h.wellFormed.add_spec d.text (some e) true true
  have hnone : t.toMap d.text = none :=
    h.toMap d.text fun d' hd' htext => hd (Path.ext htext ▸ hd')
  rw [OSHash.mapAdd, hnone] at hmap
  obtain ⟨hres, htoMap⟩ := Prod.ext_iff.mp hmap
  dsimp at hres htoMap
  refine ⟨hres, hwf, ?_, ?_⟩
  · rintro d' (rfl | hd')
    · rw [OSHash.get_eq, OSHash.mapGet, htoMap, update_self]
      rfl
    · have htext : d'.text ≠ d.text := fun h => hd (Path.ext h ▸ hd')
      rw [OSHash.get_eq, OSHash.mapGet, htoMap, update_of_ne htext]
      have hget := h.get d' hd'
      rwa [OSHash.get_eq] at hget
  · intro key hkey
    have hne : key ≠ d.text := fun h => hkey d (Set.mem_insert d s) h.symm
    rw [htoMap, update_of_ne hne]
    exact h.toMap key fun d' hd' => hkey d' (Set.mem_insert_of_mem d hd')

/-! ## One call -/

/-- What holds of the queue in every run. -/
structure Inv (p : Platform) (config : List Dir) (q : Queue) : Prop where
  apart : q.head.Pairwise fun a b => ¬Nested p a b
  nodup : (q.head.map (·.dir)).Nodup
  known : ∀ e ∈ q.head, e.cfg = rtOvfCfgForDir p config e.dir.text ∧ e.dir.text ≠ []
  hash : q.hash = none ∧ q.head = [] ∨ ∃ t, q.hash = some t ∧ Holds t (dirs q.head)

theorem dirs_nil : dirs [] = ∅ := by
  ext d
  simp [dirs]

theorem dirs_cons (e : RtOvf) (entries : List RtOvf) :
    dirs (e :: entries) = insert e.dir (dirs entries) := by
  ext d
  simp only [dirs, mem_cons, exists_eq_or_imp, Set.mem_insert_iff, Set.mem_ofPred_eq,
    @eq_comm Path _ d]

/-- Each directory is there once. -/
theorem dirs_filter_not {l : List RtOvf} (hnodup : (l.map (·.dir)).Nodup) (f : RtOvf → Bool) :
    dirs (l.filter fun e => !f e) = dirs l \ dirs (l.filter f) := by
  ext d
  simp only [dirs, Set.mem_sdiff, Set.mem_ofPred_eq, mem_filter, Bool.not_eq_true']
  constructor
  · rintro ⟨e, ⟨he, hf⟩, rfl⟩
    refine ⟨⟨e, he, rfl⟩, ?_⟩
    rintro ⟨e', ⟨he', hf'⟩, hdir⟩
    obtain rfl := inj_on_of_nodup_map hnodup he' he hdir
    rw [hf'] at hf
    cases hf
  · rintro ⟨⟨e, he, rfl⟩, hnone⟩
    refine ⟨e, ⟨he, ?_⟩, rfl⟩
    rw [← Bool.not_eq_true]
    exact fun hf => hnone ⟨e, ⟨he, hf⟩, rfl⟩

theorem Inv.exists_hash (h : Inv p config q) (secret : UInt32 × UInt32) :
    ∃ t, q.hash.or (OSHash.create (some secret)) = some t ∧ Holds t (dirs q.head) := by
  rcases h.hash with ⟨hnone, hnil⟩ | ⟨t, ht, hholds⟩
  · obtain ⟨t, ht⟩ := isSome_iff_exists.mp (OSHash.isSome_create (α := RtOvf) secret)
    refine ⟨t, ?_, ?_⟩
    · rw [hnone, none_or, ht]
    · rw [hnil, dirs_nil]
      exact holds_create ht
  · exact ⟨t, by rw [ht, some_or], hholds⟩

theorem nested_symm (h : Nested p a b) : Nested p b a := by
  obtain ⟨hcompat, hunder⟩ := h
  obtain ⟨ha, hb, hcfg, hopts⟩ := compatible_iff.mp hcompat
  exact ⟨compatible_iff.mpr ⟨hb, ha, hcfg.symm, hopts.symm⟩, hunder.symm⟩

/-- No entry is superfluous when an entry makes the request superfluous. -/
theorem Inv.ancestor_of_descendant (h : Inv p config q) {a b : RtOvf} (ha : a ∈ q.head)
    (hb : b ∈ q.head) (hanc : Ancestor p d.text opts cfg a)
    (hdesc : descendant p d.text opts cfg b = true) : b = a := by
  rw [descendant, Bool.and_eq_true] at hdesc
  by_contra hne
  have hsymm : Std.Symm fun a b => ¬Nested p a b := ⟨fun a b hab hba => hab (nested_symm hba)⟩
  refine h.apart.forall hb ha hne ⟨?_, .inl (under_trans hdesc.2 hanc.2)⟩
  obtain ⟨hb, -, hbcfg, hbopts⟩ := compatible_iff.mp hdesc.1
  obtain ⟨ha, -, hacfg, haopts⟩ := compatible_iff.mp hanc.1
  exact compatible_iff.mpr ⟨hb, ha, hbcfg.trans hacfg.symm, hbopts.trans haopts.symm⟩

/-- The queue after a request for a directory with an ancestor: it is the same. -/
theorem Inv.schedule_of_ancestor (h : Inv p config q) (hd : d.text ≠ []) (secret : UInt32 × UInt32)
    (hthere : ∃ e ∈ q.head, Ancestor p d.text opts (rtOvfCfgForDir p config d.text) e) :
    ∃ t, rtOverflowSchedule p config q secret d opts = ⟨q.head, some t⟩ ∧
      Holds t (dirs q.head) := by
  obtain ⟨t, ht, hholds⟩ := h.exists_hash secret
  refine ⟨t, ?_, hholds⟩
  have hloop : scheduleLoop p d.text opts (rtOvfCfgForDir p config d.text) [] q.head t =
      (true, q.head, t) :=
    scheduleLoop_of_ancestor hthere fun b hb hdesc => by
      obtain ⟨a, ha, hanc⟩ := hthere
      rw [h.ancestor_of_descendant ha hb hanc hdesc]
      exact hanc
  rw [rtOverflowSchedule, if_neg hd, ht]
  dsimp only
  rw [hloop]
  rfl

/-- The entries that a request leaves. -/
def kept (p : Platform) (config : List Dir) (q : Queue) (d : Path) (opts : BitVec 32) :
    List RtOvf :=
  q.head.filter fun e => !descendant p d.text opts (rtOvfCfgForDir p config d.text) e

/-- The queue after any other request: it is there, unless its directory is. -/
theorem Inv.schedule_of_none (h : Inv p config q) (hd : d.text ≠ []) (secret : UInt32 × UInt32)
    (hnone : ∀ e ∈ q.head, ¬Ancestor p d.text opts (rtOvfCfgForDir p config d.text) e) :
    ∃ t, Holds t (dirs (rtOverflowSchedule p config q secret d opts).head) ∧
      (rtOverflowSchedule p config q secret d opts).hash = some t ∧
      (d ∈ dirs (kept p config q d opts) ∧
          (rtOverflowSchedule p config q secret d opts).head = kept p config q d opts ∨
        d ∉ dirs (kept p config q d opts) ∧
          (rtOverflowSchedule p config q secret d opts).head =
            ⟨d, opts, rtOvfCfgForDir p config d.text⟩ :: kept p config q d opts) := by
  obtain ⟨t, ht, hholds⟩ := h.exists_hash secret
  have hkept := hholds.unlinked
    (q.head.filter fun e => descendant p d.text opts (rtOvfCfgForDir p config d.text) e)
  rw [← dirs_filter_not h.nodup, ← kept] at hkept
  rw [rtOverflowSchedule, if_neg hd, ht]
  dsimp only
  rw [scheduleLoop_of_none hnone, nil_append, ← kept]
  rw [if_neg Bool.false_ne_true]
  by_cases hqueued : d ∈ dirs (kept p config q d opts)
  case pos =>
    rw [if_pos (hkept.get d hqueued)]
    exact ⟨_, hkept, rfl, .inl ⟨hqueued, rfl⟩⟩
  case neg =>
    have hget : ¬((unlinked t (q.head.filter fun e => descendant p d.text opts
        (rtOvfCfgForDir p config d.text) e)).get d.text).isSome = true := by
      rw [hkept.get_iff]
      rintro ⟨d', hd', htext⟩
      exact hqueued (Path.ext htext ▸ hd')
    obtain ⟨hres, hadd⟩ := hkept.add hqueued ⟨d, opts, rtOvfCfgForDir p config d.text⟩
    rw [if_neg hget, hres, if_neg (not_not_intro rfl)]
    refine ⟨_, ?_, rfl, .inr ⟨hqueued, rfl⟩⟩
    rw [dirs_cons]
    exact hadd

theorem mem_kept (he : e ∈ kept p config q d opts) :
    e ∈ q.head ∧ descendant p d.text opts (rtOvfCfgForDir p config d.text) e = false := by
  obtain ⟨hmem, hnot⟩ := mem_filter.mp he
  exact ⟨hmem, by simpa using hnot⟩

theorem Inv.schedule (h : Inv p config q) (secret : UInt32 × UInt32) (d : Path)
    (opts : BitVec 32) : Inv p config (rtOverflowSchedule p config q secret d opts) := by
  by_cases hd : d.text = []
  case pos =>
    rw [rtOverflowSchedule, if_pos hd]
    exact h
  case neg =>
    by_cases hthere :
        ∃ e ∈ q.head, Ancestor p d.text opts (rtOvfCfgForDir p config d.text) e
    case pos =>
      obtain ⟨t, ht, hholds⟩ := h.schedule_of_ancestor hd secret hthere
      rw [ht]
      exact ⟨h.apart, h.nodup, h.known, .inr ⟨t, rfl, hholds⟩⟩
    case neg =>
      have hnone : ∀ e ∈ q.head, ¬Ancestor p d.text opts (rtOvfCfgForDir p config d.text) e :=
        fun e he hanc => hthere ⟨e, he, hanc⟩
      obtain ⟨t, hholds, hhash, hhead⟩ := h.schedule_of_none hd secret hnone
      have hapart : (kept p config q d opts).Pairwise fun a b => ¬Nested p a b := h.apart.filter _
      have hnodup : ((kept p config q d opts).map (·.dir)).Nodup :=
        h.nodup.sublist (filter_sublist.map _)
      refine ⟨?_, ?_, ?_, .inr ⟨t, hhash, hholds⟩⟩
      · rcases hhead with ⟨-, hhead⟩ | ⟨-, hhead⟩
        · rw [hhead]
          exact hapart
        · rw [hhead, pairwise_cons]
          refine ⟨fun e he hnested => ?_, hapart⟩
          obtain ⟨hmem, hdesc⟩ := mem_kept he
          obtain ⟨hcompat, hunder⟩ := nested_symm hnested
          rcases hunder with hunder | hunder
          · rw [descendant, hcompat, hunder] at hdesc
            cases hdesc
          · exact hnone e hmem ⟨hcompat, hunder⟩
      · rcases hhead with ⟨-, hhead⟩ | ⟨hqueued, hhead⟩
        · rw [hhead]
          exact hnodup
        · rw [hhead, map_cons, nodup_cons]
          refine ⟨fun hmem => hqueued ?_, hnodup⟩
          obtain ⟨e, he, hdir⟩ := mem_map.mp hmem
          exact ⟨e, he, hdir⟩
      · have hknown : ∀ e ∈ kept p config q d opts,
            e.cfg = rtOvfCfgForDir p config e.dir.text ∧ e.dir.text ≠ [] :=
          fun e he => h.known e (mem_kept he).1
        rcases hhead with ⟨-, hhead⟩ | ⟨-, hhead⟩
        · rw [hhead]
          exact hknown
        · rw [hhead]
          exact forall_mem_cons.mpr ⟨⟨rfl, hd⟩, hknown⟩

/-- In such a queue there is nothing to coalesce. -/
theorem coalesceLoop_eq {hash : Option (OSHash RtOvf)}
    (h : (done ++ rest).Pairwise fun a b => ¬Nested p a b) :
    coalesceLoop p done rest hash = ⟨done ++ rest, hash⟩ := by
  induction rest generalizing done with
  | nil => rw [coalesceLoop, append_nil]
  | cons curr rest ih =>
    have hnone : ¬((done ++ rest).any fun other => rtOvfCompatible other curr.opts curr.cfg &&
        rtPathUnderDir p curr.dir.text other.dir.text) = true := by
      rw [List.any_eq_true]
      rintro ⟨other, hother, hboth⟩
      rw [Bool.and_eq_true] at hboth
      have hnested : Nested p other curr := ⟨hboth.1, .inr hboth.2⟩
      rw [pairwise_append, pairwise_cons] at h
      rcases mem_append.mp hother with hmem | hmem
      · exact h.2.2 other hmem curr mem_cons_self hnested
      · exact h.2.1.1 other hmem (nested_symm hnested)
    have hgo : done ++ [curr] ++ rest = done ++ curr :: rest := by simp
    rw [coalesceLoop, if_neg hnone, ih (by rwa [hgo]), hgo]

theorem Inv.process_eq (h : Inv p config q) :
    realtimeOverflowProcess p config q =
      match q.head with
      | [] => (q, none)
      | entry :: rest =>
        (⟨rest, q.hash.map fun t => (t.delete entry.dir.text).2⟩,
          some (entry, scanOpts p config entry)) := by
  have hcoalesce : rtOvfCoalescePending p q = q := coalesceLoop_eq h.apart
  rw [realtimeOverflowProcess, hcoalesce]

theorem Inv.process (h : Inv p config q) : Inv p config (realtimeOverflowProcess p config q).1 := by
  rw [h.process_eq]
  split
  case h_1 => exact h
  case h_2 entry rest hhead =>
    have hapart := h.apart
    have hnodup := h.nodup
    have hknown := h.known
    rw [hhead] at hapart hnodup hknown
    rw [map_cons, nodup_cons] at hnodup
    refine ⟨hapart.of_cons, hnodup.2, fun e he => hknown e (mem_cons_of_mem _ he), ?_⟩
    rcases h.hash with ⟨-, hnil⟩ | ⟨t, ht, hholds⟩
    · rw [hhead] at hnil
      cases hnil
    · refine .inr ⟨_, by rw [ht, map_some], ?_⟩
      have hrest : dirs rest = dirs q.head \ {entry.dir} := by
        rw [hhead, dirs_cons, Set.insert_sdiff_of_mem _ (Set.mem_singleton _),
          Set.sdiff_singleton_eq_self]
        rintro ⟨e, he, hdir⟩
        exact hnodup.1 (mem_map.mpr ⟨e, he, hdir⟩)
      rw [hrest]
      exact hholds.delete entry.dir

theorem inv_start (p : Platform) (config : List Dir) : Inv p config start where
  apart := List.Pairwise.nil
  nodup := nodup_nil
  known _ he := absurd he not_mem_nil
  hash := .inl ⟨rfl, rfl⟩

theorem Inv.call (h : Inv p config q) {l : Label} (hstep : StepOf (call p config) q l q') :
    Inv p config q' := by
  obtain ⟨c, out⟩ := l
  have hq : (Overflow.call p config q c).1 = q' := congrArg Prod.fst hstep
  rw [← hq]
  cases c with
  | schedule secret d opts => exact h.schedule secret d opts
  | process => exact h.process

theorem Inv.tidy (h : Inv p config q) : Tidy p q := by
  refine ⟨h.apart, h.nodup, fun key => ?_⟩
  have hdirs : (∃ d ∈ dirs q.head, d.text = key) ↔ ∃ e ∈ q.head, e.dir.text = key := by
    constructor
    · rintro ⟨d, ⟨e, he, rfl⟩, hkey⟩
      exact ⟨e, he, hkey⟩
    · rintro ⟨e, he, hkey⟩
      exact ⟨e.dir, ⟨e, he, rfl⟩, hkey⟩
  rcases h.hash with ⟨hnone, hnil⟩ | ⟨t, ht, hholds⟩
  · rw [hnone, hnil]
    exact iff_of_false (fun ⟨t, h, _⟩ => nomatch h) fun ⟨e, he, _⟩ => absurd he not_mem_nil
  · rw [← hdirs, ← hholds.get_iff, ht]
    constructor
    · rintro ⟨t', ht', hget⟩
      rwa [← some.inj ht'] at hget
    · exact fun hget => ⟨t, rfl, hget⟩

/-! ## Requests -/

theorem covers_of_ancestor
    (h : Ancestor p d.text opts (rtOvfCfgForDir p config d.text) e) : Covers p config e d opts := by
  obtain ⟨hrec, -, hcfg, hopts⟩ := compatible_iff.mp h.1
  exact ⟨hcfg, hopts, .inr ⟨hrec, h.2⟩⟩

theorem Covers.ancestor (h : Covers p config e d opts) (hd : d.text ≠ [])
    (hrec : opts &&& CHECK_NORECURSE = 0) :
    Ancestor p d.text opts (rtOvfCfgForDir p config d.text) e := by
  refine ⟨compatible_iff.mpr ⟨?_, hrec, h.cfg_eq, h.opts_eq⟩, ?_⟩
  · rw [norecurse_eq h.opts_eq, hrec]
  · rcases h.dir with hdir | ⟨-, hunder⟩
    · rw [hdir]
      exact under_refl hd
    · exact hunder

theorem Covers.of_descendant {d' : Path} {opts' : BitVec 32} (h : Covers p config e d' opts')
    (hdesc : descendant p d.text opts (rtOvfCfgForDir p config d.text) e = true) :
    Covers p config ⟨d, opts, rtOvfCfgForDir p config d.text⟩ d' opts' := by
  rw [descendant, Bool.and_eq_true] at hdesc
  obtain ⟨-, hrec, hcfg, hopts⟩ := compatible_iff.mp hdesc.1
  refine ⟨hcfg.symm.trans h.cfg_eq, hopts.symm.trans h.opts_eq, .inr ⟨hrec, ?_⟩⟩
  rcases h.dir with hdir | ⟨-, hunder⟩
  · rw [← hdir]
    exact hdesc.2
  · exact under_trans hunder hdesc.2

/-- A request that is met stays in the queue, or what covers it does; one that is not met is
dropped. -/
theorem Inv.covers_schedule_iff (h : Inv p config q) (hd : d.text ≠ [])
    (secret : UInt32 × UInt32) :
    (∃ e ∈ (rtOverflowSchedule p config q secret d opts).head, Covers p config e d opts) ↔
      Met p config q (.schedule secret d opts) := by
  by_cases hthere : ∃ e ∈ q.head, Ancestor p d.text opts (rtOvfCfgForDir p config d.text) e
  case pos =>
    obtain ⟨t, ht, -⟩ := h.schedule_of_ancestor hd secret hthere
    obtain ⟨e, he, hanc⟩ := hthere
    have hcovers : ∃ e ∈ q.head, Covers p config e d opts := ⟨e, he, covers_of_ancestor hanc⟩
    rw [ht]
    exact iff_of_true hcovers fun _ => hcovers
  case neg =>
    have hnone : ∀ e ∈ q.head, ¬Ancestor p d.text opts (rtOvfCfgForDir p config d.text) e :=
      fun e he hanc => hthere ⟨e, he, hanc⟩
    obtain ⟨t, -, -, ⟨hqueued, hhead⟩ | ⟨hqueued, hhead⟩⟩ := h.schedule_of_none hd secret hnone
    · rw [hhead]
      constructor
      · rintro ⟨e, he, hcovers⟩ -
        exact ⟨e, (mem_kept he).1, hcovers⟩
      · intro hmet
        obtain ⟨e', he', hdir⟩ := hqueued
        obtain ⟨e, he, hcovers⟩ := hmet ⟨e', (mem_kept he').1, hdir⟩
        refine ⟨e, mem_filter.mpr ⟨he, ?_⟩, hcovers⟩
        -- otherwise the options recurse, and the entry is an ancestor
        rw [Bool.not_eq_true', ← Bool.not_eq_true]
        intro hdesc
        rw [descendant, Bool.and_eq_true] at hdesc
        exact hnone e he (hcovers.ancestor hd (compatible_iff.mp hdesc.1).2.1)
    · rw [hhead]
      refine iff_of_true ⟨_, mem_cons_self, rfl, rfl, .inl rfl⟩ ?_
      rintro ⟨e, he, rfl⟩
      exfalso
      refine hqueued ⟨e, mem_filter.mpr ⟨he, ?_⟩, rfl⟩
      rw [Bool.not_eq_true', ← Bool.not_eq_true]
      intro hdesc
      rw [descendant, Bool.and_eq_true] at hdesc
      exact hnone e he ⟨hdesc.1, under_refl hd⟩

/-- Such a request takes no cover away. -/
theorem Inv.covers_schedule (h : Inv p config q) (secret : UInt32 × UInt32)
    (hmet : Met p config q (.schedule secret d opts)) {d' : Path} {opts' : BitVec 32}
    (he : e ∈ q.head) (hcovers : Covers p config e d' opts') :
    ∃ e ∈ (rtOverflowSchedule p config q secret d opts).head, Covers p config e d' opts' := by
  by_cases hd : d.text = []
  case pos =>
    rw [rtOverflowSchedule, if_pos hd]
    exact ⟨e, he, hcovers⟩
  case neg =>
    by_cases hthere : ∃ e ∈ q.head, Ancestor p d.text opts (rtOvfCfgForDir p config d.text) e
    case pos =>
      obtain ⟨t, ht, -⟩ := h.schedule_of_ancestor hd secret hthere
      rw [ht]
      exact ⟨e, he, hcovers⟩
    case neg =>
      have hnone : ∀ e ∈ q.head, ¬Ancestor p d.text opts (rtOvfCfgForDir p config d.text) e :=
        fun e he hanc => hthere ⟨e, he, hanc⟩
      obtain ⟨t, -, -, hhead⟩ := h.schedule_of_none hd secret hnone
      cases hdesc : descendant p d.text opts (rtOvfCfgForDir p config d.text) e with
      | false =>
        have hkept : e ∈ kept p config q d opts := mem_filter.mpr ⟨he, by rw [hdesc]; rfl⟩
        rcases hhead with ⟨-, hhead⟩ | ⟨-, hhead⟩
        · rw [hhead]
          exact ⟨e, hkept, hcovers⟩
        · rw [hhead]
          exact ⟨e, mem_cons_of_mem _ hkept, hcovers⟩
      | true =>
        rcases hhead with ⟨⟨e', he', hdir⟩, -⟩ | ⟨-, hhead⟩
        · -- what covers the request would be an ancestor
          exfalso
          obtain ⟨c, hc, hcov⟩ := hmet ⟨e', (mem_kept he').1, hdir⟩
          rw [descendant, Bool.and_eq_true] at hdesc
          exact hnone c hc (hcov.ancestor hd (compatible_iff.mp hdesc.1).2.1)
        · rw [hhead]
          exact ⟨_, mem_cons_self, hcovers.of_descendant hdesc⟩

theorem Inv.covers_process (h : Inv p config q) (he : e ∈ q.head) :
    (∃ scan, (realtimeOverflowProcess p config q).2 = some (e, scan)) ∨
      e ∈ (realtimeOverflowProcess p config q).1.head := by
  rw [h.process_eq]
  split
  case h_1 hhead =>
    rw [hhead] at he
    cases he
  case h_2 entry rest hhead =>
    rw [hhead] at he
    rcases mem_cons.mp he with rfl | he
    · exact .inl ⟨_, rfl⟩
    · exact .inr he

theorem Recovered.step {ls : List Label} {l : Label} (hinv : Inv p config q)
    (h : Recovered p config ls q) (hstep : MetStep p config q l q') :
    Recovered p config (ls ++ [l]) q' := by
  obtain ⟨⟨c, out⟩, rfl⟩ : ∃ l', l' = l := ⟨l, rfl⟩
  obtain ⟨hcall, hmet⟩ := hstep
  have hq : (call p config q c).1 = q' := congrArg Prod.fst hcall
  have hout : (call p config q c).2 = out := congrArg Prod.snd hcall
  intro ls₁ ls₂ secret d opts hsplit hd
  obtain rfl | ⟨ls₂, last, rfl⟩ := eq_nil_or_concat ls₂
  · -- the request is the last call
    obtain ⟨-, hlast⟩ := append_inj' hsplit rfl
    obtain ⟨rfl, -⟩ := Prod.mk.inj (singleton_inj.mp hlast)
    right
    rw [← hq]
    exact (hinv.covers_schedule_iff hd secret).mpr hmet
  · rw [concat_eq_append, ← cons_append, ← append_assoc] at hsplit
    obtain ⟨hls, hlast⟩ := append_inj' hsplit rfl
    obtain rfl := singleton_inj.mp hlast
    rw [concat_eq_append]
    rcases h ls₁ ls₂ secret d opts hls hd with ⟨e, scan, hmem, hcovers⟩ | ⟨e, he, hcovers⟩
    · exact .inl ⟨e, scan, mem_append_left _ hmem, hcovers⟩
    · cases c with
      | schedule secret' d' opts' =>
        right
        rw [← hq]
        exact hinv.covers_schedule secret' hmet he hcovers
      | process =>
        rcases hinv.covers_process he with ⟨scan, htaken⟩ | hrest
        · refine .inl ⟨e, scan, mem_append_right _ ?_, hcovers⟩
          rw [← hout]
          exact mem_singleton.mpr (Prod.ext rfl htaken.symm)
        · right
          rw [← hq]
          exact ⟨e, hrest, hcovers⟩

/-- **The queue of the directories to be rescanned.** The directory that is found for a path is the
longest one just when each configured one has another letter than separators. In every run list and
hash have the same directories, and no entry is in one that it is compatible with; a request is
dropped just when its directory is queued and no entry covers it. In the runs without such requests,
what was asked for is queued until it is read. -/
theorem overflow_law (p : Platform) (config : List Dir) :
    ((∀ dir, Longest p config dir) ↔ ∀ d ∈ config, ∃ b ∈ d.dir.text, ¬p.sep b = true) ∧
      (∀ ls q, Run (StepOf (call p config)) start ls q →
        Tidy p q ∧ ∀ secret d opts, d.text ≠ [] →
          ((∃ e ∈ (rtOverflowSchedule p config q secret d opts).head, Covers p config e d opts) ↔
            Met p config q (.schedule secret d opts))) ∧
      ∀ ls q, Run (MetStep p config) start ls q → Recovered p config ls q := by
  have hinv : ∀ q l q', Inv p config q → StepOf (call p config) q l q' → Inv p config q' :=
    fun q l q' h hstep => h.call hstep
  refine ⟨longest_iff p config, fun ls q hrun => ?_, fun ls q hrun => ?_⟩
  · have h := hrun.invariant hinv (inv_start p config)
    exact ⟨h.tidy, fun secret d opts hd => h.covers_schedule_iff hd secret⟩
  · have hstart : Recovered p config [] start := by
      intro ls₁ ls₂ secret d opts h
      exact absurd h.symm (append_ne_nil_of_right_ne_nil ls₁ (cons_ne_nil _ _))
    have hboth : Inv p config q ∧ Recovered p config ls q :=
      @Run.history Queue Label (MetStep p config)
        (fun ls q => Inv p config q ∧ Recovered p config ls q)
        (fun ls q l q' h hstep => ⟨h.1.call hstep.1, h.2.step h.1 hstep⟩) _ _ _ hrun
        ⟨inv_start p config, hstart⟩
    exact hboth.2

/-- A path in the root directory has no configured directory, and a second request for a directory
is dropped when its options are others. -/
theorem not_recovered :
    ¬Longest .unix [⟨⟨lit "/", by decide⟩, 0⟩] ⟨lit "/etc", by decide⟩ ∧
      ∃ ls q, Run (StepOf (call .unix [])) start ls q ∧ ¬Recovered .unix [] ls q := by
  constructor
  · intro h
    have hnone : rtOvfCfgForDir .unix [⟨⟨lit "/", by decide⟩, 0⟩] (lit "/etc") = none := by decide
    rw [Longest, hnone] at h
    exact h _ (mem_singleton_self _) (by decide)
  · let d : Path := ⟨lit "/etc", by decide⟩
    have hd : d.text ≠ [] := by decide
    have hnone : ∀ e ∈ start.head, ¬Ancestor .unix d.text 1 (rtOvfCfgForDir .unix [] d.text) e :=
      fun e he => absurd he not_mem_nil
    obtain ⟨-, -, -, hhead⟩ := (inv_start .unix []).schedule_of_none hd (0, 0) hnone
    -- the first request is queued
    have hfirst : (rtOverflowSchedule .unix [] start (0, 0) d 1).head = [⟨d, 1, none⟩] := by
      rcases hhead with ⟨⟨e, he, -⟩, -⟩ | ⟨-, hhead⟩
      · exact absurd he not_mem_nil
      · exact hhead
    refine ⟨[(.schedule (0, 0) d 1, none), (.schedule (0, 0) d 2, none)], _,
      .cons rfl (.cons rfl (.nil _)), fun h => ?_⟩
    rcases h [(.schedule (0, 0) d 1, none)] [] (0, 0) d 2 rfl hd with ⟨e, scan, hmem, -⟩ | hcovers
    · exact absurd hmem not_mem_nil
    · have hinv := (inv_start .unix []).schedule (0, 0) d 1
      have hmet := (hinv.covers_schedule_iff hd (0, 0)).mp hcovers
      rw [Met, hfirst] at hmet
      obtain ⟨e, he, hcov⟩ := hmet ⟨_, mem_singleton_self _, rfl⟩
      obtain rfl := mem_singleton.mp he
      exact absurd hcov.opts_eq (by decide)

end Overflow
