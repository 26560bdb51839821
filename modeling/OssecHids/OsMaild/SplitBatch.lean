import Mathlib.Data.List.GetD
import OssecHids.Lib.CString
import OssecHids.Lib.Grouping
import OssecHids.OsMaild.MailQueue

/-!
# Mails for granular recipients

A worker splits the batch it was given into groups of alerts with the same granular recipients, and
sends one mail for each group.

- `splitMailBatch_eq`: the links are set so that one list becomes two;
- `sendWorker_eq`: the mails that a worker sends are the groups of the batch;
- `routing_law`: what this means for the alerts and for the recipients.
-/

open CString DoublyLinked Grouping List Option

namespace Maild

def FULL_FORMAT : ℕ := 2

def SMS_FORMAT : ℕ := 3

/-- `SUBJECT_SIZE` -/
def SUBJECT_SIZE : ℕ := 128

/-- The table of an alert: its address, and a mark for every granular recipient. -/
structure GranSet where
  addr : ℕ
  marks : List ℕ
  deriving DecidableEq, Repr

structure MailMsg where
  level : ℕ
  subject : Bytes
  body : Bytes
  gran_set : Option GranSet
  deriving DecidableEq, Repr

/-! ## Granular recipients -/

/-- An entry of the arrays `gran_to`, `gran_location` and so on of `MailConfig`. -/
structure GranEntry where
  gran_to : Bytes
  /-- `OSMatch_Execute` for the compiled expression. -/
  gran_location : Option (Bytes → Bool)
  gran_level : ℕ
  /-- The list ends at the first zero. -/
  gran_id : Option (List ℕ)
  gran_group : Option (Bytes → Bool)
  gran_format : ℕ

/-- The fields of `alert_data` that decide about the recipients. -/
structure AlertData where
  location : Bytes
  level : ℕ
  rule : ℕ
  group : Option Bytes

/-- The conditions of an entry that are set. -/
def GranEntry.conditions (e : GranEntry) (al_data : AlertData) : List Bool :=
  (e.gran_location.map fun m => m al_data.location).toList ++
    (if e.gran_level = 0 then [] else [decide (al_data.level ≥ e.gran_level)]) ++
    (e.gran_id.map fun ids => (ids.takeWhile (· ≠ 0)).contains al_data.rule).toList ++
    (e.gran_group.map fun m => al_data.group.any m).toList

/-- The mark that `OS_RecvMailQ` sets for an entry: there is a condition, and all of them hold. -/
def GranEntry.mark (e : GranEntry) (al_data : AlertData) : ℕ :=
  if e.conditions al_data ≠ [] ∧ (e.conditions al_data).all id then
    if e.gran_format = SMS_FORMAT then SMS_FORMAT else FULL_FORMAT
  else 0

/-- The table that `OS_RecvMailQ` gives to an alert, if there are granular recipients. -/
def recvGranSet (gran_to : Option (List GranEntry)) (al_data : AlertData) (addr : ℕ) :
    Option GranSet :=
  gran_to.map fun entries => ⟨addr, entries.map (·.mark al_data)⟩

/-- The alert was made by `OS_RecvMailQ`. -/
def Queued (gran_to : Option (List GranEntry)) (mail : MailMsg) : Prop :=
  ∃ al_data addr, mail.gran_set = recvGranSet gran_to al_data addr

/-- `same_gran_recipients` -/
def sameGranRecipients (gran_to : Option (List GranEntry)) (a b : MailMsg) : Bool :=
  match gran_to, a.gran_set, b.gran_set with
  | some entries, some s, some t =>
    (List.range entries.length).all fun i =>
      (s.marks.getD i 0 == FULL_FORMAT) == (t.marks.getD i 0 == FULL_FORMAT)
  | _, _, _ => a.gran_set.map GranSet.addr == b.gran_set.map GranSet.addr

/-! ## `OS_SplitMailBatch` -/

/-- `*rest = n`, where `rest` points to `*batch` or to the link of a node. -/
def setRest (heap : Heap ℕ MailMsg) (rest batch n : Option ℕ) :
    Option (Heap ℕ MailMsg × Option ℕ) :=
  match rest with
  | none => some (heap, n)
  | some r => (setNext heap r n).map fun heap => (heap, batch)

/-- The loop of `OS_SplitMailBatch`. -/
def splitLoop (gran_to : Option (List GranEntry)) (group : ℕ) :
    ℕ → Heap ℕ MailMsg → ℕ → Option ℕ → Option ℕ → Option ℕ →
      Option (Heap ℕ MailMsg × ℕ × Option ℕ × Option ℕ)
  | 0, _, _, _, _, _ => none
  | _ + 1, heap, group_tail, rest, batch, none => some (heap, group_tail, rest, batch)
  | fuel + 1, heap, group_tail, rest, batch, some n =>
    (heap group).bind fun first =>
    (heap n).bind fun node =>
      if sameGranRecipients gran_to first.data node.data then
        (setNext heap group_tail (some n)).bind fun heap =>
        (heap n).bind fun node => splitLoop gran_to group fuel heap n rest batch node.next
      else
        (setRest heap rest batch (some n)).bind fun (heap, batch) =>
        (heap n).bind fun node =>
          splitLoop gran_to group fuel heap group_tail (some n) batch node.next

/-- `OS_SplitMailBatch`: the group, and what stays in the batch. -/
def splitMailBatch (gran_to : Option (List GranEntry)) (fuel : ℕ) (heap : Heap ℕ MailMsg)
    (group : ℕ) : Option (Heap ℕ MailMsg × ℕ × Option ℕ) :=
  (heap group).bind fun first =>
  (splitLoop gran_to group fuel heap group none (some group) first.next).bind
    fun (heap, group_tail, rest, batch) =>
  (setNext heap group_tail none).bind fun heap =>
  (setRest heap rest batch none).map fun (heap, batch) => (heap, group, batch)

/-! ## The worker -/

/-- What is given to `OS_Sendmail`. -/
structure Sent where
  batch : List (ℕ × MailMsg)
  gran_set : Option GranSet
  subject : Bytes
  subject_level : ℕ

/-- The nodes behind a pointer. -/
def nodesFrom : ℕ → Heap ℕ MailMsg → Option ℕ → Option (List (ℕ × MailMsg))
  | 0, _, _ => none
  | _ + 1, _, none => some []
  | fuel + 1, heap, some n =>
    (heap n).bind fun node =>
      (nodesFrom fuel heap node.next).map fun nodes => (n, node.data) :: nodes

/-- The first of the alerts with the highest level. -/
def highest (first : MailMsg) (mails : List MailMsg) : MailMsg :=
  mails.foldl (fun highest n => if highest.level < n.level then n else highest) first

/-- The mail for a group. Its recipients are those of its first alert. -/
def sentGroup : List (ℕ × MailMsg) → Option Sent
  | [] => none
  | first :: nodes =>
    let highest := highest first.2 (nodes.map Prod.snd)
    some { batch := first :: nodes
           gran_set := first.2.gran_set
           subject := strncpy SUBJECT_SIZE highest.subject
           subject_level := highest.level }

/-- `mail_send_worker`; `OS_Sendmail` frees the group. -/
def sendWorker (gran_to : Option (List GranEntry)) :
    ℕ → Heap ℕ MailMsg → Option ℕ → List Sent → Option (Heap ℕ MailMsg × List Sent)
  | 0, _, _, _ => none
  | _ + 1, heap, none, sent => some (heap, sent)
  | fuel + 1, heap, some batch, sent =>
    (splitMailBatch gran_to fuel heap batch).bind fun (heap, group, batch) =>
    (nodesFrom fuel heap (some group)).bind fun nodes =>
    (sentGroup nodes).bind fun s =>
      sendWorker gran_to fuel (freeAll heap nodes) batch (sent ++ [s])

/-! ## Recipients -/

/-- The alert was selected for the recipient with the given number, by e-mail. -/
def Selected (i : ℕ) (mail : MailMsg) : Prop :=
  mail.gran_set.map (fun s => s.marks.getD i 0) = some FULL_FORMAT

instance (i : ℕ) (mail : MailMsg) : Decidable (Selected i mail) :=
  inferInstanceAs (Decidable (_ = _))

/-- The alerts in the mails that a recipient gets: those whose table has the mark for it. -/
def delivered (i : ℕ) (sent : List Sent) : List (ℕ × MailMsg) :=
  ((sent.filter fun s => s.gran_set.map (fun s => s.marks.getD i 0) = some FULL_FORMAT).map
    Sent.batch).flatten

/-! ## The split -/

variable {gran_to : Option (List GranEntry)} {heap heap' : Heap ℕ MailMsg}
  {g rs l : List (ℕ × MailMsg)} {r t : ℕ} {a : MailMsg} {q q' batch rest : Option ℕ}

theorem setRest_eq (h : setNextOf heap rest q = some heap') (batch : Option ℕ) :
    setRest heap rest batch q = some (heap', if rest = none then q else batch) := by
  cases rest with
  | none =>
    obtain rfl : heap = heap' := some.inj h
    rfl
  | some r =>
    have h : setNext heap r q = some heap' := h
    rw [setRest, h]
    rfl

/-- What the loop has made of the nodes behind the first one, when it has come to the nodes `l`:
the group, with the first node in it, and the rest. -/
structure Split (heap : Heap ℕ MailMsg) (g rs l : List (ℕ × MailMsg)) (batch : Option ℕ) :
    Prop where
  group : ∃ q, Path heap g q
  rest : ∃ q, Path heap rs q
  left : Path heap l none
  batch : rs ≠ [] → batch = firstOr rs none
  nodup : ((g ++ (rs ++ l)).map Prod.fst).Nodup

variable {n : ℕ} {m : MailMsg}

theorem Split.disjoint (h : Split heap g rs l batch) :
    (∀ s ∈ rs.map Prod.fst, s ∉ g.map Prod.fst) ∧ (∀ s ∈ l.map Prod.fst, s ∉ g.map Prod.fst) ∧
      ∀ s ∈ l.map Prod.fst, s ∉ rs.map Prod.fst := by
  have hnodup := h.nodup
  rw [map_append, nodup_append', map_append, nodup_append'] at hnodup
  obtain ⟨-, ⟨-, -, hrest⟩, hgroup⟩ := hnodup
  exact ⟨fun s hs hs' => hgroup hs' (mem_append_left _ hs),
    fun s hs hs' => hgroup hs' (mem_append_right _ hs), fun s hs hs' => hrest hs' hs⟩

/-- The next node is put behind the group. -/
theorem Split.toGroup (h : Split heap g rs ((n, m) :: l) batch) :
    ∃ heap', setNextOf heap (lastOr g none) (some n) = some heap' ∧
      (∃ prev, heap' n = some ⟨prev, firstOr l none, m⟩) ∧
      Split heap' (g ++ [(n, m)]) rs l batch := by
  obtain ⟨hrs, hl, -⟩ := h.disjoint
  obtain ⟨⟨q₁, hg⟩, ⟨q₂, hpath⟩, ⟨⟨prev, hcell⟩, hleft⟩, hbatch, hnodup⟩ := h
  have hsub : (g ++ [(n, m)]).Sublist (g ++ (rs ++ (n, m) :: l)) :=
    (singleton_sublist.mpr (by simp)).append_left g
  obtain ⟨heap', hset, hg', hframe⟩ := hg.concat hcell (hnodup.sublist (hsub.map Prod.fst))
  have hperm : (g ++ (rs ++ (n, m) :: l)).Perm (g ++ [(n, m)] ++ (rs ++ l)) := by
    rw [append_assoc]
    exact perm_middle.append_left g
  refine ⟨heap', hset, ⟨prev, (hframe n (hl n mem_cons_self)).trans hcell⟩,
    ⟨⟨_, hg'⟩, ⟨q₂, hpath.frame hframe hrs⟩, ?_, hbatch, (hperm.map Prod.fst).nodup_iff.mp hnodup⟩⟩
  exact hleft.frame hframe fun s hs => hl s (mem_cons_of_mem _ hs)

/-- The next node is put behind the rest. -/
theorem Split.toRest (h : Split heap g rs ((n, m) :: l) batch) :
    ∃ heap' batch', setRest heap (lastOr rs none) batch (some n) = some (heap', batch') ∧
      (∃ prev, heap' n = some ⟨prev, firstOr l none, m⟩) ∧
      Split heap' g (rs ++ [(n, m)]) l batch' := by
  obtain ⟨hrs, -, hl⟩ := h.disjoint
  obtain ⟨⟨q₁, hg⟩, ⟨q₂, hpath⟩, ⟨⟨prev, hcell⟩, hleft⟩, hbatch, hnodup⟩ := h
  have hsub : (rs ++ [(n, m)]).Sublist (g ++ (rs ++ (n, m) :: l)) :=
    ((singleton_sublist.mpr mem_cons_self).append_left rs).trans
      (sublist_append_right ..)
  obtain ⟨heap', hset, hpath', hframe⟩ := hpath.concat hcell (hnodup.sublist (hsub.map Prod.fst))
  refine ⟨heap', _, setRest_eq hset batch, ⟨prev, (hframe n (hl n mem_cons_self)).trans hcell⟩,
    ⟨⟨q₁, hg.frame hframe fun s hs hs' => hrs s hs' hs⟩, ⟨_, hpath'⟩, ?_, fun _ => ?_, ?_⟩⟩
  · exact hleft.frame hframe fun s hs => hl s (mem_cons_of_mem _ hs)
  · rw [lastOr_none, firstOr_append]
    cases rs with
    | nil => rfl
    | cons c rs =>
      rw [if_neg (by simp), hbatch (cons_ne_nil _ _)]
      rfl
  · rwa [append_assoc, singleton_append]

/-- The loop puts every node behind the group or behind the rest. -/
theorem splitLoop_eq {p : ℕ × MailMsg → Bool} (h : Split heap g rs l batch) (hr : (r, a) ∈ g)
    (hp : ∀ c ∈ l, sameGranRecipients gran_to a c.2 = p c) (ht : lastOr g none = some t) :
    ∃ heap' t' batch',
      (∀ fuel > l.length, splitLoop gran_to r fuel heap t (lastOr rs none) batch (firstOr l none) =
        some (heap', t', lastOr (rs ++ l.filter fun c => !p c) none, batch')) ∧
      lastOr (g ++ l.filter p) none = some t' ∧
      Split heap' (g ++ l.filter p) (rs ++ l.filter fun c => !p c) [] batch' := by
  induction l generalizing heap g rs batch t with
  | nil =>
    refine ⟨heap, t, batch, fun fuel hfuel => ?_, ?_, ?_⟩
    · obtain ⟨fuel, rfl⟩ := exists_fuel hfuel
      rw [filter_nil, append_nil, firstOr_nil, splitLoop]
    · rwa [filter_nil, append_nil]
    · rwa [filter_nil, filter_nil, append_nil, append_nil]
  | cons c l ih =>
    obtain ⟨n, m⟩ := c
    obtain ⟨hc, hp⟩ := forall_mem_cons.mp hp
    obtain ⟨prev, next, hfirst⟩ := h.group.choose_spec.cell _ hr
    obtain ⟨⟨prevn, hcell⟩, -⟩ := h.left
    by_cases hsame : p (n, m) = true
    case pos =>
      obtain ⟨heap₁, hset, ⟨prev₁, hcell₁⟩, h₁⟩ := h.toGroup
      rw [ht] at hset
      have hset : setNext heap t (some n) = some heap₁ := hset
      obtain ⟨heap', t', batch', hloop, hlast, h'⟩ :=
        ih h₁ (mem_append_left _ hr) hp lastOr_concat
      rw [← append_cons] at hlast h'
      rw [filter_cons_of_pos hsame, filter_cons_of_neg (by simpa using hsame)]
      refine ⟨heap', t', batch', fun fuel hfuel => ?_, hlast, h'⟩
      obtain ⟨fuel, rfl⟩ := exists_fuel hfuel
      rw [firstOr_cons, splitLoop, hfirst, bind_some, hcell, bind_some,
        if_pos (hc.trans hsame), hset, bind_some, hcell₁, bind_some]
      exact hloop fuel (Nat.lt_of_succ_lt_succ hfuel)
    case neg =>
      obtain ⟨heap₁, batch₁, hset, ⟨prev₁, hcell₁⟩, h₁⟩ := h.toRest
      obtain ⟨heap', t', batch', hloop, hlast, h'⟩ := ih h₁ hr hp ht
      rw [← append_cons] at h'
      rw [← append_cons, lastOr_concat] at hloop
      have hne : ¬ sameGranRecipients gran_to a m = true := fun heq => hsame (hc.symm.trans heq)
      rw [filter_cons_of_neg hsame, filter_cons_of_pos (by simpa using hsame)]
      refine ⟨heap', t', batch', fun fuel hfuel => ?_, hlast, h'⟩
      obtain ⟨fuel, rfl⟩ := exists_fuel hfuel
      rw [firstOr_cons, splitLoop, hfirst, bind_some, hcell, bind_some,
        if_neg hne, hset, bind_some]
      dsimp only
      rw [hcell₁, bind_some]
      exact hloop fuel (Nat.lt_of_succ_lt_succ hfuel)

/-- **The batch is split**: the first alert, with all those that have its recipients, is one list,
the others are another one. -/
theorem splitMailBatch_eq {p : ℕ × MailMsg → Bool} (h : Path heap ((r, a) :: l) none)
    (hp : ∀ c ∈ l, sameGranRecipients gran_to a c.2 = p c) :
    ∃ heap', (∀ fuel > l.length, splitMailBatch gran_to fuel heap r =
        some (heap', r, firstOr (l.filter fun c => !p c) none)) ∧
      Path heap' ((r, a) :: l.filter p) none ∧ Path heap' (l.filter fun c => !p c) none := by
  have hnodup := h.nodup
  obtain ⟨⟨prev, hcell⟩, hl⟩ := h
  have hsplit : Split heap [(r, a)] [] l (some r) :=
    ⟨⟨_, ⟨prev, hcell⟩, trivial⟩, ⟨none, trivial⟩, hl, fun h => absurd rfl h, hnodup⟩
  obtain ⟨heap₁, t, batch, hloop, hlast, h₁⟩ :=
    splitLoop_eq hsplit mem_cons_self hp (lastOr_concat (l := []))
  obtain ⟨hdisjoint, -⟩ := h₁.disjoint
  obtain ⟨⟨q₁, hgroup⟩, ⟨q₂, hrest⟩, -, hbatch, hnodup'⟩ := h₁
  rw [append_nil, map_append, nodup_append'] at hnodup'
  -- the two lists are ended
  obtain ⟨heap₂, hset₂, hgroup₂, hframe₂⟩ := hgroup.endAt hnodup'.1 none
  have hrest₂ := hrest.frame hframe₂ hdisjoint
  obtain ⟨heap₃, hset₃, hrest₃, hframe₃⟩ := hrest₂.endAt hnodup'.2.1 none
  have hgroup₃ := hgroup₂.frame hframe₃ fun s hs hs' => hdisjoint s hs' hs
  refine ⟨heap₃, fun fuel hfuel => ?_, hgroup₃, hrest₃⟩
  have hset₂ : setNext heap₁ t none = some heap₂ := by rwa [hlast] at hset₂
  have hbatch' : (if lastOr ([] ++ l.filter fun c => !p c) none = none then none else batch) =
      firstOr (l.filter fun c => !p c) none := by
    rw [nil_append] at hbatch ⊢
    rcases eq_nil_or_concat' (l.filter fun c => !p c) with hnil | ⟨l', ⟨s, b⟩, hl'⟩
    · rw [hnil]
      rfl
    · rw [← hbatch (by rw [hl']; simp), hl', lastOr_concat, if_neg (some_ne_none _)]
  rw [splitMailBatch, hcell, bind_some]
  have hstart : splitLoop gran_to r fuel heap r none (some r) (firstOr l none) = _ :=
    hloop fuel hfuel
  rw [hstart, bind_some]
  dsimp only
  rw [hset₂, bind_some, setRest_eq hset₃, hbatch']
  rfl

/-! ## The mails of a worker -/

theorem nodesFrom_eq (h : Path heap l none) {fuel : ℕ} (hfuel : l.length < fuel) :
    nodesFrom fuel heap (firstOr l none) = some l := by
  induction l generalizing fuel with
  | nil =>
    obtain ⟨fuel, rfl⟩ := exists_fuel hfuel
    rfl
  | cons c l ih =>
    obtain ⟨fuel, rfl⟩ := exists_fuel hfuel
    obtain ⟨⟨prev, hcell⟩, hl⟩ := h
    rw [firstOr_cons, nodesFrom, hcell, bind_some, ih hl (Nat.lt_of_succ_lt_succ hfuel)]
    rfl

/-- The mails for the groups of a batch. -/
def sentGroups {κ : Type} [DecidableEq κ] (key : ℕ × MailMsg → κ) (l : List (ℕ × MailMsg)) :
    List Sent := (groups key l).filterMap sentGroup

/-- **A worker sends the groups of its batch**, in their order. -/
theorem sendWorker_eq {κ : Type} [DecidableEq κ] (key : ℕ × MailMsg → κ) (h : Path heap l none)
    (hkey : ∀ c ∈ l, ∀ d ∈ l, sameGranRecipients gran_to c.2 d.2 = decide (key d = key c))
    (sent : List Sent) :
    ∃ heap', ∀ fuel > l.length + 1, sendWorker gran_to fuel heap (firstOr l none) sent =
      some (heap', sent ++ sentGroups key l) := by
  induction l using groupsRec key generalizing heap sent with
  | nil =>
    refine ⟨heap, fun fuel hfuel => ?_⟩
    obtain ⟨fuel, rfl⟩ := exists_fuel hfuel
    rw [firstOr_nil, sendWorker, sentGroups, groups_nil, filterMap_nil, append_nil]
  | cons c l ih =>
    obtain ⟨r, a⟩ := c
    have hsame : ∀ d ∈ l, sameGranRecipients gran_to a d.2 = decide (key d = key (r, a)) :=
      fun d hd => hkey _ mem_cons_self d (mem_cons_of_mem _ hd)
    obtain ⟨heap₁, hsplit, hgroup, hrest⟩ := splitMailBatch_eq h hsame
    set group := (r, a) :: l.filter fun d => decide (key d = key (r, a))
    have hothers : (l.filter fun d => !decide (key d = key (r, a))) =
        l.filter (key · ≠ key (r, a)) := filter_congr fun d _ => (decide_not).symm
    rw [hothers] at hrest hsplit
    set others := l.filter (key · ≠ key (r, a)) with hothersdef
    have hlen : group.length ≤ l.length + 1 := Nat.succ_le_succ (length_filter_le ..)
    have hlen' : others.length ≤ l.length := length_filter_le ..
    have hmem : ∀ d ∈ others, d ∈ (r, a) :: l := fun d hd =>
      mem_cons_of_mem _ (mem_filter.mp hd).1
    -- the mails of the group are freed, the rest is as it was
    have hdisjoint : ∀ s ∈ others.map Prod.fst, s ∉ group.map Prod.fst := by
      have hnodup := (((filter_append_perm key (r, a) l).cons (r, a)).map Prod.fst).nodup_iff.mpr
        h.nodup
      rw [← cons_append, map_append, nodup_append'] at hnodup
      exact fun s hs hs' => hnodup.2.2 hs' hs
    obtain ⟨heap', hworker⟩ := ih (hrest.frame (frame_freeAll heap₁ group) hdisjoint)
      (fun c hc d hd => hkey c (hmem c hc) d (hmem d hd))
      (sent ++ (sentGroup group).toList)
    refine ⟨heap', fun fuel hfuel => ?_⟩
    rw [length_cons] at hfuel
    obtain ⟨fuel, rfl⟩ := exists_fuel hfuel
    have hnodes : nodesFrom fuel heap₁ (some r) = some group :=
      nodesFrom_eq hgroup (by omega)
    have hsent : sentGroups key ((r, a) :: l) =
        (sentGroup group).toList ++ sentGroups key others := by
      rw [sentGroups, groups_cons, filterMap_cons]
      rfl
    rw [firstOr_cons, sendWorker, hsplit fuel (by omega), bind_some]
    dsimp only
    rw [hnodes, bind_some, hsent, ← append_assoc]
    exact hworker fuel (by omega)

/-! ## The recipients of an alert -/

/-- For every granular recipient, whether the alert is for it. -/
def fullFormat (mail : MailMsg) : Option (List Bool) :=
  mail.gran_set.map fun s => s.marks.map (· == FULL_FORMAT)

variable {b : MailMsg} {entries : List GranEntry}

theorem selected_iff {i : ℕ} :
    Selected i a ↔ (fullFormat a).bind (·[i]?) = some true := by
  rw [Selected, fullFormat]
  cases hset : a.gran_set with
  | none => simp
  | some s =>
    rw [map_some, some.injEq, map_some, bind_some, getElem?_map, getD_eq_getElem?_getD]
    cases s.marks[i]? with
    | none => simp [FULL_FORMAT]
    | some mark => simp

theorem Queued.length_marks (h : Queued (some entries) a) :
    ∃ s, a.gran_set = some s ∧ s.marks.length = entries.length := by
  obtain ⟨al_data, addr, hset⟩ := h
  exact ⟨_, hset, length_map _⟩

theorem Queued.gran_set_eq_none (h : Queued none a) : a.gran_set = none := by
  obtain ⟨al_data, addr, hset⟩ := h
  exact hset

/-- Tables of one length are for the same recipients, if they agree on every recipient. -/
theorem map_mark_eq_iff {s t : List ℕ} (hlen : s.length = t.length) :
    s.map (· == FULL_FORMAT) = t.map (· == FULL_FORMAT) ↔
      ∀ i < s.length, s.getD i 0 = FULL_FORMAT ↔ t.getD i 0 = FULL_FORMAT := by
  constructor
  · intro heq i hi
    have hi₀ := congrArg (·[i]?) heq
    simp only [getElem?_map] at hi₀
    rw [getElem?_eq_getElem hi, getElem?_eq_getElem (hlen ▸ hi), map_some,
      map_some, some.injEq, Bool.eq_iff_iff, beq_iff_eq, beq_iff_eq] at hi₀
    rwa [getD_eq_getElem _ _ hi, getD_eq_getElem _ _ (hlen ▸ hi)]
  · intro hall
    apply ext_getElem
    · rw [length_map, length_map, hlen]
    · intro i hi hi'
      rw [length_map] at hi hi'
      have hi₀ := hall i hi
      rw [getD_eq_getElem _ _ hi, getD_eq_getElem _ _ hi'] at hi₀
      rwa [getElem_map, getElem_map, Bool.eq_iff_iff, beq_iff_eq, beq_iff_eq]

/-- Alerts are compared by what they are for. -/
theorem Queued.sameGranRecipients_eq (ha : Queued gran_to a) (hb : Queued gran_to b) :
    sameGranRecipients gran_to a b = decide (fullFormat b = fullFormat a) := by
  cases gran_to with
  | none =>
    rw [sameGranRecipients.eq_def, fullFormat, fullFormat, ha.gran_set_eq_none, hb.gran_set_eq_none]
    rfl
  | some entries =>
    obtain ⟨s, hs, hlen⟩ := ha.length_marks
    obtain ⟨t, ht, hlen'⟩ := hb.length_marks
    have hst : s.marks.length = t.marks.length := hlen.trans hlen'.symm
    rw [Bool.eq_iff_iff, decide_eq_true_iff, eq_comm (a := fullFormat b), fullFormat, fullFormat,
      sameGranRecipients.eq_def, hs, ht]
    dsimp only [map_some]
    rw [some.injEq, map_mark_eq_iff hst, hlen]
    rw [List.all_eq_true]
    refine forall_congr' fun i => ?_
    rw [mem_range, beq_iff_eq, Bool.eq_iff_iff, beq_iff_eq, beq_iff_eq]

theorem Queued.fullFormat_eq_iff (ha : Queued gran_to a) (hb : Queued gran_to b) :
    fullFormat a = fullFormat b ↔ ∀ i, Selected i a ↔ Selected i b := by
  constructor
  · intro heq i
    rw [selected_iff, selected_iff, heq]
  · intro hsel
    cases gran_to with
    | none => rw [fullFormat, fullFormat, ha.gran_set_eq_none, hb.gran_set_eq_none]
    | some entries =>
      obtain ⟨s, hs, hlen⟩ := ha.length_marks
      obtain ⟨t, ht, hlen'⟩ := hb.length_marks
      simp only [Selected, hs, ht, map_some, some.injEq] at hsel
      rw [fullFormat, fullFormat, hs, ht]
      exact congrArg some ((map_mark_eq_iff (hlen.trans hlen'.symm)).mpr fun i _ => hsel i)

theorem sentGroup_eq (hg : g ≠ []) :
    ∃ s, sentGroup g = some s ∧ s.batch = g ∧
      s.gran_set = g.head?.bind (·.2.gran_set) := by
  cases g with
  | nil => exact absurd rfl hg
  | cons c g => exact ⟨_, rfl, rfl, rfl⟩

section Groups

variable {κ : Type} [DecidableEq κ] {key : ℕ × MailMsg → κ}

theorem map_batch_sentGroups : (sentGroups key l).map Sent.batch = groups key l := by
  rw [sentGroups, map_filterMap]
  have hsome : ∀ g ∈ groups key l, (sentGroup g).map Sent.batch = some g := by
    intro g hg
    obtain ⟨s, hs, hbatch, -⟩ := sentGroup_eq (ne_nil_of_mem_groups hg)
    rw [hs, map_some, hbatch]
  rw [filterMap_congr hsome, filterMap_some]

theorem delivered_sentGroups (i : ℕ) :
    delivered i (sentGroups key l) =
      ((groups key l).filter fun g => g.head?.any fun c => decide (Selected i c.2)).flatten := by
  rw [delivered, ← map_batch_sentGroups, List.filter_map]
  refine congrArg (fun l => (List.map Sent.batch l).flatten) (filter_congr fun s hs => ?_)
  rw [sentGroups, mem_filterMap] at hs
  obtain ⟨g, hg, hs⟩ := hs
  obtain ⟨s', hs', hbatch, hset⟩ := sentGroup_eq (ne_nil_of_mem_groups hg)
  obtain rfl : s' = s := some.inj (hs'.symm.trans hs)
  rw [Function.comp_apply, hbatch, hset]
  cases g with
  | nil => exact absurd rfl (ne_nil_of_mem_groups hg)
  | cons c g => rfl

end Groups

/-- **Mail routing**: the mails of a worker have every alert of the batch once, in its order; the
alerts of a mail have the same recipients, alerts with the same recipients are in one mail, the
mails stand in the order of their first alerts, and every granular recipient gets the alerts that
were selected for it. -/
theorem routing_law (gran_to : Option (List GranEntry)) (heap : Heap ℕ MailMsg)
    (batch : List (ℕ × MailMsg)) (h : Path heap batch none)
    (hqueued : ∀ c ∈ batch, Queued gran_to c.2) :
    ∃ heap' sent,
      (∀ fuel > batch.length + 1,
        sendWorker gran_to fuel heap (firstOr batch none) [] = some (heap', sent)) ∧
      (sent.map Sent.batch).flatten.Perm batch ∧
      (∀ s ∈ sent, s.batch ≠ [] ∧ s.batch.Sublist batch ∧
        ∀ c ∈ s.batch, ∀ d ∈ s.batch, ∀ i, Selected i c.2 ↔ Selected i d.2) ∧
      (∀ c ∈ batch, ∀ d ∈ batch, (∀ i, Selected i c.2 ↔ Selected i d.2) →
        ∃ s ∈ sent, c ∈ s.batch ∧ d ∈ s.batch) ∧
      (sent.filterMap (·.batch.head?)).Sublist batch ∧
      ∀ i, (delivered i sent).Perm (batch.filter fun c => decide (Selected i c.2)) := by
  let key : ℕ × MailMsg → Option (List Bool) := fun c => fullFormat c.2
  have hkey : ∀ c ∈ batch, ∀ d ∈ batch,
      sameGranRecipients gran_to c.2 d.2 = decide (key d = key c) :=
    fun c hc d hd => (hqueued c hc).sameGranRecipients_eq (hqueued d hd)
  obtain ⟨heap', hworker⟩ := sendWorker_eq key h hkey []
  refine ⟨heap', sentGroups key batch, hworker, ?_, fun s hs => ?_, fun c hc d hd hsel => ?_, ?_,
    fun i => ?_⟩
  · rw [map_batch_sentGroups]
    exact groups_perm key batch
  · have hg : s.batch ∈ groups key batch := by
      rw [← map_batch_sentGroups]
      exact mem_map_of_mem hs
    have hsub := sublist_of_mem_groups hg
    refine ⟨ne_nil_of_mem_groups hg, hsub, fun c hc d hd => ?_⟩
    rw [← (hqueued c (hsub.subset hc)).fullFormat_eq_iff (hqueued d (hsub.subset hd))]
    have hcd : key c = key d := key_eq_of_mem hg hc hd
    exact hcd
  · obtain ⟨g, hg, hcg, hdg⟩ := @exists_group _ _ _ key _ _ _ hc hd
      (((hqueued c hc).fullFormat_eq_iff (hqueued d hd)).mpr hsel)
    rw [← map_batch_sentGroups, List.mem_map] at hg
    obtain ⟨s, hs, rfl⟩ := hg
    exact ⟨s, hs, hcg, hdg⟩
  · have hheads := heads_sublist key batch
    rwa [← map_batch_sentGroups, filterMap_map] at hheads
  · rw [delivered_sentGroups]
    refine filter_groups (fun c d hcd => ?_) batch
    rw [decide_eq_decide, selected_iff, selected_iff]
    exact Eq.to_iff (congrArg (fun k : Option (List Bool) => k.bind (·[i]?) = some true) hcd)

/-- An entry for the alerts of one rule. -/
def ruleEntry (id : ℕ) : GranEntry where
  gran_to := lit "a@b"
  gran_location := none
  gran_level := 0
  gran_id := some [id]
  gran_group := none
  gran_format := FULL_FORMAT

/-- An alert of one rule, with recipients for the rules 5 and 6. -/
def ruleMail (rule addr : ℕ) : MailMsg :=
  ⟨7, lit "s", lit "b", recvGranSet (some [ruleEntry 5, ruleEntry 6]) ⟨[], 7, rule, none⟩ addr⟩

def ruleBatch : List (ℕ × MailMsg) := [(1, ruleMail 5 11), (2, ruleMail 6 12), (3, ruleMail 5 13)]

def ruleHeap : Heap ℕ MailMsg
  | 1 => some ⟨none, some 2, ruleMail 5 11⟩
  | 2 => some ⟨some 1, some 3, ruleMail 6 12⟩
  | 3 => some ⟨some 2, none, ruleMail 5 13⟩
  | _ => none

/-- The alerts of rule 5, the first one and the last one, are one mail. -/
theorem routing_law_rules :
    ∃ heap' sent,
      (∀ fuel > 4, sendWorker (some [ruleEntry 5, ruleEntry 6]) fuel ruleHeap (some 1) [] =
        some (heap', sent)) ∧
      (delivered 0 sent).Perm [(1, ruleMail 5 11), (3, ruleMail 5 13)] ∧
      (delivered 1 sent).Perm [(2, ruleMail 6 12)] := by
  have hpath : Path ruleHeap ruleBatch none := ⟨⟨_, rfl⟩, ⟨_, rfl⟩, ⟨_, rfl⟩, trivial⟩
  have hqueued : ∀ c ∈ ruleBatch, Queued (some [ruleEntry 5, ruleEntry 6]) c.2 := by
    intro c hc
    rcases mem_cons.mp hc with rfl | hc
    · exact ⟨_, _, rfl⟩
    · rcases mem_cons.mp hc with rfl | hc
      · exact ⟨_, _, rfl⟩
      · obtain rfl := mem_singleton.mp hc
        exact ⟨_, _, rfl⟩
  obtain ⟨heap', sent, hworker, -, -, -, -, hdelivered⟩ :=
    routing_law (some [ruleEntry 5, ruleEntry 6]) ruleHeap ruleBatch hpath hqueued
  exact ⟨heap', sent, hworker, hdelivered 0, hdelivered 1⟩

end Maild
