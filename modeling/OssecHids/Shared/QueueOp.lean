import OssecHids.Lib.Ring
import OssecHids.Lib.Transition

/-!
# Queues between threads

`queue_op.c`. A call is the sections in which it holds the mutex: from the lock to the return or to
the wait, and from the end of a wait to the next one. Threads take these sections in any order, and
a thread that waits may be woken at any time: by a signal, by the broadcast of a shutdown, or by
nothing at all.

- `OsQueue.Holds`: the items in the slots, in the order in which they were pushed;
- `queue_law`: what is pushed is popped once and in order, and what is left is in the queue.
-/

open Transition List Option

/-- `os_queue`; sizes and positions are numbers, of which no sum is over the size. -/
structure OsQueue (α : Type) where
  data : ℕ → Option α := fun _ => none
  begin_ : ℕ := 0
  end_ : ℕ := 0
  size : ℕ
  elements : UInt32 := 0
  shutdown : Bool := false

namespace OsQueue

variable {α T : Type}

/-! ## Sections -/

/-- `os_queue_init` -/
def osQueueInit (size : ℕ) : Option (OsQueue α) := if size < 2 then none else some { size }

/-- `os_queue_shutdown` -/
def osQueueShutdown (queue : OsQueue α) : OsQueue α := { queue with shutdown := true }

/-- `os_queue_full` -/
def osQueueFull (queue : OsQueue α) : Bool := (queue.begin_ + 1) % queue.size == queue.end_

/-- `os_queue_empty` -/
def osQueueEmpty (queue : OsQueue α) : Bool := queue.begin_ == queue.end_

/-- `os_queue_push` -/
def osQueuePush (queue : OsQueue α) (data : α) : ℤ × OsQueue α :=
  if queue.osQueueFull then (-1, queue)
  else
    (0, { queue with
      data := Function.update queue.data queue.begin_ (some data)
      begin_ := (queue.begin_ + 1) % queue.size
      elements := queue.elements + 1 })

/-- `os_queue_pop` -/
def osQueuePop (queue : OsQueue α) : Option α × OsQueue α :=
  if queue.osQueueEmpty then (none, queue)
  else
    (queue.data queue.end_, { queue with
      end_ := (queue.end_ + 1) % queue.size
      elements := queue.elements - 1 })

/-- The loop of `os_queue_free_data`. -/
def freeDataLoop : ℕ → OsQueue α → List α × OsQueue α
  | 0, queue => ([], queue)
  | fuel + 1, queue =>
    match queue.osQueuePop with
    | (none, queue) => ([], queue)
    | (some data, queue) =>
      let r := freeDataLoop fuel queue
      (data :: r.1, r.2)

/-- `os_queue_free_data`, with what is freed. -/
def osQueueFreeData (queue : OsQueue α) : List α × OsQueue α := freeDataLoop queue.size queue

/-- What a thread waits in. -/
inductive Wait (α : Type)
  | pushExBlock (data : α)
  | pushExTimedwait (data : α)
  | popEx
  | popExTimedwait
  deriving DecidableEq, Repr

/-- What a section comes to. -/
inductive Answer (α : Type)
  | pushed (data : Option α) (result : ℤ)
  | popped (data : Option α)
  /-- The wait of a pop has run out. -/
  | timedOut
  | waits (wait : Wait α)
  | freed (data : List α)
  | done
  deriving DecidableEq, Repr

/-- `os_queue_push_ex`, from the lock on. -/
def osQueuePushEx (queue : OsQueue α) (data : α) : Answer α × OsQueue α :=
  if queue.shutdown then (.pushed data (-1), queue)
  else
    let r := queue.osQueuePush data
    (.pushed data r.1, r.2)

/-- The loop of `os_queue_push_ex_block` and `os_queue_push_ex_timedwait`, and what follows. -/
def pushLoop (queue : OsQueue α) (wait : Wait α) (data : α) : Answer α × OsQueue α :=
  if !queue.shutdown && queue.osQueueFull then (.waits wait, queue)
  else queue.osQueuePushEx data

/-- The loop of `os_queue_pop_ex` and `os_queue_pop_ex_timedwait`, and what follows. -/
def popLoop (queue : OsQueue α) (wait : Wait α) : Answer α × OsQueue α :=
  let r := queue.osQueuePop
  if r.1.isNone && !queue.shutdown then (.waits wait, r.2) else (.popped r.1, r.2)

/-- The section in which a thread looks at the queue, again or for the first time. -/
def look (queue : OsQueue α) : Wait α → Answer α × OsQueue α
  | .pushExBlock data => queue.pushLoop (.pushExBlock data) data
  | .pushExTimedwait data => queue.pushLoop (.pushExTimedwait data) data
  | .popEx => queue.popLoop .popEx
  | .popExTimedwait => queue.popLoop .popExTimedwait

/-! ## Threads -/

inductive Call (α : Type)
  | pushEx (data : Option α)
  | pushExBlock (data : Option α)
  | pushExTimedwait (data : Option α)
  | popEx
  | popExTimedwait
  deriving DecidableEq, Repr

/-- The first section of a call; there is none for a null pointer. -/
def enter (queue : OsQueue α) : Call α → Answer α × OsQueue α
  | .pushEx (some data) => queue.osQueuePushEx data
  | .pushExBlock (some data) => queue.look (.pushExBlock data)
  | .pushExTimedwait (some data) => queue.look (.pushExTimedwait data)
  | .pushEx none | .pushExBlock none | .pushExTimedwait none => (.pushed none (-1), queue)
  | .popEx => queue.look .popEx
  | .popExTimedwait => queue.look .popExTimedwait

/-- What a wait comes to that has run out. -/
def expire : Wait α → Option (Answer α)
  | .pushExTimedwait data => some (.pushed data (-1))
  | .popExTimedwait => some .timedOut
  | _ => none

structure State (T α : Type) where
  queue : OsQueue α
  waiting : T → Option (Wait α) := fun _ => none

inductive Input (T α : Type)
  | call (t : T) (c : Call α)
  | wake (t : T)
  | expire (t : T)
  | shutdown
  | freeData

variable [DecidableEq T]

/-- The thread waits or has returned. -/
def State.put (s : State T α) (t : T) (r : Answer α × OsQueue α) : State T α where
  queue := r.2
  waiting := Function.update s.waiting t <|
    match r.1 with
    | .waits wait => some wait
    | _ => none

/-- The section of a thread that does not wait, or of one that does; none, if there is none. -/
def State.step (s : State T α) : Input T α → Option (Answer α × State T α)
  | .call t c =>
    match s.waiting t with
    | some _ => none
    | none => some ((s.queue.enter c).1, s.put t (s.queue.enter c))
  | .wake t => (s.waiting t).map fun wait => ((s.queue.look wait).1, s.put t (s.queue.look wait))
  | .expire t =>
    (s.waiting t).bind fun wait =>
      (OsQueue.expire wait).map fun answer => (answer, s.put t (answer, s.queue))
  | .shutdown => some (.done, { s with queue := s.queue.osQueueShutdown })
  | .freeData =>
    some (.freed s.queue.osQueueFreeData.1, { s with queue := s.queue.osQueueFreeData.2 })

def Step (s : State T α) (l : Input T α × Answer α) (s' : State T α) : Prop :=
  s.step l.1 = some (l.2, s')

/-! ## What is pushed and popped -/

/-- The item that is pushed. -/
def Answer.push : Answer α → Option α
  | .pushed data 0 => data
  | _ => none

/-- The items that are taken out. -/
def Answer.pops : Answer α → List α
  | .popped (some data) => [data]
  | .freed data => data
  | _ => []

/-- What pops return that have looked at the queue. -/
def Answer.results : Answer α → List (Option α)
  | .popped data => [data]
  | .freed data => data.map some ++ [none]
  | _ => []

def pushes (ls : List (Input T α × Answer α)) : List α := ls.filterMap fun l => l.2.push

def pops (ls : List (Input T α × Answer α)) : List α := ls.flatMap fun l => l.2.pops

def results (ls : List (Input T α × Answer α)) : List (Option α) := ls.flatMap fun l => l.2.results

/-- The items in the order in which they were pushed, and then nothing. -/
def Drains : List α → List (Option α) → Prop
  | _, [] => True
  | [], r :: rs => r = none ∧ Drains [] rs
  | data :: items, r :: rs => r = some data ∧ Drains items rs

/-! ## Items -/

/-- The items in the slots, from the first pushed one on. -/
structure Holds (queue : OsQueue α) (items : List α) : Prop where
  end_lt : queue.end_ < queue.size
  length_lt : items.length < queue.size
  begin_eq : queue.begin_ = (queue.end_ + items.length) % queue.size
  window : Ring.Window queue.data queue.size queue.end_ items
  elements : queue.elements = UInt32.ofNat items.length

variable {queue queue' : OsQueue α} {items : List α} {data : α}

theorem holds_osQueueInit {n : ℕ} (h : osQueueInit n = some queue) : queue.Holds [] := by
  rw [osQueueInit] at h
  split_ifs at h with hsize
  cases h
  refine ⟨by dsimp only; omega, by rw [length_nil]; dsimp only; omega, ?_, Ring.window_nil, rfl⟩
  rw [length_nil, Nat.zero_mod]

theorem Holds.osQueueFull_iff (h : queue.Holds items) :
    queue.osQueueFull = true ↔ items.length + 1 = queue.size := by
  rw [osQueueFull, beq_iff_eq, h.begin_eq, Nat.mod_add_mod, Ring.full_iff h.end_lt h.length_lt]

theorem Holds.osQueueEmpty_iff (h : queue.Holds items) :
    queue.osQueueEmpty = true ↔ items = [] := by
  rw [osQueueEmpty, beq_iff_eq, h.begin_eq, Ring.empty_iff h.end_lt h.length_lt, length_eq_zero_iff]

theorem Holds.osQueuePush_full (h : queue.Holds items) (hfull : items.length + 1 = queue.size) :
    queue.osQueuePush data = (-1, queue) := by
  rw [osQueuePush, if_pos (h.osQueueFull_iff.mpr hfull)]

theorem Holds.osQueuePush_room (h : queue.Holds items) (data : α)
    (hroom : items.length + 1 < queue.size) :
    ∃ queue', queue.osQueuePush data = (0, queue') ∧ queue'.Holds (items ++ [data]) ∧
      queue'.size = queue.size ∧ queue'.shutdown = queue.shutdown := by
  have hnot : ¬queue.osQueueFull = true := fun hfull => by
    have hlength := h.osQueueFull_iff.mp hfull
    omega
  refine ⟨_, if_neg hnot, ⟨h.end_lt, ?_, ?_, ?_, ?_⟩, rfl, rfl⟩
  · rwa [length_append, length_singleton]
  · rw [h.begin_eq, Nat.mod_add_mod, length_append, length_singleton, add_assoc]
  · rw [h.begin_eq]
    exact h.window.concat h.length_lt
  · rw [h.elements, length_append, length_singleton, UInt32.ofNat_add]
    rfl

theorem Holds.osQueuePop_nil (h : queue.Holds []) : queue.osQueuePop = (none, queue) := by
  rw [osQueuePop, if_pos (h.osQueueEmpty_iff.mpr rfl)]

theorem Holds.osQueuePop_cons (h : queue.Holds (data :: items)) :
    ∃ queue', queue.osQueuePop = (some data, queue') ∧ queue'.Holds items ∧
      queue'.size = queue.size ∧ queue'.shutdown = queue.shutdown := by
  have hnot : ¬queue.osQueueEmpty = true := fun hempty =>
    cons_ne_nil _ _ (h.osQueueEmpty_iff.mp hempty)
  have hlength := h.length_lt
  rw [length_cons] at hlength
  rw [osQueuePop, if_neg hnot, h.window.head h.end_lt]
  refine ⟨_, rfl, ⟨Nat.mod_lt _ (by omega), by dsimp only; omega, ?_, h.window.tail, ?_⟩, rfl, rfl⟩
  · dsimp only
    rw [h.begin_eq, length_cons, Nat.mod_add_mod, add_assoc, add_comm 1]
  · dsimp only
    rw [h.elements, length_cons, UInt32.ofNat_add]
    exact UInt32.add_sub_cancel _ _

/-! ## What a section does -/

/-- What a section with this answer makes of a queue and its items. -/
inductive Effect (queue : OsQueue α) (items : List α) : Answer α → OsQueue α → List α → Prop
  | refused (data : Option α) : Effect queue items (.pushed data (-1)) queue items
  | pushed {queue' : OsQueue α} (data : α) :
      queue.shutdown = false → items.length + 1 < queue.size → queue'.size = queue.size →
      queue'.shutdown = queue.shutdown → Effect queue items (.pushed data 0) queue' (items ++ [data])
  | nothing : queue.shutdown = true → items = [] → Effect queue items (.popped none) queue items
  | popped {queue' : OsQueue α} {data : α} {rest : List α} :
      items = data :: rest → queue'.size = queue.size → queue'.shutdown = queue.shutdown →
      Effect queue items (.popped data) queue' rest
  | timedOut : Effect queue items .timedOut queue items
  | waits (wait : Wait α) : queue.shutdown = false → Effect queue items (.waits wait) queue items
  | freed {queue' : OsQueue α} : queue'.size = queue.size → queue'.shutdown = queue.shutdown →
      Effect queue items (.freed items) queue' []
  | done : Effect queue items .done queue.osQueueShutdown items

/-- A section has an effect, and the items it leaves are in the queue. -/
def HasEffect (queue : OsQueue α) (items : List α) (r : Answer α × OsQueue α) : Prop :=
  ∃ items', Effect queue items r.1 r.2 items' ∧ r.2.Holds items'

theorem Holds.osQueuePushEx (h : queue.Holds items) (data : α) :
    HasEffect queue items (queue.osQueuePushEx data) := by
  rw [OsQueue.osQueuePushEx]
  split_ifs with hshutdown
  · exact ⟨items, .refused _, h⟩
  · rcases lt_or_eq_of_le (Nat.succ_le_of_lt h.length_lt) with hroom | hfull
    · obtain ⟨queue', heq, hholds, hsize, hsame⟩ := h.osQueuePush_room data hroom
      rw [heq]
      exact ⟨_, .pushed data (by simpa using hshutdown) hroom hsize hsame, hholds⟩
    · rw [h.osQueuePush_full hfull]
      exact ⟨items, .refused _, h⟩

theorem Holds.pushLoop (h : queue.Holds items) (wait : Wait α) (data : α) :
    HasEffect queue items (queue.pushLoop wait data) := by
  rw [OsQueue.pushLoop]
  split_ifs with hwaits
  · rw [Bool.and_eq_true, Bool.not_eq_true'] at hwaits
    exact ⟨items, .waits wait hwaits.1, h⟩
  · exact h.osQueuePushEx data

theorem Holds.popLoop (h : queue.Holds items) (wait : Wait α) :
    HasEffect queue items (queue.popLoop wait) := by
  rw [OsQueue.popLoop]
  cases items with
  | nil =>
    rw [h.osQueuePop_nil]
    cases hshutdown : queue.shutdown with
    | false => exact ⟨[], .waits wait hshutdown, h⟩
    | true => exact ⟨[], .nothing hshutdown rfl, h⟩
  | cons data items =>
    obtain ⟨queue', heq, hholds, hsize, hsame⟩ := h.osQueuePop_cons
    rw [heq]
    exact ⟨items, .popped rfl hsize hsame, hholds⟩

theorem Holds.look (h : queue.Holds items) (wait : Wait α) :
    HasEffect queue items (queue.look wait) := by
  cases wait with
  | pushExBlock data => exact h.pushLoop _ data
  | pushExTimedwait data => exact h.pushLoop _ data
  | popEx => exact h.popLoop _
  | popExTimedwait => exact h.popLoop _

theorem Holds.enter (h : queue.Holds items) (c : Call α) :
    HasEffect queue items (queue.enter c) := by
  cases c with
  | pushEx data =>
    cases data with
    | none => exact ⟨items, .refused _, h⟩
    | some data => exact h.osQueuePushEx data
  | pushExBlock data =>
    cases data with
    | none => exact ⟨items, .refused _, h⟩
    | some data => exact h.look _
  | pushExTimedwait data =>
    cases data with
    | none => exact ⟨items, .refused _, h⟩
    | some data => exact h.look _
  | popEx => exact h.look _
  | popExTimedwait => exact h.look _

theorem Holds.freeDataLoop (h : queue.Holds items) {fuel : ℕ} (hfuel : items.length < fuel) :
    ∃ queue', freeDataLoop fuel queue = (items, queue') ∧ queue'.Holds [] ∧
      queue'.size = queue.size ∧ queue'.shutdown = queue.shutdown := by
  induction items generalizing queue fuel with
  | nil =>
    obtain ⟨fuel, rfl⟩ := Nat.exists_eq_add_one.mpr hfuel
    refine ⟨queue, ?_, h, rfl, rfl⟩
    rw [OsQueue.freeDataLoop, h.osQueuePop_nil]
  | cons data items ih =>
    obtain ⟨fuel, rfl⟩ := Nat.exists_eq_add_one.mpr (lt_of_le_of_lt (Nat.zero_le _) hfuel)
    obtain ⟨queue₁, hpop, h₁, hsize₁, hsame₁⟩ := h.osQueuePop_cons
    obtain ⟨queue', hloop, h', hsize, hsame⟩ := ih h₁ (Nat.lt_of_succ_lt_succ hfuel)
    refine ⟨queue', ?_, h', hsize.trans hsize₁, hsame.trans hsame₁⟩
    rw [OsQueue.freeDataLoop, hpop]
    dsimp only
    rw [hloop]

/-- Whatever section a thread takes has an effect. -/
theorem Holds.step {s s' : State T α} {l : Input T α × Answer α} (h : s.queue.Holds items)
    (hstep : Step s l s') : HasEffect s.queue items (l.2, s'.queue) := by
  obtain ⟨input, answer⟩ := l
  rw [Step] at hstep
  cases input with
  | call t c =>
    rw [State.step] at hstep
    cases hwaiting : s.waiting t with
    | some wait =>
      rw [hwaiting] at hstep
      cases hstep
    | none =>
      rw [hwaiting] at hstep
      cases hstep
      exact h.enter c
  | wake t =>
    obtain ⟨wait, -, heq⟩ := map_eq_some_iff.mp hstep
    cases heq
    exact h.look wait
  | expire t =>
    obtain ⟨wait, -, hexpire⟩ := bind_eq_some_iff.mp hstep
    obtain ⟨answer', hanswer, heq⟩ := map_eq_some_iff.mp hexpire
    cases heq
    cases wait with
    | pushExTimedwait data =>
      cases hanswer
      exact ⟨items, .refused _, h⟩
    | popExTimedwait =>
      cases hanswer
      exact ⟨items, .timedOut, h⟩
    | pushExBlock data => cases hanswer
    | popEx => cases hanswer
  | shutdown =>
    cases hstep
    exact ⟨items, .done, { h with }⟩
  | freeData =>
    cases hstep
    obtain ⟨queue', hloop, h', hsize, hsame⟩ := h.freeDataLoop h.length_lt
    rw [osQueueFreeData, hloop]
    exact ⟨[], .freed hsize hsame, h'⟩

/-! ## Runs -/

theorem Effect.law {answer : Answer α} {items' : List α}
    (h : Effect queue items answer queue' items') :
    items ++ answer.push.toList = answer.pops ++ items' := by
  cases h with
  | refused data => exact append_nil _
  | pushed data => rfl
  | nothing => exact append_nil _
  | popped hitems =>
    rw [hitems]
    exact append_nil _
  | timedOut => exact append_nil _
  | waits wait => exact append_nil _
  | freed => rfl
  | done => exact append_nil _

theorem Effect.size {answer : Answer α} {items' : List α}
    (h : Effect queue items answer queue' items') : queue'.size = queue.size := by
  cases h <;> first | rfl | assumption

theorem Effect.shutdown {answer : Answer α} {items' : List α}
    (h : Effect queue items answer queue' items') (hshutdown : queue.shutdown = true) :
    queue'.shutdown = true := by
  cases h with
  | pushed _ _ _ _ hsame => exact hsame.trans hshutdown
  | popped _ _ hsame => exact hsame.trans hshutdown
  | freed _ hsame => exact hsame.trans hshutdown
  | done => rfl
  | _ => exact hshutdown

variable {s s' : State T α} {ls : List (Input T α × Answer α)}

theorem Holds.run (h : s.queue.Holds items) (hrun : Run Step s ls s') :
    ∃ items', s'.queue.Holds items' ∧ s'.queue.size = s.queue.size ∧
      items ++ pushes ls = pops ls ++ items' := by
  induction hrun generalizing items with
  | nil s => exact ⟨items, h, rfl, append_nil _⟩
  | @cons s s₁ s' l ls hstep _ ih =>
    obtain ⟨items₁, heffect, h₁⟩ := h.step hstep
    obtain ⟨items', h', hsize, hlaw⟩ := ih h₁
    refine ⟨items', h', hsize.trans heffect.size, ?_⟩
    have hpushes : pushes (l :: ls) = l.2.push.toList ++ pushes ls := by
      rw [pushes, filterMap_cons]
      cases l.2.push <;> rfl
    have hpops : pops (l :: ls) = l.2.pops ++ pops ls := flatMap_cons
    rw [hpushes, ← append_assoc, heffect.law, append_assoc, hlaw, hpops, append_assoc]

theorem drains_append (items rest : List α) (rs : List (Option α)) :
    Drains (items ++ rest) (items.map some ++ rs) ↔ Drains rest rs := by
  induction items with
  | nil => exact Iff.rfl
  | cons data items ih =>
    rw [cons_append, map_cons, cons_append, Drains, ih, and_iff_right rfl]

theorem Effect.drains {answer : Answer α} {items' : List α}
    (h : Effect queue items answer queue' items') (hshutdown : queue.shutdown = true)
    {rs : List (Option α)} (hrest : Drains items' rs) :
    Drains items (answer.results ++ rs) ∧ ∀ wait, answer ≠ .waits wait := by
  cases h with
  | refused data => exact ⟨hrest, fun _ => nofun⟩
  | pushed data hopen =>
    rw [hshutdown] at hopen
    cases hopen
  | nothing _ hitems =>
    subst hitems
    exact ⟨⟨rfl, hrest⟩, fun _ => nofun⟩
  | popped hitems =>
    subst hitems
    exact ⟨⟨rfl, hrest⟩, fun _ => nofun⟩
  | timedOut => exact ⟨hrest, fun _ => nofun⟩
  | waits wait hopen =>
    rw [hshutdown] at hopen
    cases hopen
  | freed =>
    refine ⟨?_, fun _ => nofun⟩
    have hnext : Drains [] (none :: rs) := ⟨rfl, hrest⟩
    have hall := (drains_append items [] (none :: rs)).mpr hnext
    rw [append_nil] at hall
    rw [Answer.results, append_assoc]
    exact hall
  | done => exact ⟨hrest, fun _ => nofun⟩

/-- A push that fails, and a section that waits, leave the queue as it is. -/
theorem Effect.unchanged {answer : Answer α} {items' : List α}
    (h : Effect queue items answer queue' items') :
    (items.length + 1 = queue.size ∨ queue.shutdown = true →
      ∀ data result, answer = .pushed data result → result = -1) ∧
    ((∃ data, answer = .pushed data (-1)) ∨ (∃ wait, answer = .waits wait) → queue' = queue) := by
  cases h with
  | refused data =>
    refine ⟨fun _ data result heq => ?_, fun _ => rfl⟩
    exact (Answer.pushed.inj heq).2.symm
  | pushed data hopen hroom =>
    refine ⟨fun hnot => ?_, ?_⟩
    · rcases hnot with hfull | hshutdown
      · omega
      · rw [hshutdown] at hopen
        cases hopen
    · rintro (⟨_, heq⟩ | ⟨_, heq⟩)
      · exact absurd (Answer.pushed.inj heq).2 (by decide)
      · cases heq
  | waits wait => exact ⟨fun _ _ _ => nofun, fun _ => rfl⟩
  | _ => exact ⟨fun _ _ _ => nofun, by rintro (⟨_, ⟨⟩⟩ | ⟨_, ⟨⟩⟩)⟩

/-- Behind a shutdown, what looks at the queue gets the items in it, and then nothing. -/
theorem Holds.drains (h : s.queue.Holds items) (hshutdown : s.queue.shutdown = true)
    (hrun : Run Step s ls s') :
    Drains items (results ls) ∧ ∀ l ∈ ls, ∀ wait, l.2 ≠ .waits wait := by
  induction hrun generalizing items with
  | nil s => exact ⟨by cases items <;> trivial, fun l hl => absurd hl not_mem_nil⟩
  | @cons s s₁ s' l ls hstep _ ih =>
    obtain ⟨items₁, heffect, h₁⟩ := h.step hstep
    obtain ⟨hdrains, hwaits⟩ := ih h₁ (heffect.shutdown hshutdown)
    obtain ⟨hdrains, hwait⟩ := heffect.drains hshutdown hdrains
    exact ⟨hdrains, forall_mem_cons.mpr ⟨hwait, hwaits⟩⟩

/-- What is popped is what was pushed, in order, up to what is still in the queue, and the count is
the way from one position to the other. A push on a full queue or behind a shutdown fails; what
fails or waits leaves the queue as it is. Behind a shutdown nothing waits, and what looks at the
queue gets what is left. -/
theorem queue_law {n : ℕ} (hinit : osQueueInit n = some queue) (hmax : n ≤ 2 ^ 32)
    (hrun : Run Step { queue } ls s) :
    ∃ items, s.queue.Holds items ∧ pushes ls = pops ls ++ items ∧
      (s.queue.elements.toNat = (s.queue.begin_ + n - s.queue.end_) % n ∧
        s.queue.elements.toNat ≤ n - 1) ∧
      (∀ l s', Step s l s' →
        (s.queue.osQueueFull = true ∨ s.queue.shutdown = true →
          ∀ data result, l.2 = .pushed data result → result = -1) ∧
        ((∃ data, l.2 = .pushed data (-1)) ∨ (∃ wait, l.2 = .waits wait) →
          s'.queue = s.queue)) ∧
      (s.queue.shutdown = true → ∀ ls' s', Run Step s ls' s' →
        Drains items (results ls') ∧ ∀ l ∈ ls', ∀ wait, l.2 ≠ .waits wait) := by
  have hsize₀ : queue.size = n := by
    rw [osQueueInit] at hinit
    split_ifs at hinit
    rw [← some.inj hinit]
  obtain ⟨items, h, hsize, hlaw⟩ := (holds_osQueueInit hinit).run hrun
  have hn : s.queue.size = n := hsize.trans hsize₀
  have hlt : items.length < n := hn ▸ h.length_lt
  have helements : s.queue.elements.toNat = items.length := by
    rw [h.elements, UInt32.toNat_ofNat_of_lt']
    exact Nat.lt_of_lt_of_le hlt hmax
  refine ⟨items, h, hlaw, ⟨?_, ?_⟩, fun l s' hstep => ?_, fun hshutdown ls' s' hrun' =>
    h.drains hshutdown hrun'⟩
  · rw [helements, h.begin_eq, hn, Ring.distance_eq (hn ▸ h.end_lt) hlt]
  · rw [helements]
    omega
  · obtain ⟨items', heffect, -⟩ := h.step hstep
    rw [h.osQueueFull_iff]
    exact heffect.unchanged

/-- A thread fills a queue. -/
theorem Holds.exists_run_pushEx (h : s.queue.Holds items) (hopen : s.queue.shutdown = false)
    {t : T} (hidle : s.waiting t = none) (data : α) {k : ℕ}
    (hroom : items.length + k < s.queue.size) :
    ∃ s', Run Step s (List.replicate k (.call t (.pushEx (some data)), .pushed (some data) 0)) s' ∧
      s'.queue.Holds (items ++ List.replicate k data) ∧ s'.queue.size = s.queue.size := by
  induction k generalizing s items with
  | zero => exact ⟨s, .nil s, by rwa [replicate_zero, append_nil], rfl⟩
  | succ k ih =>
    obtain ⟨queue', hpush, h', hsize, hsame⟩ := h.osQueuePush_room data (by omega)
    have henter : s.queue.enter (.pushEx (some data)) = (.pushed data 0, queue') := by
      rw [OsQueue.enter, OsQueue.osQueuePushEx, hopen, if_neg Bool.false_ne_true, hpush]
    have hstep : Step s (.call t (.pushEx (some data)), .pushed (some data) 0)
        (s.put t (.pushed data 0, queue')) := by
      rw [Step, State.step, hidle]
      rw [henter]
    have hlength : (items ++ [data]).length + k < queue'.size := by
      rw [length_append, length_singleton, hsize]
      omega
    obtain ⟨s', hrun, hholds, hsize'⟩ := ih (s := s.put t (.pushed data 0, queue')) h'
      (hsame.trans hopen) (Function.update_self ..) hlength
    refine ⟨s', .cons hstep hrun, ?_, hsize'.trans hsize⟩
    rwa [append_assoc, singleton_append, ← replicate_succ] at hholds

theorem exists_run_full {k : ℕ} (hk : 0 < k) :
    ∃ (ls : List (Input ℕ ℕ × Answer ℕ)) (s : State ℕ ℕ),
      Run Step { queue := { size := k + 1 } } ls s ∧ s.queue.elements.toNat = k % 2 ^ 32 ∧
        (s.queue.begin_ + (k + 1) - s.queue.end_) % (k + 1) = k := by
  have hinit : osQueueInit (α := ℕ) (k + 1) = some { size := k + 1 } := if_neg (by omega)
  obtain ⟨s, hrun, h, hsize⟩ := Holds.exists_run_pushEx (s := { queue := { size := k + 1 } })
    (holds_osQueueInit hinit) rfl (t := 0) rfl 7 (k := k) (by simp)
  have hlength : ([] ++ List.replicate k 7).length = k := by
    rw [nil_append, length_replicate]
  have hdistance := Ring.distance_eq h.end_lt h.length_lt
  rw [← h.begin_eq, hsize, hlength] at hdistance
  refine ⟨_, s, hrun, ?_, hdistance⟩
  rw [h.elements, hlength, UInt32.toNat_ofNat']

/-- A thread that waits for an item, and the shutdown. -/
theorem queue_law_two :
    ∃ s : State ℕ ℕ, Run Step { queue := { size := 2 } }
        [(.call 0 (.pushEx (some 7)), .pushed (some 7) 0), (.call 1 .popEx, .popped (some 7)),
          (.call 1 .popEx, .waits .popEx), (.shutdown, .done), (.wake 1, .popped none)] s ∧
      ∃ items, s.queue.Holds items ∧ [7] = [7] ++ items := by
  have hrun : ∃ s : State ℕ ℕ, Run Step { queue := { size := 2 } }
      [(.call 0 (.pushEx (some 7)), .pushed (some 7) 0), (.call 1 .popEx, .popped (some 7)),
        (.call 1 .popEx, .waits .popEx), (.shutdown, .done), (.wake 1, .popped none)] s :=
    ⟨_, .cons rfl (.cons rfl (.cons rfl (.cons rfl (.cons rfl (.nil _)))))⟩
  obtain ⟨s, hrun⟩ := hrun
  obtain ⟨items, h, hlaw, -⟩ := queue_law (n := 2) rfl (by decide) hrun
  exact ⟨s, hrun, items, h, hlaw⟩

/-- The count of a queue with more than `2 ^ 32` slots wraps, and the wait of a pop that runs out
behind the shutdown leaves what is in the queue. -/
theorem not_queue_law :
    (∃ (ls : List (Input ℕ ℕ × Answer ℕ)) (s : State ℕ ℕ),
      Run Step { queue := { size := 2 ^ 32 + 1 } } ls s ∧
        s.queue.elements.toNat ≠
          (s.queue.begin_ + (2 ^ 32 + 1) - s.queue.end_) % (2 ^ 32 + 1)) ∧
    ∃ s s' : State ℕ ℕ, Run Step { queue := { size := 2 } }
        [(.call 1 .popExTimedwait, .waits .popExTimedwait),
          (.call 0 (.pushEx (some 7)), .pushed (some 7) 0), (.shutdown, .done)] s ∧
      s.queue.Holds [7] ∧ Step s (.expire 1, .timedOut) s' := by
  constructor
  · obtain ⟨ls, s, hrun, hcount, hdistance⟩ := exists_run_full (k := 2 ^ 32) (by decide)
    refine ⟨ls, s, hrun, ?_⟩
    rw [hcount, hdistance]
    decide
  · have hrun : ∃ s : State ℕ ℕ, Run Step { queue := { size := 2 } }
        [(.call 1 .popExTimedwait, .waits .popExTimedwait),
          (.call 0 (.pushEx (some 7)), .pushed (some 7) 0), (.shutdown, .done)] s ∧
        s.waiting 1 = some .popExTimedwait :=
      ⟨_, .cons rfl (.cons rfl (.cons rfl (.nil _))), rfl⟩
    obtain ⟨s, hrun, hwaiting⟩ := hrun
    have hinit : osQueueInit (α := ℕ) 2 = some { size := 2 } := rfl
    obtain ⟨items, h, -, hlaw⟩ := (holds_osQueueInit hinit).run (s := { queue := { size := 2 } }) hrun
    have hitems : [7] = items := hlaw
    have hstep : Step s (.expire 1, .timedOut) (s.put 1 (.timedOut, s.queue)) := by
      rw [Step, State.step, hwaiting]
      rfl
    exact ⟨s, _, hrun, hitems ▸ h, hstep⟩

end OsQueue
