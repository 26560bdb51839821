import OssecHids.Lib.LinkedList
import OssecHids.Lib.Threads
import OssecHids.Lib.Transition

/-!
# The thread pool

The critical sections of a pool of worker threads, in any order. A task is handed from
`thread_pool_submit` to a worker over a linked list; the counters beside the list are kept under
the same lock.

- `next`: one critical section;
- `Invariant.step`: what every one of them keeps;
- `threadPool_law`: what this means for the tasks and for the callers that wait.
-/

open LinkedList Transition Threads List Option

namespace ThreadPool

/-- `thread_pool_task`: the handler with its argument, and the link. -/
structure Task (A : Type) where
  task : A
  next : Option ℕ

/-- A thread in `thread_pool_worker`. -/
inductive Worker (A : Type)
  /-- At the tests of `shutdown` and `head`. -/
  | ready
  /-- In `os_cond_wait`. -/
  | blocked
  | running (task : A)
  | exited

namespace Worker

variable {A : Type}

def isBlocked : Worker A → Bool
  | blocked => true
  | _ => false

def isExited : Worker A → Bool
  | exited => true
  | _ => false

def task? : Worker A → Option A
  | running task => some task
  | _ => none

def wake : Worker A → Worker A
  | blocked => ready
  | w => w

end Worker

/-- A caller of `thread_pool_wait_idle`. -/
inductive Waiter
  /-- In `pthread_cond_timedwait`. -/
  | blocked
  | woken
  | returned (ret : ℤ)
  deriving DecidableEq

def Waiter.wake : Waiter → Waiter
  | blocked => woken
  | w => w

/-- `thread_pool`, its threads, and the callers that wait. -/
structure Pool (A : Type) where
  max_tasks : ℤ
  active_workers : ℤ := 0
  pending : ℤ := 0
  idle_drop_claims : ℤ := 0
  shutdown : Bool := false
  head : Option ℕ := none
  tail : Option ℕ := none
  heap : ℕ → Option (Task A) := fun _ => none
  workers : List (Worker A)
  waiters : List Waiter := []
  /-- The list was flushed, and the pool is freed. -/
  destroyed : Bool := false
  /-- The tasks that were accepted, taken by a worker, run to their end, and dropped. -/
  accepted : List A := []
  started : List A := []
  finished : List A := []
  dropped : List A := []

/-- What takes the lock next. -/
inductive Event (A : Type)
  /-- `thread_pool_submit`: the address of the new node, and the worker that is signalled. -/
  | submit (a : A) (task signalled : Option ℕ)
  /-- A worker tests for a task. -/
  | worker (i : ℕ)
  /-- A worker has run its task. -/
  | finish (i : ℕ)
  /-- `os_cond_wait` returns without a signal. -/
  | spurious (i : ℕ)
  | shouldDropIdle
  /-- `thread_pool_wait_idle` is called. -/
  | waitIdle
  /-- A caller that was woken tests again. -/
  | retest (j : ℕ)
  /-- `pthread_cond_timedwait` returns without a broadcast. -/
  | spuriousWait (j : ℕ)
  /-- The time is over, or there was an error. -/
  | expire (j : ℕ) (ret : ℤ)
  | destroy
  /-- `thread_pool_flush_pending` takes the first task. -/
  | flush
  | flushed

namespace Pool

variable {A : Type} (pool : Pool A)

def start (A : Type) (max_workers : ℕ) (max_tasks : ℤ) : Pool A :=
  { max_tasks, workers := List.replicate max_workers .ready }

/-! ## The queue -/

/-- The new node is linked behind the last one. -/
def enqueue (a : A) (task : ℕ) : Option (Pool A) :=
  let heap := Function.update pool.heap task (some ⟨a, none⟩)
  let pool := { pool with pending := pool.pending + 1, accepted := pool.accepted ++ [a] }
  match pool.tail with
  | some tail =>
    (heap tail).map fun node =>
      { pool with heap := Function.update heap tail (some { node with next := some task })
                  tail := some task }
  | none => some { pool with heap, head := some task, tail := some task }

/-- The first node is taken out; it is the taker's own from here on. A claim is retired with it. -/
def pop : Option (A × Pool A) :=
  pool.head.bind fun task =>
    (pool.heap task).map fun node =>
      (node.task, { pool with
        heap := Function.update pool.heap task none
        head := node.next
        pending := pool.pending - 1
        idle_drop_claims :=
          if pool.idle_drop_claims > 0 then pool.idle_drop_claims - 1
          else pool.idle_drop_claims })

/-! ## The critical sections -/

/-- `os_cond_signal`: one of the blocked workers is woken, if there is one. -/
def signal (signalled : Option ℕ) : Option (Pool A) :=
  match signalled with
  | some i =>
    (pool.workers[i]?).bind fun w =>
      if w.isBlocked then some { pool with workers := pool.workers.set i .ready } else none
  | none => if pool.workers.any Worker.isBlocked then none else some pool

/-- `thread_pool_submit`. The task is refused at shutdown, at the limit, and without memory. -/
def submit (a : A) (task signalled : Option ℕ) : Option (Pool A) :=
  if pool.shutdown then some pool
  else if pool.max_tasks > 0 ∧ pool.active_workers + pool.pending ≥ pool.max_tasks then some pool
  else
    match task with
    | none => some pool
    | some task =>
      if (pool.heap task).isSome then none
      else (pool.enqueue a task).bind fun pool => pool.signal signalled

/-- The test at the start of the loop of `thread_pool_worker`. -/
def worker (i : ℕ) : Option (Pool A) :=
  (pool.workers[i]?).bind fun
    | .ready =>
      if pool.shutdown then some { pool with workers := pool.workers.set i .exited }
      else if pool.head = none then some { pool with workers := pool.workers.set i .blocked }
      else
        pool.pop.map fun (task, pool) =>
          { pool with
            tail := if pool.head = none then none else pool.tail
            active_workers := pool.active_workers + 1
            workers := pool.workers.set i (.running task)
            started := pool.started ++ [task] }
    | _ => none

/-- The end of the loop of `thread_pool_worker`, with the broadcast to those who wait. -/
def finish (i : ℕ) : Option (Pool A) :=
  (pool.workers[i]?).bind fun
    | .running task =>
      let active_workers := pool.active_workers - 1
      some { pool with
        active_workers
        workers := pool.workers.set i .ready
        finished := pool.finished ++ [task]
        waiters := if active_workers = 0 ∧ pool.pending = 0 then pool.waiters.map Waiter.wake
                   else pool.waiters }
    | _ => none

def spurious (i : ℕ) : Option (Pool A) :=
  (pool.workers[i]?).map fun w => { pool with workers := pool.workers.set i w.wake }

/-- `thread_pool_should_drop_idle` -/
def shouldDropIdle : Pool A :=
  if pool.pending > pool.idle_drop_claims then
    { pool with idle_drop_claims := pool.idle_drop_claims + 1 }
  else pool

/-- The test of the loop of `thread_pool_wait_idle`. -/
def testIdle : Waiter :=
  if pool.active_workers > 0 ∨ pool.pending > 0 then .blocked else .returned 0

def waitIdle : Pool A := { pool with waiters := pool.waiters ++ [pool.testIdle] }

def retest (j : ℕ) : Option (Pool A) :=
  if pool.waiters[j]? = some .woken then
    some { pool with waiters := pool.waiters.set j pool.testIdle }
  else none

def spuriousWait (j : ℕ) : Option (Pool A) :=
  (pool.waiters[j]?).map fun w => { pool with waiters := pool.waiters.set j w.wake }

def expire (j : ℕ) (ret : ℤ) : Option (Pool A) :=
  if pool.waiters[j]? = some .woken ∨ pool.waiters[j]? = some .blocked then
    some { pool with waiters := pool.waiters.set j (.returned ret) }
  else none

/-- `thread_pool_destroy` -/
def destroy : Option (Pool A) :=
  if pool.shutdown then none
  else some { pool with shutdown := true, workers := pool.workers.map Worker.wake }

/-- The threads are joined before `thread_pool_flush_pending`. -/
def flush : Option (Pool A) :=
  if pool.shutdown ∧ pool.workers.all Worker.isExited then
    pool.pop.map fun (task, pool) => { pool with dropped := pool.dropped ++ [task] }
  else none

def flushed : Option (Pool A) :=
  if pool.shutdown ∧ pool.workers.all Worker.isExited ∧ pool.head = none then
    some { pool with tail := none, idle_drop_claims := 0, destroyed := true }
  else none

def next : Event A → Option (Pool A)
  | .submit a task signalled => pool.submit a task signalled
  | .worker i => pool.worker i
  | .finish i => pool.finish i
  | .spurious i => pool.spurious i
  | .shouldDropIdle => some pool.shouldDropIdle
  | .waitIdle => some pool.waitIdle
  | .retest j => pool.retest j
  | .spuriousWait j => pool.spuriousWait j
  | .expire j ret => pool.expire j ret
  | .destroy => pool.destroy
  | .flush => pool.flush
  | .flushed => pool.flushed

/-- A critical section of a pool that is not freed. -/
def Step (pool : Pool A) (e : Event A) (pool' : Pool A) : Prop :=
  pool.destroyed = false ∧ pool.next e = some pool'

/-- The tasks that are running. -/
def running : List A := pool.workers.filterMap Worker.task?

end Pool

open Pool

/-! ## What every critical section keeps -/

variable {A : Type} {pool pool' : Pool A} {q : List (ℕ × Task A)} {i : ℕ} {m : ℤ}

/-- The nodes of the queue are `q`, and `max_tasks` is `m`. -/
structure Invariant (m : ℤ) (pool : Pool A) (q : List (ℕ × Task A)) : Prop where
  chain : Chain pool.heap Task.next pool.head q
  tail : pool.shutdown = false → pool.tail = q.getLast?.map Prod.fst
  pending : pool.pending = q.length
  claims_nonneg : 0 ≤ pool.idle_drop_claims
  claims_le : pool.idle_drop_claims ≤ pool.pending
  active : pool.active_workers = pool.running.length
  max_tasks : pool.max_tasks = m
  limit : m > 0 → pool.active_workers + pool.pending ≤ m
  accepted : pool.accepted = pool.started ++ pool.dropped ++ q.map (·.2.task)
  finished : (pool.finished ++ pool.running).Perm pool.started
  dropped : pool.shutdown = false → pool.dropped = []
  exited : pool.shutdown = false → pool.workers.any Worker.isExited = false
  workers_ne_nil : pool.workers ≠ []
  /-- A task that waits has a worker that comes to it. -/
  awake : pool.shutdown = false → q ≠ [] → ∃ w ∈ pool.workers, w.isBlocked = false
  /-- Nobody sleeps while the pool is shut down. -/
  unblocked : pool.shutdown = true → pool.workers.any Worker.isBlocked = false
  /-- Nobody waits for a pool that is idle. -/
  idle : pool.shutdown = false → pool.active_workers = 0 → q = [] → .blocked ∉ pool.waiters
  /-- Nothing is left of a pool that is freed. -/
  destroyed : pool.destroyed = true → pool.shutdown = true ∧ q = [] ∧ pool.running = []

theorem invariant_start {n : ℕ} (hn : 0 < n) (hmax : 0 ≤ m) :
    Invariant m (start A n m) [] where
  chain := .nil
  tail _ := rfl
  pending := rfl
  claims_nonneg := Int.le_refl 0
  claims_le := Int.le_refl 0
  active := by
    rw [running, start, filterMap_replicate_of_none rfl]
    rfl
  max_tasks := rfl
  limit _ := hmax
  accepted := rfl
  finished := by
    rw [running, start, filterMap_replicate_of_none rfl]
    exact .nil
  dropped _ := rfl
  exited _ := by
    rw [List.any_eq_false]
    intro w hw
    rw [eq_of_mem_replicate hw]
    exact Bool.false_ne_true
  workers_ne_nil h := by
    have hlength := congrArg List.length h
    rw [start, length_replicate, length_nil] at hlength
    exact hn.ne' hlength
  awake _ h := absurd rfl h
  unblocked h := absurd h Bool.false_ne_true
  idle _ _ _ := not_mem_nil
  destroyed h := absurd h Bool.false_ne_true

theorem running_set {w : Worker A} (h : pool.workers[i]? = some w) (w' : Worker A) :
    ∃ l₁ l₂, pool.running = l₁ ++ w.task?.toList ++ l₂ ∧
      (pool.workers.set i w').filterMap Worker.task? = l₁ ++ w'.task?.toList ++ l₂ := by
  obtain ⟨l₁, l₂, hl, hset, -⟩ := exists_split h
  have hcons : ∀ v : Worker A, (l₁ ++ v :: l₂).filterMap Worker.task? =
      l₁.filterMap Worker.task? ++ v.task?.toList ++ l₂.filterMap Worker.task? := by
    intro v
    rw [filterMap_append, filterMap_cons, append_assoc]
    cases v.task? <;> rfl
  refine ⟨l₁.filterMap Worker.task?, l₂.filterMap Worker.task?, ?_, ?_⟩
  · rw [running, hl, hcons]
  · rw [hset, hcons]

theorem any_set {p : Worker A → Bool} {w : Worker A} (h : pool.workers[i]? = some w)
    (w' : Worker A) (hp : p w' = p w) : (pool.workers.set i w').any p = pool.workers.any p := by
  obtain ⟨l₁, l₂, hl, hset, -⟩ := exists_split h
  rw [hset, hl, any_append, any_append, any_cons, any_cons, hp]

/-! ### The queue -/

theorem Invariant.pop_eq {r : ℕ} {n : Task A} (h : Invariant m pool ((r, n) :: q)) :
    pool.pop = some (n.task, { pool with
      heap := Function.update pool.heap r none
      head := n.next
      pending := pool.pending - 1
      idle_drop_claims :=
        if pool.idle_drop_claims > 0 then pool.idle_drop_claims - 1
        else pool.idle_drop_claims }) := by
  have hcell : pool.heap r = some n := h.chain.cell _ mem_cons_self
  have hhead : pool.head = some r := h.chain.head
  rw [pop, hhead, bind_some, hcell, map_some]

theorem Invariant.claims_pop {c : ℕ × Task A} (h : Invariant m pool (c :: q)) :
    let claims := if pool.idle_drop_claims > 0 then pool.idle_drop_claims - 1
      else pool.idle_drop_claims
    0 ≤ claims ∧ claims ≤ pool.pending - 1 ∧ pool.pending - 1 = q.length := by
  have hnonneg := h.claims_nonneg
  have hle := h.claims_le
  have hpending : pool.pending = (q.length + 1 : ℕ) := h.pending
  dsimp only
  split_ifs <;> omega

theorem Invariant.concat (h : Invariant m pool q) (hopen : pool.shutdown = false) {tail : ℕ}
    (htail : pool.tail = some tail) : ∃ l n, q = l ++ [(tail, n)] := by
  rw [h.tail hopen] at htail
  obtain rfl | ⟨l, ⟨r, n⟩, rfl⟩ := eq_nil_or_concat' q
  · cases htail
  · rw [getLast?_concat] at htail
    cases htail
    exact ⟨l, n, rfl⟩

/-- What a submission does, apart from the worker that is signalled. -/
theorem Invariant.enqueue (h : Invariant m pool q) (hopen : pool.shutdown = false)
    (hlimit : pool.max_tasks > 0 → pool.active_workers + pool.pending < pool.max_tasks) (a : A)
    {task : ℕ} (hnew : pool.heap task = none) :
    ∃ heap head tail q', pool.enqueue a task = some { pool with
        heap, head, tail, pending := pool.pending + 1, accepted := pool.accepted ++ [a] } ∧
      Chain heap Task.next head q' ∧ tail = q'.getLast?.map Prod.fst ∧
      q'.map (·.2.task) = q.map (·.2.task) ++ [a] := by
  have hfresh : task ∉ q.map Prod.fst := by
    intro hmem
    obtain ⟨c, hc, rfl⟩ := mem_map.mp hmem
    rw [h.chain.cell c hc] at hnew
    cases hnew
  rw [Pool.enqueue]
  cases htail : pool.tail with
  | none =>
    have hq : q = [] := by
      have hlast := h.tail hopen
      rw [htail, eq_comm, map_eq_none_iff] at hlast
      exact getLast?_eq_none_iff.mp hlast
    subst hq
    exact ⟨_, _, _, [(task, ⟨a, none⟩)], rfl, .cons (Function.update_self ..) .nil, rfl, rfl⟩
  | some tail =>
    obtain ⟨l, n, rfl⟩ := h.concat hopen htail
    have hne : tail ≠ task := by
      rintro rfl
      exact hfresh (by simp)
    have hcell : Function.update pool.heap task (some ⟨a, none⟩) tail = some n := by
      rw [Function.update_of_ne hne]
      exact h.chain.cell (tail, n) (by simp)
    have hchain : Chain (Function.update (Function.update pool.heap task (some ⟨a, none⟩)) tail
        (some { n with next := some task })) Task.next pool.head
        (l ++ [(tail, { n with next := some task }), (task, ⟨a, none⟩)]) :=
      h.chain.concat hfresh rfl rfl
    refine ⟨_, pool.head, some task, _, ?_, hchain, ?_, ?_⟩
    · dsimp only
      rw [hcell, map_some]
    · rw [getLast?_append]
      rfl
    · simp

/-! ### The critical sections -/

theorem running_wake (l : List (Worker A)) :
    (l.map Worker.wake).filterMap Worker.task? = l.filterMap Worker.task? := by
  rw [filterMap_map]
  apply filterMap_congr
  rintro (_ | _ | _ | _) _ <;> rfl

/-- A signal leaves a worker that is not blocked, and changes nothing else. -/
theorem signal_eq_some {signalled : Option ℕ} (hworkers : pool.workers ≠ [])
    (h : pool.signal signalled = some pool') :
    ∃ workers, pool' = { pool with workers } ∧
      workers.filterMap Worker.task? = pool.running ∧
      workers.any Worker.isExited = pool.workers.any Worker.isExited ∧
      ∃ w ∈ workers, w.isBlocked = false := by
  rw [signal.eq_def] at h
  cases signalled with
  | none =>
    dsimp only at h
    split_ifs at h with hblocked
    cases h
    obtain ⟨w, hw⟩ := exists_mem_of_ne_nil _ hworkers
    rw [Bool.not_eq_true, List.any_eq_false] at hblocked
    exact ⟨pool.workers, rfl, rfl, rfl, w, hw, Bool.eq_false_iff.mpr (hblocked w hw)⟩
  | some i =>
    obtain ⟨w, hw, h⟩ := bind_eq_some_iff.mp h
    split_ifs at h with hblocked
    cases h
    have hw' : w = .blocked := by
      cases w <;> first | rfl | cases hblocked
    obtain ⟨l₁, l₂, hrunning, hset⟩ := running_set hw .ready
    refine ⟨_, rfl, ?_, any_set hw _ ?_, .ready, ?_, rfl⟩
    · rw [hset, hrunning, hw']
      rfl
    · rw [hw']
      rfl
    · obtain ⟨l₁, l₂, -, hset, -⟩ := exists_split hw
      rw [hset]
      exact mem_append_right _ mem_cons_self

theorem Invariant.submit (h : Invariant m pool q) {a : A} {task signalled : Option ℕ}
    (hstep : pool.submit a task signalled = some pool') : ∃ q', Invariant m pool' q' := by
  rw [Pool.submit.eq_def] at hstep
  split_ifs at hstep with hshut hfull
  · exact ⟨q, some.inj hstep ▸ h⟩
  · exact ⟨q, some.inj hstep ▸ h⟩
  cases task with
  | none => exact ⟨q, some.inj hstep ▸ h⟩
  | some task =>
    dsimp only at hstep
    split_ifs at hstep with hnew
    have hopen : pool.shutdown = false := Bool.eq_false_iff.mpr hshut
    have hroom : pool.max_tasks > 0 → pool.active_workers + pool.pending < pool.max_tasks :=
      fun hmax => not_le.mp fun hge => hfull ⟨hmax, hge⟩
    obtain ⟨heap, head, tail, q', henqueue, hchain, htail, htasks⟩ :=
      h.enqueue hopen hroom a (not_isSome_iff_eq_none.mp hnew)
    have hlength : q'.length = q.length + 1 := by
      simpa using congrArg List.length htasks
    have hpending := h.pending
    have hclaims := h.claims_le
    rw [henqueue, bind_some] at hstep
    obtain ⟨workers, rfl, hrunning, hexited, hawake⟩ :=
      signal_eq_some (by exact h.workers_ne_nil) hstep
    have hq' : q' ≠ [] := ne_nil_of_length_eq_add_one hlength
    exact ⟨q', {
      chain := hchain
      tail := fun _ => htail
      pending := by
        show pool.pending + 1 = (q'.length : ℤ)
        rw [hlength]
        omega
      claims_nonneg := h.claims_nonneg
      claims_le := show pool.idle_drop_claims ≤ pool.pending + 1 by omega
      active := by
        show pool.active_workers = ((workers.filterMap Worker.task?).length : ℤ)
        rw [hrunning, h.active]
        rfl
      max_tasks := h.max_tasks
      limit := fun hmax => by
        show pool.active_workers + (pool.pending + 1) ≤ m
        have hlt := hroom (h.max_tasks ▸ hmax)
        rw [h.max_tasks] at hlt
        omega
      accepted := by
        show pool.accepted ++ [a] = pool.started ++ pool.dropped ++ q'.map (·.2.task)
        rw [htasks, ← append_assoc, ← h.accepted]
      finished := by
        show (pool.finished ++ workers.filterMap Worker.task?).Perm pool.started
        rw [hrunning]
        exact h.finished
      dropped := h.dropped
      exited := fun _ => hexited.trans (h.exited hopen)
      workers_ne_nil := by
        obtain ⟨w, hw, -⟩ := hawake
        exact ne_nil_of_mem hw
      awake := fun _ _ => hawake
      unblocked := fun hs => absurd hs hshut
      idle := fun _ _ hq => absurd hq hq'
      destroyed := fun hd => absurd (h.destroyed hd).1 hshut }⟩

/-- A worker goes to sleep, exits, or takes the first task. -/
theorem Invariant.worker (h : Invariant m pool q) (hstep : pool.worker i = some pool') :
    ∃ q', Invariant m pool' q' := by
  rw [Pool.worker] at hstep
  obtain ⟨w, hw, hstep⟩ := bind_eq_some_iff.mp hstep
  cases w with
  | blocked => cases hstep
  | running => cases hstep
  | exited => cases hstep
  | ready =>
    dsimp only at hstep
    have hne : ∀ w', pool.workers.set i w' ≠ [] := fun w' hnil =>
      h.workers_ne_nil ((set_eq_nil_iff _ _).mp hnil)
    split_ifs at hstep with hshut hhead
    · cases hstep
      obtain ⟨l₁, l₂, hrunning, hset⟩ := running_set hw .exited
      have hsame : (pool.workers.set i .exited).filterMap Worker.task? = pool.running := by
        rw [hset, hrunning]
        rfl
      exact ⟨q, { h with
        tail := fun hopen => h.tail hopen
        active := by
          show pool.active_workers = (((pool.workers.set i .exited).filterMap _).length : ℤ)
          rw [hsame, h.active]
        finished := by
          show (pool.finished ++ (pool.workers.set i .exited).filterMap _).Perm pool.started
          rw [hsame]
          exact h.finished
        exited := fun hopen => absurd hshut (Bool.eq_false_iff.mp hopen)
        workers_ne_nil := hne _
        awake := fun hopen => absurd hshut (Bool.eq_false_iff.mp hopen)
        unblocked := fun hs => (any_set hw .exited rfl).trans (h.unblocked hs)
        destroyed := fun hd => ⟨hshut, (h.destroyed hd).2.1, hsame.trans (h.destroyed hd).2.2⟩ }⟩
    · cases hstep
      obtain ⟨l₁, l₂, hrunning, hset⟩ := running_set hw .blocked
      have hsame : (pool.workers.set i .blocked).filterMap Worker.task? = pool.running := by
        rw [hset, hrunning]
        rfl
      exact ⟨q, { h with
        active := by
          show pool.active_workers = (((pool.workers.set i .blocked).filterMap _).length : ℤ)
          rw [hsame, h.active]
        finished := by
          show (pool.finished ++ (pool.workers.set i .blocked).filterMap _).Perm pool.started
          rw [hsame]
          exact h.finished
        exited := fun hopen => (any_set hw .blocked rfl).trans (h.exited hopen)
        workers_ne_nil := hne _
        awake := fun _ hq => absurd (h.chain.eq_none_iff.mp hhead) hq
        unblocked := fun hs => absurd hs hshut
        destroyed := fun hd => absurd (h.destroyed hd).1 hshut }⟩
    · cases q with
      | nil => exact absurd (h.chain.eq_none_iff.mpr rfl) hhead
      | cons c q =>
        obtain ⟨r, n⟩ := c
        rw [h.pop_eq, map_some] at hstep
        cases hstep
        obtain ⟨l₁, l₂, hrunning, hset⟩ := running_set hw (.running n.task)
        obtain ⟨hnonneg, hle, hpending⟩ := h.claims_pop
        have hopen : pool.shutdown = false := Bool.eq_false_iff.mpr hshut
        have hdropped := h.dropped hopen
        have hchain := h.chain.unlink_head
        have hmem : .running n.task ∈ pool.workers.set i (.running n.task) := by
          obtain ⟨l₁, l₂, -, hset, -⟩ := exists_split hw
          rw [hset]
          exact mem_append_right _ mem_cons_self
        exact ⟨q, {
          chain := hchain
          tail := fun _ => by
            show (if n.next = none then none else pool.tail) = q.getLast?.map Prod.fst
            by_cases hlast : q = []
            case pos =>
              rw [if_pos (hchain.eq_none_iff.mpr hlast), hlast]
              rfl
            case neg =>
              rw [if_neg (fun hnone => hlast (hchain.eq_none_iff.mp hnone)), h.tail hopen,
                getLast?_cons_of_ne_nil hlast]
          pending := hpending
          claims_nonneg := hnonneg
          claims_le := hle
          active := by
            have hactive := h.active
            rw [hrunning] at hactive
            show pool.active_workers + 1 = (((pool.workers.set i _).filterMap _).length : ℤ)
            rw [hset, hactive]
            simp [Worker.task?]
            omega
          max_tasks := h.max_tasks
          limit := fun hmax => by
            show pool.active_workers + 1 + (pool.pending - 1) ≤ m
            have hlimit := h.limit hmax
            omega
          accepted := by
            show pool.accepted = pool.started ++ [n.task] ++ pool.dropped ++ q.map (·.2.task)
            rw [h.accepted, hdropped]
            simp
          finished := by
            have hfinished := h.finished
            rw [hrunning] at hfinished
            show (pool.finished ++ (pool.workers.set i _).filterMap _).Perm
              (pool.started ++ [n.task])
            rw [hset]
            have hmove : (pool.finished ++ (l₁ ++ [n.task] ++ l₂)).Perm
                (pool.finished ++ (l₁ ++ [] ++ l₂) ++ [n.task]) := by
              simpa using (perm_middle.trans (perm_append_singleton _ _).symm).append_left
                pool.finished
            exact hmove.trans (hfinished.append_right _)
          dropped := fun _ => hdropped
          exited := fun _ => (any_set hw (.running n.task) rfl).trans (h.exited hopen)
          workers_ne_nil := hne _
          awake := fun _ _ => ⟨_, hmem, rfl⟩
          unblocked := fun hs => absurd hs hshut
          idle := fun _ hactive _ => by
            have hrun : pool.active_workers = (pool.running.length : ℤ) := h.active
            have hzero : pool.active_workers + 1 = 0 := hactive
            omega
          destroyed := fun hd => absurd (h.destroyed hd).1 hshut }⟩

/-- The end of a task wakes those who wait when nothing is left. -/
theorem Invariant.finish (h : Invariant m pool q) (hstep : pool.finish i = some pool') :
    Invariant m pool' q := by
  rw [Pool.finish] at hstep
  obtain ⟨w, hw, hstep⟩ := bind_eq_some_iff.mp hstep
  cases w with
  | ready => cases hstep
  | blocked => cases hstep
  | exited => cases hstep
  | running task =>
    cases hstep
    obtain ⟨l₁, l₂, hrunning, hset⟩ := running_set hw .ready
    have hactive := h.active
    have hfinished := h.finished
    rw [hrunning] at hactive hfinished
    have hmem : .ready ∈ pool.workers.set i .ready := by
      obtain ⟨l₁, l₂, -, hset, -⟩ := exists_split hw
      rw [hset]
      exact mem_append_right _ mem_cons_self
    exact { h with
      active := by
        show pool.active_workers - 1 = (((pool.workers.set i .ready).filterMap _).length : ℤ)
        rw [hset, hactive]
        simp [Worker.task?]
        omega
      limit := fun hmax => by
        show pool.active_workers - 1 + pool.pending ≤ m
        have hlimit := h.limit hmax
        omega
      finished := by
        show (pool.finished ++ [task] ++ (pool.workers.set i .ready).filterMap _).Perm pool.started
        rw [hset]
        have hmove : (pool.finished ++ [task] ++ (l₁ ++ [] ++ l₂)).Perm
            (pool.finished ++ (l₁ ++ [task] ++ l₂)) := by
          simpa using perm_middle.symm.append_left pool.finished
        exact hmove.trans hfinished
      exited := fun hopen => (any_set hw .ready rfl).trans (h.exited hopen)
      workers_ne_nil := ne_nil_of_mem hmem
      awake := fun _ _ => ⟨_, hmem, rfl⟩
      unblocked := fun hs => (any_set hw .ready rfl).trans (h.unblocked hs)
      idle := fun _ hzero hq => by
        -- every caller that was blocked is woken
        have hpending : pool.pending = 0 := by rw [h.pending, hq]; rfl
        have hzero : pool.active_workers - 1 = 0 := hzero
        show .blocked ∉ (if _ then _ else _ : List Waiter)
        rw [if_pos ⟨hzero, hpending⟩]
        intro hmem
        obtain ⟨w, -, hw⟩ := mem_map.mp hmem
        cases w <;> cases hw
      destroyed := fun hd => by
        have hnone := (h.destroyed hd).2.2
        rw [hrunning] at hnone
        simp [Worker.task?] at hnone }

/-- A change of the workers that leaves what they run. -/
theorem Invariant.workers (h : Invariant m pool q) {workers : List (Worker A)}
    (hrunning : workers.filterMap Worker.task? = pool.running)
    (hexited : workers.any Worker.isExited = pool.workers.any Worker.isExited)
    (hne : workers ≠ [])
    (hblocked : pool.workers.any Worker.isBlocked = false → workers.any Worker.isBlocked = false)
    (hawake : (∃ w ∈ pool.workers, w.isBlocked = false) → ∃ w ∈ workers, w.isBlocked = false) :
    Invariant m { pool with workers } q :=
  { h with
    active := by
      show pool.active_workers = ((workers.filterMap Worker.task?).length : ℤ)
      rw [hrunning, h.active]
    finished := by
      show (pool.finished ++ workers.filterMap Worker.task?).Perm pool.started
      rw [hrunning]
      exact h.finished
    exited := fun hopen => hexited.trans (h.exited hopen)
    workers_ne_nil := hne
    awake := fun hopen hq => hawake (h.awake hopen hq)
    unblocked := fun hs => hblocked (h.unblocked hs)
    destroyed := fun hd => by
      obtain ⟨hshut, hq, hnone⟩ := h.destroyed hd
      exact ⟨hshut, hq, hrunning.trans hnone⟩ }

theorem Invariant.waiters (h : Invariant m pool q) {waiters : List Waiter}
    (hidle : .blocked ∈ waiters → .blocked ∈ pool.waiters ∨ pool.testIdle = .blocked) :
    Invariant m { pool with waiters } q :=
  { h with
    idle := fun hopen hactive hq hmem => by
      have hpending := h.pending
      rw [hq] at hpending
      have hzero : pool.pending = 0 := hpending
      have hactive : pool.active_workers = 0 := hactive
      rcases hidle hmem with hblocked | htest
      · exact h.idle hopen hactive hq hblocked
      · rw [testIdle, hactive, hzero, if_neg (by decide)] at htest
        cases htest }

theorem Invariant.shouldDropIdle (h : Invariant m pool q) : Invariant m pool.shouldDropIdle q := by
  rw [Pool.shouldDropIdle]
  split_ifs with hmore
  · have hnonneg := h.claims_nonneg
    exact { h with
      claims_nonneg := show 0 ≤ pool.idle_drop_claims + 1 by omega
      claims_le := show pool.idle_drop_claims + 1 ≤ pool.pending by omega }
  · exact h

theorem Invariant.destroy (h : Invariant m pool q) (hstep : pool.destroy = some pool') :
    Invariant m pool' q := by
  rw [Pool.destroy] at hstep
  split_ifs at hstep with hshut
  cases hstep
  exact { h with
    tail := fun hopen => absurd hopen (by simp)
    active := by
      show pool.active_workers = (((pool.workers.map Worker.wake).filterMap _).length : ℤ)
      rw [running_wake, h.active]
      rfl
    finished := by
      show (pool.finished ++ (pool.workers.map Worker.wake).filterMap _).Perm pool.started
      rw [running_wake]
      exact h.finished
    dropped := fun hopen => absurd hopen (by simp)
    exited := fun hopen => absurd hopen (by simp)
    workers_ne_nil := fun hnil => h.workers_ne_nil (map_eq_nil_iff.mp hnil)
    awake := fun hopen => absurd hopen (by simp)
    unblocked := fun _ => by
      rw [List.any_eq_false]
      intro w hw
      obtain ⟨v, -, rfl⟩ := mem_map.mp hw
      cases v <;> exact Bool.false_ne_true
    idle := fun hopen => absurd hopen (by simp)
    destroyed := fun hd => absurd (h.destroyed hd).1 hshut }

theorem running_of_exited (h : pool.workers.all Worker.isExited = true) : pool.running = [] := by
  rw [running, filterMap_eq_nil_iff]
  intro w hw
  have hexited := all_eq_true.mp h w hw
  cases w with
  | exited => rfl
  | ready => cases hexited
  | blocked => cases hexited
  | running => cases hexited

theorem Invariant.flush (h : Invariant m pool q) (hstep : pool.flush = some pool') :
    ∃ q', Invariant m pool' q' := by
  rw [Pool.flush] at hstep
  split_ifs at hstep with hjoined
  have hopen : pool.shutdown ≠ false := Bool.ne_false_iff.mpr hjoined.1
  cases q with
  | nil =>
    rw [pop, h.chain.eq_none_iff.mpr rfl] at hstep
    cases hstep
  | cons c q =>
    obtain ⟨r, n⟩ := c
    rw [h.pop_eq, map_some] at hstep
    cases hstep
    obtain ⟨hnonneg, hle, hpending⟩ := h.claims_pop
    exact ⟨q, { h with
      chain := h.chain.unlink_head
      tail := fun hf => absurd hf hopen
      pending := hpending
      claims_nonneg := hnonneg
      claims_le := hle
      limit := fun hmax => by
        show pool.active_workers + (pool.pending - 1) ≤ m
        have hlimit := h.limit hmax
        omega
      accepted := by
        show pool.accepted = pool.started ++ (pool.dropped ++ [n.task]) ++ q.map (·.2.task)
        rw [h.accepted]
        simp
      dropped := fun hf => absurd hf hopen
      awake := fun hf => absurd hf hopen
      idle := fun hf => absurd hf hopen
      destroyed := fun hd => absurd (h.destroyed hd).2.1 (cons_ne_nil _ _) }⟩

theorem Invariant.flushed (h : Invariant m pool q) (hstep : pool.flushed = some pool') :
    Invariant m pool' q := by
  rw [Pool.flushed] at hstep
  split_ifs at hstep with hjoined
  cases hstep
  have hopen : pool.shutdown ≠ false := Bool.ne_false_iff.mpr hjoined.1
  have hnonneg := h.claims_nonneg
  have hle := h.claims_le
  exact { h with
    tail := fun hf => absurd hf hopen
    claims_nonneg := Int.le_refl 0
    claims_le := hnonneg.trans hle
    destroyed := fun _ =>
      ⟨hjoined.1, h.chain.eq_none_iff.mp hjoined.2.2, running_of_exited hjoined.2.1⟩ }

theorem Invariant.spurious (h : Invariant m pool q) (hstep : pool.spurious i = some pool') :
    Invariant m pool' q := by
  rw [Pool.spurious, map_eq_some_iff] at hstep
  obtain ⟨w, hw, rfl⟩ := hstep
  obtain ⟨l₁, l₂, hrunning, hset⟩ := running_set hw w.wake
  obtain ⟨m₁, m₂, hl, hset', -⟩ := exists_split hw
  apply h.workers
  · rw [hset, hrunning]
    cases w <;> rfl
  · exact any_set hw _ (by cases w <;> rfl)
  · rw [hset']
    simp
  · intro hfalse
    rw [hl, any_append, any_cons, Bool.or_eq_false_iff, Bool.or_eq_false_iff] at hfalse
    rw [hset', any_append, any_cons, hfalse.1, hfalse.2.2]
    cases w <;> rfl
  · rintro ⟨v, hv, hawake⟩
    rw [hl, mem_append, mem_cons] at hv
    rw [hset']
    rcases hv with hv | rfl | hv
    · exact ⟨v, mem_append_left _ hv, hawake⟩
    · refine ⟨v.wake, mem_append_right _ mem_cons_self, ?_⟩
      cases v <;> rfl
    · exact ⟨v, mem_append_right _ (mem_cons_of_mem _ hv), hawake⟩

/-- **Every critical section** keeps the pool well formed. -/
theorem Invariant.step {e : Event A} (h : Invariant m pool q) (hstep : Step pool e pool') :
    ∃ q', Invariant m pool' q' := by
  obtain ⟨-, hstep⟩ := hstep
  cases e with
  | submit a task signalled => exact h.submit hstep
  | worker i => exact h.worker hstep
  | finish i => exact ⟨q, h.finish hstep⟩
  | spurious i => exact ⟨q, h.spurious hstep⟩
  | shouldDropIdle => exact ⟨q, some.inj hstep ▸ h.shouldDropIdle⟩
  | waitIdle =>
    cases hstep
    refine ⟨q, h.waiters fun hmem => ?_⟩
    rw [mem_append, mem_singleton] at hmem
    exact hmem.imp_right Eq.symm
  | retest j =>
    have hretest : pool.retest j = some pool' := hstep
    rw [Pool.retest] at hretest
    split_ifs at hretest
    cases hretest
    exact ⟨q, h.waiters fun hmem => (mem_or_eq_of_mem_set hmem).imp_right Eq.symm⟩
  | spuriousWait j =>
    have hwait : pool.spuriousWait j = some pool' := hstep
    rw [Pool.spuriousWait, map_eq_some_iff] at hwait
    obtain ⟨w, -, rfl⟩ := hwait
    refine ⟨q, h.waiters fun hmem => (mem_or_eq_of_mem_set hmem).imp_right fun heq => ?_⟩
    cases w <;> cases heq
  | expire j ret =>
    have hexpire : pool.expire j ret = some pool' := hstep
    rw [Pool.expire] at hexpire
    split_ifs at hexpire
    cases hexpire
    refine ⟨q, h.waiters fun hmem => (mem_or_eq_of_mem_set hmem).imp_right fun heq => ?_⟩
    cases heq
  | destroy => exact ⟨q, h.destroy hstep⟩
  | flush => exact h.flush hstep
  | flushed => exact ⟨q, h.flushed hstep⟩

/-! ## Runs -/

/-- What is meant to hold of a pool, with at most `m` tasks if `m` is positive. -/
structure Holds (m : ℤ) (pool : Pool A) : Prop where
  /-- The tasks that were accepted are those that were started, those that were dropped and those
  in the queue, in this order. -/
  queue : ∃ q, Chain pool.heap Task.next pool.head q ∧ pool.pending = q.length ∧
    pool.accepted = pool.started ++ pool.dropped ++ q.map (·.2.task)
  /-- A task that was started is running or was run, once. -/
  once : pool.started.Perm (pool.finished ++ pool.running)
  active : pool.active_workers = pool.running.length
  dropped : pool.dropped ≠ [] → pool.shutdown = true
  destroyed : pool.destroyed = true →
    pool.accepted = pool.started ++ pool.dropped ∧ pool.started.Perm pool.finished
  limit : m > 0 → pool.active_workers + pool.pending ≤ m
  claims : 0 ≤ pool.idle_drop_claims ∧ pool.idle_drop_claims ≤ pool.pending
  idle : pool.shutdown = false → pool.active_workers = 0 → pool.pending = 0 →
    .blocked ∉ pool.waiters
  /-- While tasks wait, some worker takes one or ends. -/
  progress : pool.shutdown = false → 0 < pool.pending → ∃ i pool',
    pool.next (.worker i) = some pool' ∧ pool'.started.length = pool.started.length + 1 ∨
    pool.next (.finish i) = some pool'
  /-- `thread_pool_destroy` comes to its end. -/
  closing : pool.shutdown = true → ∃ e ∈ [.flush, .flushed] ++ (List.range pool.workers.length).map
    .worker ++ (List.range pool.workers.length).map .finish, (pool.next e).isSome
  /-- No pointer is null where it is followed. -/
  submits : ∀ a task, pool.heap task = none →
    ∃ signalled, (pool.next (.submit a (some task) signalled)).isSome

theorem isSome_finish {task : A} (h : pool.workers[i]? = some (.running task)) :
    (pool.finish i).isSome := by
  rw [Pool.finish, h, bind_some]
  rfl

/-- A signal is always possible. -/
theorem exists_signal (pool : Pool A) : ∃ signalled, (pool.signal signalled).isSome := by
  by_cases hblocked : pool.workers.any Worker.isBlocked = true
  case pos =>
    obtain ⟨w, hw, hblock⟩ := any_eq_true.mp hblocked
    obtain ⟨i, hi⟩ := getElem?_of_mem hw
    refine ⟨some i, ?_⟩
    rw [signal.eq_def]
    dsimp only
    rw [hi, bind_some, if_pos hblock]
    rfl
  case neg =>
    refine ⟨none, ?_⟩
    rw [signal.eq_def]
    dsimp only
    rw [if_neg hblocked]
    rfl

theorem Invariant.submits (h : Invariant m pool q) (a : A) {task : ℕ}
    (hnew : pool.heap task = none) :
    ∃ signalled, (pool.next (.submit a (some task) signalled)).isSome := by
  by_cases hshut : pool.shutdown = true
  · refine ⟨none, ?_⟩
    rw [Pool.next, Pool.submit.eq_def, if_pos hshut]
    rfl
  by_cases hfull : pool.max_tasks > 0 ∧ pool.active_workers + pool.pending ≥ pool.max_tasks
  · refine ⟨none, ?_⟩
    rw [Pool.next, Pool.submit.eq_def, if_neg hshut, if_pos hfull]
    rfl
  have hroom : pool.max_tasks > 0 → pool.active_workers + pool.pending < pool.max_tasks :=
    fun hmax => not_le.mp fun hge => hfull ⟨hmax, hge⟩
  obtain ⟨heap, head, tail, q', henqueue, -⟩ :=
    h.enqueue (Bool.eq_false_iff.mpr hshut) hroom a hnew
  obtain ⟨signalled, hsignal⟩ := exists_signal { pool with
    heap, head, tail, pending := pool.pending + 1, accepted := pool.accepted ++ [a] }
  refine ⟨signalled, ?_⟩
  rw [Pool.next, Pool.submit.eq_def, if_neg hshut, if_neg hfull]
  dsimp only
  rw [hnew, if_neg (by simp), henqueue, bind_some]
  exact hsignal

theorem Invariant.progress (h : Invariant m pool q) (hopen : pool.shutdown = false)
    (hpending : 0 < pool.pending) : ∃ i pool',
      pool.next (.worker i) = some pool' ∧ pool'.started.length = pool.started.length + 1 ∨
      pool.next (.finish i) = some pool' := by
  have hlength := h.pending
  cases q with
  | nil => exact absurd hlength hpending.ne'
  | cons c q =>
    obtain ⟨w, hw, hawake⟩ := h.awake hopen (cons_ne_nil _ _)
    obtain ⟨i, hi⟩ := getElem?_of_mem hw
    cases w with
    | ready =>
      have htake : (pool.worker i).map Pool.started = some (pool.started ++ [c.2.task]) := by
        rw [Pool.worker, hi, bind_some]
        dsimp only
        rw [if_neg (by simp [hopen]), if_neg (fun hnone =>
          cons_ne_nil _ _ (h.chain.eq_none_iff.mp hnone)), h.pop_eq]
        rfl
      obtain ⟨pool', hpool', hstarted⟩ := map_eq_some_iff.mp htake
      refine ⟨i, pool', .inl ⟨hpool', ?_⟩⟩
      rw [hstarted, length_append]
      rfl
    | running task =>
      obtain ⟨pool', hpool'⟩ := isSome_iff_exists.mp (isSome_finish hi)
      exact ⟨i, pool', .inr hpool'⟩
    | blocked => cases hawake
    | exited =>
      have hexited := h.exited hopen
      rw [List.any_eq_false] at hexited
      exact absurd rfl (hexited _ hw)

theorem Invariant.closing (h : Invariant m pool q) (hshut : pool.shutdown = true) :
    ∃ e ∈ [.flush, .flushed] ++ (List.range pool.workers.length).map .worker ++
      (List.range pool.workers.length).map .finish, (pool.next e).isSome := by
  by_cases hjoined : pool.workers.all Worker.isExited = true
  · cases q with
    | nil =>
      refine ⟨.flushed, by simp, ?_⟩
      rw [Pool.next, Pool.flushed, if_pos ⟨hshut, hjoined, h.chain.eq_none_iff.mpr rfl⟩]
      rfl
    | cons c q =>
      refine ⟨.flush, by simp, ?_⟩
      rw [Pool.next, Pool.flush, if_pos ⟨hshut, hjoined⟩, h.pop_eq]
      rfl
  · rw [Bool.not_eq_true, List.all_eq_false] at hjoined
    obtain ⟨w, hw, hexited⟩ := hjoined
    obtain ⟨i, hi⟩ := getElem?_of_mem hw
    have hlt : i < pool.workers.length := (List.getElem?_eq_some_iff.mp hi).1
    have hblocked := h.unblocked hshut
    rw [List.any_eq_false] at hblocked
    cases w with
    | ready =>
      refine ⟨.worker i, by simp [hlt], ?_⟩
      rw [Pool.next, Pool.worker, hi, bind_some]
      dsimp only
      rw [if_pos hshut]
      rfl
    | running task => exact ⟨.finish i, by simp [hlt], isSome_finish hi⟩
    | blocked => exact absurd rfl (hblocked _ hw)
    | exited => exact absurd rfl hexited

/-- **The thread pool**: after every run of critical sections, in any order, each task that was
accepted is in the queue, or was started once, in the order of the submissions, or was dropped at
the end; the counters are those of the queue and of the workers and stay within their bounds; and
nobody is left waiting for a pool that is idle. -/
theorem threadPool_law {n : ℕ} (hn : 0 < n) (hmax : 0 < m) {es : List (Event A)}
    (hrun : Run Step (start A n m) es pool) : Holds m pool := by
  have hstep : ∀ s l s', (∃ q, Invariant m s q) → Step s l s' → ∃ q, Invariant m s' q :=
    fun _ _ _ ⟨_, h⟩ hstep => h.step (A := A) hstep
  obtain ⟨q, h⟩ := hrun.invariant hstep ⟨[], invariant_start hn hmax.le⟩
  have hlength := h.pending
  exact {
    queue := ⟨q, h.chain, h.pending, h.accepted⟩
    once := h.finished.symm
    active := h.active
    dropped := fun hne => Bool.not_eq_false _ ▸ fun hopen => hne (h.dropped hopen)
    destroyed := fun hd => by
      obtain ⟨-, hq, hnone⟩ := h.destroyed hd
      have haccepted := h.accepted
      have hfinished := h.finished
      rw [hq, map_nil, append_nil] at haccepted
      rw [hnone, append_nil] at hfinished
      exact ⟨haccepted, hfinished.symm⟩
    limit := h.limit
    claims := ⟨h.claims_nonneg, h.claims_le⟩
    idle := fun hopen hactive hzero => h.idle hopen hactive (by
      rw [hzero] at hlength
      exact length_eq_zero_iff.mp (by omega))
    progress := h.progress
    closing := h.closing
    submits := fun a _ hnew => h.submits a hnew }

/-- A task that is submitted, taken and run while somebody waits for it. -/
theorem threadPool_law_one : ∃ pool : Pool ℕ,
    Holds 2 pool ∧ pool.finished = [7] ∧ pool.waiters = [.woken] := by
  have hrun : ∃ pool, Run Step (start ℕ 1 2)
      [.submit 7 (some 0) none, .waitIdle, .worker 0, .finish 0] pool ∧
      pool.finished = [7] ∧ pool.waiters = [.woken] :=
    ⟨_, .cons ⟨rfl, rfl⟩ (.cons ⟨rfl, rfl⟩ (.cons ⟨rfl, rfl⟩ (.cons ⟨rfl, rfl⟩ (.nil _)))),
      rfl, rfl⟩
  obtain ⟨pool, hrun, hfinished, hwaiters⟩ := hrun
  exact ⟨pool, threadPool_law (by decide) (by decide) hrun, hfinished, hwaiters⟩

end ThreadPool
