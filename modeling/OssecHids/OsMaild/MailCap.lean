import Mathlib.Algebra.Order.BigOperators.Group.List
import OssecHids.Lib.Threads
import OssecHids.OsMaild.Dispatcher

/-!
# The mails of an hour

`email_maxperhour` bounds the mails that are sent in an hour. The dispatcher compares the counter
with it before it starts a thread, but the threads add what they have sent when they end.

- `Move`: what a step does, by cases;
- `Meets`: the steps at which the counter tells what there is to tell;
- `Capped.step`: such steps keep the counter and the mails in flight within the limit.
-/

open Threads Transition List Option

namespace Maild

open Daemon

/-! ## Moves -/

/-- Where the dispatcher goes when nothing else changes, and no room is taken. -/
inductive Goes (mail : MailConfig) (s : Daemon) : Pc → Prop
  | noSms (hpc : s.pc = .sms) (hsms : s.sms = []) : Goes mail s .mails
  | smsLimit (hpc : s.pc = .sms) (hsms : s.sms ≠ [])
      (hsent : s.mails_sent_this_hour ≥ mail.maxperhour) : Goes mail s .smsMore
  | smsBusy (hpc : s.pc = .smsSlot) (hbusy : s.mail_active_workers ≥ mail.mail_max_workers) :
      Goes mail s .smsMore
  | smsDone (hpc : s.pc = .smsMore) (hsms : s.sms = []) : Goes mail s .mails
  | smsAgain (hpc : s.pc = .smsMore) (hsms : s.sms ≠ []) : Goes mail s .top
  | gather (hpc : s.pc = .mails) (htimeout : s.mail_timeout = NEXTMAIL_TIMEOUT) : Goes mail s .saved
  | due (hpc : s.pc = .mails)
      (hdue : s.mailtosend ≠ 0 ∧ s.mails_sent_this_hour < mail.maxperhour ∨
        s.p % 24 ≠ s.thishour) : Goes mail s .mailTest
  | notDue (hpc : s.pc = .mails)
      (hdue : ¬ (s.mailtosend ≠ 0 ∧ s.mails_sent_this_hour < mail.maxperhour)) : Goes mail s .saved
  | mailLimit (hpc : s.pc = .mailTest)
      (hsent : s.queue = [] ∨ s.mails_sent_this_hour ≥ mail.maxperhour) : Goes mail s .checkHour
  | mailBusy (hpc : s.pc = .mailSlot) (hbusy : s.mail_active_workers ≥ mail.mail_max_workers) :
      Goes mail s .checkHour
  | sameHour (hpc : s.pc = .checkHour) : Goes mail s .saved
  | receive (hpc : s.pc = .saved) (hsaved : s.s_msg = none) : Goes mail s .receive

/-- What a step does. -/
inductive Move (mail : MailConfig) (s : Daemon) : Event → Daemon → Prop
  | readTime (hpc : s.pc = .top)
      (hold : s.mail_hour_rollover_pending = true ∨ s.mail_active_workers ≠ 0 ∨
        s.clock % 24 = s.thishour) :
      Move mail s .turn { s with pc := .sms, p := s.clock }
  | newHour (hpc : s.pc = .top) (hpending : s.mail_hour_rollover_pending = false)
      (hactive : s.mail_active_workers = 0) (hnew : s.clock % 24 ≠ s.thishour) :
      Move mail s .turn { s with pc := .sms, p := s.clock, thishour := s.clock % 24
                                 mails_sent_this_hour := 0 }
  | goOn {pc : Pc} (hgoes : Goes mail s pc) : Move mail s .turn { s with pc }
  | smsRoom (hpc : s.pc = .sms) (hsms : s.sms ≠ [])
      (hsent : s.mails_sent_this_hour < mail.maxperhour) :
      Move mail s .turn { s with pc := .smsSlot }
  | smsSlot (hpc : s.pc = .smsSlot) (hfree : s.mail_active_workers < mail.mail_max_workers) :
      Move mail s .turn { s with pc := .smsDequeue
                                 mail_active_workers := s.mail_active_workers + 1 }
  | smsEmpty (hpc : s.pc = .smsDequeue) (hsms : s.sms = []) :
      Move mail s .turn { s with pc := .smsMore, mail_active_workers := s.mail_active_workers - 1 }
  | smsDequeue {sms_msg : MailMsg} {sms : List MailMsg} (hpc : s.pc = .smsDequeue)
      (hsms : s.sms = sms_msg :: sms) : Move mail s .turn { s with pc := .smsCreate sms_msg, sms }
  | mailRoom (hpc : s.pc = .mailTest) (hqueue : s.queue ≠ [])
      (hsent : s.mails_sent_this_hour < mail.maxperhour ∨ s.p % 24 ≠ s.thishour) :
      Move mail s .turn { s with pc := .mailSlot }
  | mailSlot (hpc : s.pc = .mailSlot) (hfree : s.mail_active_workers < mail.mail_max_workers) :
      Move mail s .turn { s with pc := .mailCreate
                                 mail_active_workers := s.mail_active_workers + 1 }
  | rollover (hpc : s.pc = .checkHour) (hnew : s.p % 24 ≠ s.thishour)
      (hactive : s.mail_active_workers > 0) :
      Move mail s .turn { s with pc := .saved, mail_hour_rollover_pending := true }
  | closeHour (hpc : s.pc = .checkHour) (hnew : s.p % 24 ≠ s.thishour)
      (hactive : s.mail_active_workers = 0) :
      Move mail s .turn { s with pc := .saved, thishour := s.p % 24, mailtosend := 0
                                 mails_sent_this_hour := 0 }
  | addSaved {msg : MailMsg} (hpc : s.pc = .saved) (hsaved : s.s_msg = some msg) :
      Move mail s .turn { s with
        pc := .top, s_msg := none, mailtosend := s.mailtosend + 1
        queue := (Fifo.cap MAIL_LIST_SIZE (s.queue ++ [msg])).1
        lost := s.lost ++ (Fifo.cap MAIL_LIST_SIZE (s.queue ++ [msg])).2 }
  | smsCreated {sms_msg : MailMsg} (hpc : s.pc = .smsCreate sms_msg) :
      Move mail s (.created true)
        { s with pc := .smsMore, workers := s.workers ++ [⟨1, 0, some sms_msg⟩] }
  | smsFailed {sms_msg : MailMsg} (hpc : s.pc = .smsCreate sms_msg) :
      Move mail s (.created false)
        { s with pc := .smsMore, mail_active_workers := s.mail_active_workers - 1
                 sms := sms_msg :: s.sms }
  | mailEmpty {ok : Bool} (hpc : s.pc = .mailCreate) (hqueue : s.queue = []) :
      Move mail s (.created ok)
        { s with pc := .checkHour, mail_active_workers := s.mail_active_workers - 1 }
  | mailCreated (hpc : s.pc = .mailCreate) (hqueue : s.queue ≠ []) :
      Move mail s (.created true)
        { s with pc := .checkHour, workers := s.workers ++ [⟨mailsOf s.queue, 0, none⟩]
                 queue := [], dispatched := s.dispatched ++ s.queue }
  | mailFailed (hpc : s.pc = .mailCreate) (hqueue : s.queue ≠ []) :
      Move mail s (.created false)
        { s with pc := .top, mail_active_workers := s.mail_active_workers - 1
                 queue := (Fifo.cap MAIL_LIST_SIZE s.queue).1
                 lost := s.lost ++ (Fifo.cap MAIL_LIST_SIZE s.queue).2 }
  | keep {msg : Incoming} {m : MailMsg} {sms : List MailMsg} {mailtosend mail_timeout : ℕ}
      (hpc : s.pc = .receive) :
      Move mail s (.received (some msg)) { s with
        pc := .top, sms := s.sms ++ sms, smsMade := s.smsMade ++ sms
        received := s.received ++ [m], s_msg := some m, mailtosend, mail_timeout }
  | add {msg : Incoming} {m : MailMsg} {sms : List MailMsg} {mailtosend mail_timeout : ℕ}
      (hpc : s.pc = .receive) (hdue : mailtosend ≠ 0 ∨ mail_timeout = NEXTMAIL_TIMEOUT) :
      Move mail s (.received (some msg)) { s with
        pc := .top, sms := s.sms ++ sms, smsMade := s.smsMade ++ sms
        received := s.received ++ [m], mailtosend, mail_timeout
        queue := (Fifo.cap MAIL_LIST_SIZE (s.queue ++ [m])).1
        lost := s.lost ++ (Fifo.cap MAIL_LIST_SIZE (s.queue ++ [m])).2 }
  | quiet (hpc : s.pc = .receive) (htimeout : s.mail_timeout = NEXTMAIL_TIMEOUT) :
      Move mail s (.received none) { s with
        pc := .top, mailtosend := s.mailtosend + 1, mail_timeout := DEFAULT_TIMEOUT }
  | silent (hpc : s.pc = .receive) (htimeout : s.mail_timeout ≠ NEXTMAIL_TIMEOUT) :
      Move mail s (.received none) { s with pc := .top }
  | sent {i : ℕ} {w : Worker} (hw : s.workers[i]? = some w) (hleft : w.left ≠ 0) :
      Move mail s (.send i true) { s with
        workers := s.workers.set i ⟨w.left - 1, w.sent + 1, none⟩
        sentInHour := s.sentInHour + 1, smsSent := s.smsSent ++ w.sms.toList }
  | notSent {i : ℕ} {w : Worker} (hw : s.workers[i]? = some w) (hleft : w.left ≠ 0) :
      Move mail s (.send i false) { s with
        workers := s.workers.set i ⟨w.left - 1, w.sent, none⟩, sms := w.sms.toList ++ s.sms }
  | finished {i : ℕ} {w : Worker} (hw : s.workers[i]? = some w) (hleft : w.left = 0)
      (hold : s.mail_active_workers - 1 ≠ 0 ∨ s.mail_hour_rollover_pending = false) :
      Move mail s (.finish i) { s with
        workers := s.workers.eraseIdx i
        mails_sent_this_hour := s.mails_sent_this_hour + w.sent
        mail_active_workers := s.mail_active_workers - 1 }
  | lastFinished {i : ℕ} {w : Worker} (hw : s.workers[i]? = some w) (hleft : w.left = 0)
      (hactive : s.mail_active_workers - 1 = 0) (hpending : s.mail_hour_rollover_pending = true) :
      Move mail s (.finish i) { s with
        workers := s.workers.eraseIdx i, mails_sent_this_hour := 0
        mail_active_workers := s.mail_active_workers - 1, mail_hour_rollover_pending := false }
  | hour : Move mail s .hour { s with clock := s.clock + 1, sentInHour := 0 }

variable {mail : MailConfig} {s s' : Daemon} {e : Event}

theorem move_turn (h : s.turn mail = some s') : Move mail s .turn s' := by
  rw [turn] at h
  cases hpc : s.pc <;> rw [hpc] at h
  case top =>
    cases h
    rw [Daemon.readTime]
    split_ifs with hnew
    · obtain ⟨hpending, hactive, hnew⟩ := hnew
      exact .newHour hpc (by simpa using hpending) hactive hnew
    · refine .readTime hpc ?_
      simpa [or_iff_not_imp_left] using hnew
  case sms =>
    cases h
    rw [testSms]
    split_ifs with hsms hsent
    · exact .goOn (.noSms hpc hsms)
    · exact .goOn (.smsLimit hpc hsms hsent)
    · exact .smsRoom hpc hsms (not_le.mp hsent)
  case smsSlot =>
    cases h
    rw [Daemon.smsSlot]
    split_ifs with hfree
    · exact .smsSlot hpc hfree
    · exact .goOn (.smsBusy hpc (not_lt.mp hfree))
  case smsDequeue =>
    cases h
    rw [Daemon.smsDequeue]
    split
    · exact .smsEmpty hpc ‹_›
    · exact .smsDequeue hpc ‹_›
  case smsMore =>
    cases h
    rw [smsMore]
    split_ifs with hsms
    · exact .goOn (.smsDone hpc hsms)
    · exact .goOn (.smsAgain hpc hsms)
  case mails =>
    cases h
    rw [testMails]
    split_ifs with htimeout hdue
    · exact .goOn (.gather hpc htimeout.1)
    · exact .goOn (.due hpc hdue)
    · exact .goOn (.notDue hpc fun h => hdue (.inl h))
  case mailTest =>
    cases h
    rw [testQueue]
    split_ifs with hqueue
    · exact .mailRoom hpc hqueue.1 hqueue.2
    · refine .goOn (.mailLimit hpc ?_)
      by_contra hnot
      rw [not_or, not_le] at hnot
      exact hqueue ⟨hnot.1, .inl hnot.2⟩
  case mailSlot =>
    cases h
    rw [Daemon.mailSlot]
    split_ifs with hfree
    · exact .mailSlot hpc hfree
    · exact .goOn (.mailBusy hpc (not_lt.mp hfree))
  case checkHour =>
    cases h
    rw [Daemon.checkHour]
    split_ifs with hnew hactive
    · exact .rollover hpc hnew hactive
    · exact .closeHour hpc hnew (Nat.eq_zero_of_not_pos hactive)
    · exact .goOn (.sameHour hpc)
  case saved =>
    cases h
    rw [testSaved]
    split
    · exact .addSaved hpc ‹_›
    · exact .goOn (.receive hpc ‹_›)
  case smsCreate | mailCreate | receive => cases h

theorem move_created {ok : Bool} (h : s.create ok = some s') : Move mail s (.created ok) s' := by
  rw [create] at h
  cases hpc : s.pc with
  | smsCreate sms_msg =>
    rw [hpc] at h
    cases h
    cases ok with
    | true => exact .smsCreated hpc
    | false => exact .smsFailed hpc
  | mailCreate =>
    rw [hpc] at h
    cases h
    by_cases hqueue : s.queue = []
    case pos =>
      rw [if_pos hqueue]
      exact .mailEmpty hpc hqueue
    case neg =>
      rw [if_neg hqueue]
      cases ok with
      | true => exact .mailCreated hpc hqueue
      | false =>
        rw [append_nil]
        exact .mailFailed hpc hqueue
  | _ =>
    rw [hpc] at h
    cases h

theorem move_received {msg : Option Incoming} (h : s.receive mail msg = some s') :
    Move mail s (.received msg) s' := by
  rw [Daemon.receive.eq_def] at h
  split at h
  · cases h
  · rename_i hpc
    have hpc : s.pc = .receive := not_not.mp hpc
    cases msg with
    | none =>
      split_ifs at h with htimeout
      · cases h
        exact .quiet hpc htimeout
      · cases h
        exact .silent hpc htimeout
    | some msg =>
      cases h
      rw [receiveMsg]
      by_cases hkeep : priority mail.gran_to msg.al_data = DONOTGROUP
      case pos =>
        simp only [if_pos hkeep]
        split_ifs <;> exact .keep hpc
      case neg =>
        simp only [if_neg hkeep]
        split_ifs
        · exact .add hpc (.inl (Nat.succ_ne_zero _))
        · exact .add hpc (.inr rfl)
        · exact .add hpc (.inl (Nat.succ_ne_zero _))

theorem move_of_step (h : Daemon.Step mail s e s') : Move mail s e s' := by
  cases e with
  | turn => exact move_turn h
  | created ok => exact move_created h
  | received msg => exact move_received h
  | send i ok =>
    obtain ⟨w, hw, h⟩ := bind_eq_some_iff.mp h
    split_ifs at h with hleft hok
    · cases h
      subst hok
      exact .sent hw hleft
    · cases h
      rw [Bool.not_eq_true] at hok
      subst hok
      exact .notSent hw hleft
  | finish i =>
    obtain ⟨w, hw, h⟩ := bind_eq_some_iff.mp h
    split_ifs at h with hleft
    cases h
    rw [mailWorkerFinished]
    split_ifs with hlast
    · exact .lastFinished hw hleft hlast.1 hlast.2
    · refine .finished hw hleft ?_
      rw [not_and_or, Bool.not_eq_true] at hlast
      exact hlast
  | hour =>
    cases h
    exact .hour

/-! ## The condition -/

namespace Daemon

/-- The mails of the threads that run: those they have sent and those they have to send. -/
def inFlight (s : Daemon) : ℕ := (s.workers.map fun w => w.sent + w.left).sum

/-- The dispatcher has taken note of the hour it is. -/
def Synced (s : Daemon) : Prop :=
  s.p = s.clock ∧ s.thishour = s.p % 24 ∧ s.mail_hour_rollover_pending = false

/-- The mails for which a thread is looked for. -/
def reserved (s : Daemon) : ℕ :=
  match s.pc with
  | .smsSlot | .smsDequeue | .smsCreate _ => 1
  | .mailSlot => if s.p % 24 = s.thishour then mailsOf s.queue else 0
  | .mailCreate => mailsOf s.queue
  | _ => 0

/-- Whether the dispatcher has counted a thread that does not run. -/
def slot : Pc → ℕ
  | .smsDequeue | .smsCreate _ | .mailCreate => 1
  | _ => 0

/-- `n` more mails fit in the hour: nothing is in flight and it is one mail at most, so that the
test of the counter is enough, or the counter and what is in flight leave room for them. -/
def Fits (mail : MailConfig) (s : Daemon) (n : ℕ) : Prop :=
  s.inFlight + n ≤ 1 ∨ s.mails_sent_this_hour + s.inFlight + n ≤ mail.maxperhour

/-- The steps that do no harm. When the counter is found below the limit, what is to be sent fits;
a thread is counted and created only in the hour of which the dispatcher has taken note; the hour
changes only when the threads have sent their mails; and the dispatcher closes an hour only when no
alert waits. -/
def Meets (mail : MailConfig) (s : Daemon) : Event → Prop
  | .turn =>
    match s.pc with
    | .sms => s.sms ≠ [] → s.mails_sent_this_hour < mail.maxperhour → s.Fits mail 1
    | .smsSlot => s.mail_active_workers < mail.mail_max_workers → s.Synced
    | .mailTest => s.queue ≠ [] → s.p % 24 = s.thishour →
        s.mails_sent_this_hour < mail.maxperhour → s.Fits mail (mailsOf s.queue)
    | .mailSlot => s.mail_active_workers < mail.mail_max_workers → s.Synced
    | .checkHour => s.p % 24 ≠ s.thishour → s.mail_active_workers = 0 → s.queue = []
    | _ => True
  | .created ok => ok = true → s.p = s.clock
  | .hour => ∀ w ∈ s.workers, w.left = 0
  | _ => True

def GoodStep (mail : MailConfig) (s : Daemon) (e : Event) (s' : Daemon) : Prop :=
  s.Step mail e s' ∧ s.Meets mail e

end Daemon

/-! ## The bound -/

/-- The counter and the mails in flight cover what was sent in this hour. -/
structure Capped (mail : MailConfig) (s : Daemon) : Prop where
  active : s.mail_active_workers = s.workers.length + slot s.pc
  room : s.mails_sent_this_hour + s.inFlight + s.reserved ≤ mail.maxperhour
  noted : slot s.pc = 1 → s.thishour = s.p % 24 ∧ s.mail_hour_rollover_pending = false
  pending : s.mail_hour_rollover_pending = true → s.workers ≠ []
  sent : s.sentInHour ≤ s.mails_sent_this_hour + (s.workers.map Worker.sent).sum
  /-- In an hour of which the dispatcher has not taken note, nothing is sent. -/
  stale : ¬ s.Synced → s.sentInHour = 0 ∧ ∀ w ∈ s.workers, w.left = 0

theorem sum_sent_le (s : Daemon) : (s.workers.map Worker.sent).sum ≤ s.inFlight :=
  sum_le_sum fun _ _ => Nat.le_add_right ..

theorem Capped.sentInHour_le (h : Capped mail s) : s.sentInHour ≤ mail.maxperhour := by
  have hsent := h.sent
  have hroom := h.room
  have hle := sum_sent_le s
  omega

theorem capped_start (mail : MailConfig) (hour : ℕ) : Capped mail (start hour) where
  active := rfl
  room := Nat.zero_le _
  noted h := absurd h (show (0 : ℕ) ≠ 1 by decide)
  pending h := absurd h Bool.false_ne_true
  sent := Nat.le_refl 0
  stale _ := ⟨rfl, fun _ h => absurd h not_mem_nil⟩

/-- A move of the dispatcher that takes no room and no slot. -/
theorem Capped.goOn {pc : Pc} (h : Capped mail s) (hgoes : Goes mail s pc) :
    Capped mail { s with pc } := by
  have hslot : slot s.pc = 0 ∧ slot pc = 0 := by
    cases hgoes <;> (rw [‹s.pc = _›]; exact ⟨rfl, rfl⟩)
  have hreserved : Daemon.reserved { s with pc } = 0 := by
    cases hgoes <;> rfl
  have hroom := h.room
  have hactive := h.active
  exact { h with
    active := by
      rw [hactive, hslot.1, hslot.2]
    room := by
      rw [hreserved]
      exact (Nat.le_add_right _ _).trans hroom
    noted := fun hone => by
      rw [hslot.2] at hone
      cases hone }

theorem Capped.workers_eq_nil (h : Capped mail s) (hactive : s.mail_active_workers = 0) :
    s.workers = [] := by
  have hcount := h.active
  exact length_eq_zero_iff.mp (by omega)

theorem inFlight_eq_zero (h : s.workers = []) : s.inFlight = 0 := by
  rw [inFlight, h]
  rfl

theorem Capped.readTime (h : Capped mail s) (hpc : s.pc = .top) :
    Capped mail { s with pc := .sms, p := s.clock } := by
  have hactive := h.active
  rw [hpc] at hactive
  have hsame : ¬ Synced { s with pc := .sms, p := s.clock } → ¬ s.Synced := by
    rintro hnot ⟨hp, hthishour, hpending⟩
    exact hnot ⟨rfl, hthishour.trans (by rw [hp]), hpending⟩
  exact { h with
    active := hactive
    room := (Nat.le_add_right _ _).trans h.room
    noted := fun hone => absurd hone (show (0 : ℕ) ≠ 1 by decide)
    stale := fun hnot => h.stale (hsame hnot) }

theorem Capped.newHour (h : Capped mail s) (hpc : s.pc = .top)
    (hactive : s.mail_active_workers = 0) (hnew : s.clock % 24 ≠ s.thishour)
    (hpending : s.mail_hour_rollover_pending = false) :
    Capped mail { s with pc := .sms, p := s.clock, thishour := s.clock % 24
                         mails_sent_this_hour := 0 } := by
  have hnil := h.workers_eq_nil hactive
  have hnot : ¬ s.Synced := by
    rintro ⟨hp, hthishour, -⟩
    exact hnew (by rw [hthishour, hp])
  obtain ⟨hzero, hleft⟩ := h.stale hnot
  have hcount := h.active
  rw [hpc] at hcount
  exact {
    active := hcount
    room := by
      show 0 + s.inFlight + 0 ≤ mail.maxperhour
      rw [inFlight_eq_zero hnil]
      exact Nat.zero_le _
    noted := fun hone => absurd hone (show (0 : ℕ) ≠ 1 by decide)
    pending := fun hp => absurd hp (by rw [hpending]; exact Bool.false_ne_true)
    sent := by
      rw [hzero]
      exact Nat.zero_le _
    stale := fun _ => ⟨hzero, hleft⟩ }

theorem Capped.takeRoom {pc : Pc} (h : Capped mail s) (hslot : slot s.pc = 0 ∧ slot pc = 0)
    (hroom : s.mails_sent_this_hour + s.inFlight + Daemon.reserved { s with pc } ≤
      mail.maxperhour) : Capped mail { s with pc } :=
  { h with
    active := by
      rw [h.active, hslot.1, hslot.2]
    room := hroom
    noted := fun hone => by
      rw [hslot.2] at hone
      cases hone }

theorem Daemon.Fits.room {n : ℕ} (h : s.Fits mail n)
    (hsent : s.mails_sent_this_hour < mail.maxperhour) :
    s.mails_sent_this_hour + s.inFlight + n ≤ mail.maxperhour := by
  rcases h with hone | hroom
  · omega
  · exact hroom

theorem Capped.count {pc : Pc} (h : Capped mail s) (hslot : slot s.pc = 0 ∧ slot pc = 1)
    (hreserved : Daemon.reserved { s with pc } ≤ s.reserved) (hsync : s.Synced) :
    Capped mail { s with pc, mail_active_workers := s.mail_active_workers + 1 } :=
  { h with
    active := by
      rw [h.active, hslot.1, hslot.2]
    room := (Nat.add_le_add_left hreserved _).trans h.room
    noted := fun _ => hsync.2 }

/-- A thread is not created, and no longer counted. -/
theorem Capped.uncount {pc : Pc} {sms queue lost : List MailMsg} (h : Capped mail s)
    (hslot : slot s.pc = 1 ∧ slot pc = 0)
    (hreserved : ∀ t : Daemon, t.pc = pc → t.reserved = 0) :
    Capped mail { s with pc, mail_active_workers := s.mail_active_workers - 1
                         sms, queue, lost } :=
  { h with
    active := by
      rw [h.active, hslot.1, hslot.2]
      rfl
    room := by
      have hroom := h.room
      have hzero := hreserved { s with pc, mail_active_workers := s.mail_active_workers - 1
                                       sms, queue, lost } rfl
      rw [hzero]
      exact (Nat.le_add_right _ _).trans hroom
    noted := fun hone => by
      rw [hslot.2] at hone
      cases hone }

/-- A thread is created: what was reserved is in flight. -/
theorem Capped.create {pc : Pc} {w : Worker} {queue dispatched : List MailMsg} (h : Capped mail s)
    (hslot : slot s.pc = 1 ∧ slot pc = 0)
    (hreserved : ∀ t : Daemon, t.pc = pc → t.reserved = 0) (hw : w.sent = 0)
    (hleft : w.left ≤ s.reserved) (hclock : s.p = s.clock) :
    Capped mail { s with pc, workers := s.workers ++ [w], queue, dispatched } := by
  obtain ⟨hthishour, hpending⟩ := h.noted hslot.1
  have hroom := h.room
  have hsent := h.sent
  exact {
    active := by
      rw [h.active, hslot.1, hslot.2, length_append]
      rfl
    room := by
      rw [hreserved _ rfl]
      show s.mails_sent_this_hour + ((s.workers ++ [w]).map _).sum + 0 ≤ mail.maxperhour
      rw [inFlight] at hroom
      rw [map_append, sum_append, map_singleton, sum_singleton]
      omega
    noted := fun hone => by
      rw [hslot.2] at hone
      cases hone
    pending := fun hp => absurd hp (by rw [hpending]; exact Bool.false_ne_true)
    sent := by
      show s.sentInHour ≤ s.mails_sent_this_hour + ((s.workers ++ [w]).map _).sum
      rw [map_append, sum_append]
      omega
    stale := fun hnot => absurd ⟨hclock, hthishour, hpending⟩ hnot }

/-- A thread sends a mail, or fails to. -/
theorem Capped.send {i : ℕ} {w w' : Worker} {n : ℕ} {sms smsSent : List MailMsg}
    (h : Capped mail s) (hw : s.workers[i]? = some w) (hleft : w.left ≠ 0)
    (hw' : w'.left = w.left - 1) (hsent : w'.sent = w.sent + n) (hn : n ≤ 1) :
    Capped mail { s with workers := s.workers.set i w', sentInHour := s.sentInHour + n
                         sms, smsSent } := by
  obtain ⟨l₁, l₂, hl, hset, -⟩ := exists_split hw
  have hroom := h.room
  have hcovered := h.sent
  have hmem : w ∈ s.workers := mem_of_getElem? hw
  rw [inFlight, hl] at hroom
  rw [hl] at hcovered
  simp only [map_append, map_cons, sum_append, sum_cons] at hroom hcovered
  exact { h with
    active := by
      show s.mail_active_workers = (s.workers.set i w').length + slot s.pc
      rw [length_set, h.active]
    room := by
      show s.mails_sent_this_hour + ((s.workers.set i w').map _).sum + s.reserved ≤
        mail.maxperhour
      rw [hset]
      simp only [map_append, map_cons, sum_append, sum_cons]
      omega
    pending := fun hp hnil => h.pending hp ((set_eq_nil_iff _ _).mp hnil)
    sent := by
      show s.sentInHour + n ≤ s.mails_sent_this_hour + ((s.workers.set i w').map _).sum
      rw [hset]
      simp only [map_append, map_cons, sum_append, sum_cons]
      omega
    stale := fun hnot => absurd ((h.stale hnot).2 w hmem) hleft }

/-- A thread ends, and the counter takes over what it has sent. -/
theorem Capped.finish {i : ℕ} {w : Worker} (h : Capped mail s) (hw : s.workers[i]? = some w)
    (hleft : w.left = 0)
    (hold : s.mail_active_workers - 1 ≠ 0 ∨ s.mail_hour_rollover_pending = false) :
    Capped mail { s with
      workers := s.workers.eraseIdx i
      mails_sent_this_hour := s.mails_sent_this_hour + w.sent
      mail_active_workers := s.mail_active_workers - 1 } := by
  obtain ⟨l₁, l₂, hl, -, herase⟩ := exists_split hw
  have hroom := h.room
  have hcovered := h.sent
  have hactive := h.active
  rw [inFlight, hl] at hroom
  rw [hl] at hcovered hactive
  simp only [map_append, map_cons, sum_append, sum_cons] at hroom hcovered
  rw [length_append, length_cons] at hactive
  exact { h with
    active := by
      show s.mail_active_workers - 1 = (s.workers.eraseIdx i).length + slot s.pc
      rw [herase, length_append]
      omega
    room := by
      show s.mails_sent_this_hour + w.sent + ((s.workers.eraseIdx i).map _).sum + s.reserved ≤
        mail.maxperhour
      rw [herase]
      simp only [map_append, sum_append]
      omega
    pending := fun hp hnil => by
      -- the slot of a thread that is not created would be counted in a noted hour
      have hlen := congrArg List.length (herase.symm.trans hnil)
      rw [length_append, length_nil] at hlen
      have hslot : slot s.pc = 1 ∨ slot s.pc = 0 := by
        cases s.pc <;> first | exact .inl rfl | exact .inr rfl
      rcases hslot with hone | hzero
      · have hnoted := (h.noted hone).2
        rw [hnoted] at hp
        cases hp
      · rcases hold with hne | hfalse
        · omega
        · rw [hfalse] at hp
          cases hp
    sent := by
      rw [herase]
      simp only [map_append, sum_append]
      omega
    stale := fun hnot => by
      obtain ⟨hzero, hall⟩ := h.stale hnot
      exact ⟨hzero, fun v hv => hall v (mem_of_mem_eraseIdx hv)⟩ }

/-- The last thread of an old hour ends, and the counter starts again. -/
theorem Capped.lastFinish {i : ℕ} {w : Worker} (h : Capped mail s) (hw : s.workers[i]? = some w)
    (hactive : s.mail_active_workers - 1 = 0) (hpending : s.mail_hour_rollover_pending = true) :
    Capped mail { s with
      workers := s.workers.eraseIdx i, mails_sent_this_hour := 0
      mail_active_workers := s.mail_active_workers - 1, mail_hour_rollover_pending := false } := by
  obtain ⟨l₁, l₂, hl, -, herase⟩ := exists_split hw
  have hroom := h.room
  have hcount := h.active
  have hnot : ¬ s.Synced := fun hsync => by
    rw [hsync.2.2] at hpending
    cases hpending
  have hnoslot : slot s.pc = 0 := by
    by_contra hne
    have hone : slot s.pc = 1 := by
      cases hpc : s.pc <;> rw [hpc] at hne <;> first | rfl | exact absurd rfl hne
    rw [(h.noted hone).2] at hpending
    cases hpending
  obtain ⟨hzero, hall⟩ := h.stale hnot
  rw [inFlight, hl] at hroom
  rw [hl, length_append, length_cons] at hcount
  simp only [map_append, map_cons, sum_append, sum_cons] at hroom
  exact {
    active := by
      show s.mail_active_workers - 1 = (s.workers.eraseIdx i).length + slot s.pc
      rw [herase, length_append]
      omega
    room := by
      show 0 + ((s.workers.eraseIdx i).map _).sum + s.reserved ≤ mail.maxperhour
      rw [herase]
      simp only [map_append, sum_append]
      omega
    noted := fun hone => by
      rw [hnoslot] at hone
      cases hone
    pending := fun hp => absurd hp Bool.false_ne_true
    sent := by
      rw [hzero]
      exact Nat.zero_le _
    stale := fun _ => ⟨hzero, fun v hv => hall v (mem_of_mem_eraseIdx hv)⟩ }

/-- A move that takes no room and no slot, whatever else it changes of the messages. -/
theorem Capped.idle {pc : Pc} {s_msg : Option MailMsg} {mailtosend mail_timeout : ℕ}
    {sms queue lost received smsMade : List MailMsg} (h : Capped mail s)
    (hslot : slot s.pc = 0 ∧ slot pc = 0)
    (hreserved : ∀ t : Daemon, t.pc = pc → t.reserved = 0) :
    Capped mail { s with pc, s_msg, mailtosend, mail_timeout, sms, queue, lost, received
                         smsMade } :=
  { h with
    active := by
      rw [h.active, hslot.1, hslot.2]
    room := by
      rw [hreserved _ rfl]
      exact (Nat.le_add_right _ _).trans h.room
    noted := fun hone => by
      rw [hslot.2] at hone
      cases hone }

/-- The hour is over, and threads are active. -/
theorem Capped.rollover (h : Capped mail s) (hpc : s.pc = .checkHour)
    (hnew : s.p % 24 ≠ s.thishour) (hactive : s.mail_active_workers > 0) :
    Capped mail { s with pc := .saved, mail_hour_rollover_pending := true } := by
  have hcount := h.active
  rw [hpc] at hcount
  have hstale := h.stale fun hsync => hnew hsync.2.1.symm
  exact { h with
    active := hcount
    room := (Nat.le_add_right _ _).trans h.room
    noted := fun hone => absurd hone (show (0 : ℕ) ≠ 1 by decide)
    pending := fun _ hnil => by
      have hnil : s.workers = [] := hnil
      have hzero : slot .checkHour = 0 := rfl
      rw [hnil, length_nil] at hcount
      omega
    stale := fun _ => hstale }

/-- The hour is over, and no thread is active. -/
theorem Capped.closeHour (h : Capped mail s) (hpc : s.pc = .checkHour)
    (hnew : s.p % 24 ≠ s.thishour) (hactive : s.mail_active_workers = 0) :
    Capped mail { s with pc := .saved, thishour := s.p % 24, mailtosend := 0
                         mails_sent_this_hour := 0 } := by
  have hnil := h.workers_eq_nil hactive
  have hcount := h.active
  rw [hpc] at hcount
  obtain ⟨hzero, hleft⟩ := h.stale fun hsync => hnew hsync.2.1.symm
  exact {
    active := hcount
    room := by
      show 0 + s.inFlight + 0 ≤ mail.maxperhour
      rw [inFlight_eq_zero hnil]
      exact Nat.zero_le _
    noted := fun hone => absurd hone (show (0 : ℕ) ≠ 1 by decide)
    pending := fun hp => absurd hnil (h.pending hp)
    sent := by
      show s.sentInHour ≤ _
      rw [hzero]
      exact Nat.zero_le _
    stale := fun _ => ⟨hzero, hleft⟩ }

theorem reserved_of_slot {pc : Pc} (h : pc = .sms ∨ pc = .smsMore ∨ pc = .checkHour ∨ pc = .top)
    (t : Daemon) (ht : t.pc = pc) : t.reserved = 0 := by
  rw [Daemon.reserved, ht]
  rcases h with rfl | rfl | rfl | rfl <;> rfl

/-- **Every step that does no harm** keeps the counter and the mails in flight within the limit. -/
theorem Capped.step (h : Capped mail s) (hstep : Daemon.GoodStep mail s e s') :
    Capped mail s' := by
  obtain ⟨hstep, hmeets⟩ := hstep
  have hroom := h.room
  cases move_of_step hstep with
  | readTime hpc => exact h.readTime hpc
  | newHour hpc hpending hactive hnew => exact h.newHour hpc hactive hnew hpending
  | goOn hgoes => exact h.goOn hgoes
  | smsRoom hpc hsms hsent =>
    rw [Daemon.Meets, hpc] at hmeets
    exact h.takeRoom (by rw [hpc]; exact ⟨rfl, rfl⟩) ((hmeets hsms hsent).room hsent)
  | smsSlot hpc hfree =>
    rw [Daemon.Meets, hpc] at hmeets
    refine h.count (by rw [hpc]; exact ⟨rfl, rfl⟩) ?_ (hmeets hfree)
    rw [Daemon.reserved, Daemon.reserved, hpc]
  | smsDequeue hpc hsms =>
    have hactive := h.active
    have hnoted := h.noted
    rw [Daemon.reserved, hpc] at hroom
    rw [hpc] at hactive hnoted
    exact { h with
      active := hactive
      room := hroom
      noted := hnoted }
  | mailRoom hpc hqueue hsent =>
    rw [Daemon.Meets, hpc] at hmeets
    refine h.takeRoom (by rw [hpc]; exact ⟨rfl, rfl⟩) ?_
    show s.mails_sent_this_hour + s.inFlight + (if s.p % 24 = s.thishour then _ else 0) ≤
      mail.maxperhour
    split_ifs with hhour
    · have hlt := hsent.resolve_right (not_not.mpr hhour)
      exact (hmeets hqueue hhour hlt).room hlt
    · exact (Nat.le_add_right _ _).trans hroom
  | mailSlot hpc hfree =>
    rw [Daemon.Meets, hpc] at hmeets
    refine h.count (by rw [hpc]; exact ⟨rfl, rfl⟩) ?_ (hmeets hfree)
    have hreserved : s.reserved = mailsOf s.queue := by
      rw [Daemon.reserved, hpc]
      exact if_pos (hmeets hfree).2.1.symm
    exact hreserved.ge
  | rollover hpc hnew hactive => exact h.rollover hpc hnew hactive
  | closeHour hpc hnew hactive => exact h.closeHour hpc hnew hactive
  | smsCreated hpc | mailCreated hpc =>
    refine h.create (by rw [hpc]; exact ⟨rfl, rfl⟩) (reserved_of_slot (by simp)) rfl ?_
      (hmeets rfl)
    rw [Daemon.reserved, hpc]
  | smsEmpty hpc | smsFailed hpc | mailEmpty hpc | mailFailed hpc =>
    exact h.uncount (by rw [hpc]; exact ⟨rfl, rfl⟩) (reserved_of_slot (by simp))
  | addSaved hpc | keep hpc | add hpc | quiet hpc | silent hpc =>
    exact h.idle (by rw [hpc]; exact ⟨rfl, rfl⟩) (reserved_of_slot (by simp))
  | sent hw hleft => exact h.send hw hleft rfl rfl le_rfl
  | notSent hw hleft => exact h.send hw hleft rfl rfl (Nat.zero_le _)
  | finished hw hleft hold => exact h.finish hw hleft hold
  | lastFinished hw hleft hactive hpending => exact h.lastFinish hw hactive hpending
  | hour =>
    exact { h with
      sent := Nat.zero_le _
      stale := fun _ => ⟨rfl, hmeets⟩ }

end Maild
