import OssecHids.OsMaild.MailCap

/-!
# What becomes of the alerts

The limit of an hour delays the alerts. They wait in the queue, of which only a full one drops any,
and are handed over to a thread when an hour has begun.

- `Kept.step`: every alert waits, is handed over, or is dropped from a full queue; every SMS
  message waits, is with a thread, or is sent;
- `Due.step`: when alerts wait, the dispatcher will look at them;
- `Waits.step`: how many steps that takes at most;
- `mailCap_law`: the bound of an hour, and what becomes of the alerts.
-/

open Threads Transition CString List Option

namespace Maild

open Daemon

variable {mail : MailConfig} {s s' t : Daemon} {e : Event} {m : MailMsg}

/-! ## The queue -/

theorem length_cap_le (n : ℕ) (mails : List MailMsg) : (Fifo.cap n mails).1.length ≤ n := by
  rw [Fifo.cap, length_drop]
  omega

theorem cap_append (n : ℕ) (mails : List MailMsg) :
    (Fifo.cap n mails).2 ++ (Fifo.cap n mails).1 = mails :=
  take_append_drop ..

theorem count_cap (n : ℕ) (mails : List MailMsg) (m : MailMsg) :
    (Fifo.cap n mails).2.count m + (Fifo.cap n mails).1.count m = mails.count m := by
  rw [← count_append, cap_append]

theorem cap_full {n : ℕ} {mails : List MailMsg} (h : (Fifo.cap n mails).2 ≠ []) :
    (Fifo.cap n mails).1.length = n := by
  rw [Fifo.cap] at h ⊢
  dsimp only at h ⊢
  rw [length_drop]
  by_contra hne
  have hle : mails.length - n = 0 := by omega
  rw [hle, take_zero] at h
  exact h rfl

/-! ## Nothing is lost -/

namespace Daemon

/-- The SMS message that the dispatcher has taken from its queue. -/
def taken : Pc → List MailMsg
  | .smsCreate sms_msg => [sms_msg]
  | _ => []

end Daemon

/-- What has become of the alerts and of the SMS messages. -/
structure Kept (s : Daemon) : Prop where
  alerts (m : MailMsg) : s.dispatched.count m + s.lost.count m + s.queue.count m +
    s.s_msg.toList.count m = s.received.count m
  messages (m : MailMsg) : s.smsSent.count m + (s.workers.filterMap Worker.sms).count m +
    (taken s.pc).count m + s.sms.count m = s.smsMade.count m
  length_le : s.queue.length ≤ MAIL_LIST_SIZE
  /-- A thread with nothing left to send has no SMS message. -/
  ended : ∀ w ∈ s.workers, w.left = 0 → w.sms = none
  /-- No second alert is received while one is saved. -/
  free : s.pc = .receive → s.s_msg = none

theorem kept_start (hour : ℕ) : Kept (start hour) where
  alerts _ := rfl
  messages _ := rfl
  length_le := Nat.zero_le _
  ended _ h := absurd h not_mem_nil
  free h := absurd h (show Pc.top ≠ .receive from Pc.noConfusion)

theorem Goes.taken {pc : Pc} (h : Goes mail s pc) : taken s.pc = [] ∧ taken pc = [] := by
  cases h <;> (rw [‹s.pc = _›]; exact ⟨rfl, rfl⟩)

theorem Goes.free {pc : Pc} (h : Goes mail s pc) (hpc : pc = .receive) : s.s_msg = none := by
  cases h with
  | receive _ hsaved => exact hsaved
  | _ => cases hpc

theorem Kept.goOn {pc : Pc} {p thishour mailtosend mail_timeout sent active : ℕ} {pending : Bool}
    (h : Kept s) (htaken : taken s.pc = taken pc) (hfree : pc = .receive → s.s_msg = none) :
    Kept { s with pc, p, thishour, mailtosend, mail_timeout, mails_sent_this_hour := sent
                  mail_active_workers := active, mail_hour_rollover_pending := pending } :=
  { h with
    messages := fun m => by
      show s.smsSent.count m + (s.workers.filterMap Worker.sms).count m + (taken pc).count m +
        s.sms.count m = _
      rw [← htaken]
      exact h.messages m
    free := hfree }

/-- A message comes to the queue. -/
theorem Kept.add {pc : Pc} {s_msg : Option MailMsg} {sms received : List MailMsg}
    {mailtosend mail_timeout : ℕ} (h : Kept s) (htaken : taken s.pc = taken pc)
    (hpc : pc ≠ .receive)
    (hcount : ∀ x, s.queue.count x + s.s_msg.toList.count x + received.count x =
      (s.queue ++ [m]).count x + s_msg.toList.count x) :
    Kept { s with
      pc, s_msg, mailtosend, mail_timeout, sms := s.sms ++ sms, smsMade := s.smsMade ++ sms
      received := s.received ++ received
      queue := (Fifo.cap MAIL_LIST_SIZE (s.queue ++ [m])).1
      lost := s.lost ++ (Fifo.cap MAIL_LIST_SIZE (s.queue ++ [m])).2 } where
  alerts x := by
    have hold := h.alerts x
    have hcap := count_cap MAIL_LIST_SIZE (s.queue ++ [m]) x
    have hnew := hcount x
    show s.dispatched.count x + (s.lost ++ _).count x + List.count x (Fifo.cap _ _).1 +
      s_msg.toList.count x = (s.received ++ received).count x
    rw [count_append, count_append]
    omega
  messages x := by
    have hold := h.messages x
    show s.smsSent.count x + (s.workers.filterMap Worker.sms).count x + (taken pc).count x +
      (s.sms ++ sms).count x = (s.smsMade ++ sms).count x
    rw [← htaken, count_append, count_append]
    omega
  length_le := length_cap_le ..
  ended := h.ended
  free hreceive := absurd hreceive hpc

/-- A thread sends a mail, or fails to: its SMS message goes one way or the other. -/
theorem Kept.send {i n k : ℕ} {w : Worker} {smsSent sms : List MailMsg} (h : Kept s)
    (hw : s.workers[i]? = some w)
    (hcount : ∀ x, smsSent.count x + sms.count x =
      s.smsSent.count x + s.sms.count x + w.sms.toList.count x) :
    Kept { s with workers := s.workers.set i ⟨n, k, none⟩, smsSent, sms
                  sentInHour := s.sentInHour } := by
  obtain ⟨l₁, l₂, hl, hset, -⟩ := exists_split hw
  refine { h with messages := fun x => ?_, ended := fun v hv => ?_ }
  · have hold := h.messages x
    have hnew := hcount x
    show smsSent.count x + ((s.workers.set i _).filterMap Worker.sms).count x +
      (taken s.pc).count x + sms.count x = s.smsMade.count x
    rw [hl, filterMap_append] at hold
    rw [hset, filterMap_append]
    cases hsms : w.sms with
    | none =>
      rw [hsms] at hnew
      rw [filterMap_cons_none hsms] at hold
      rw [filterMap_cons_none rfl]
      simp only [count_append, toList_none, count_nil] at hold hnew ⊢
      omega
    | some y =>
      rw [hsms] at hnew
      rw [filterMap_cons_some hsms] at hold
      rw [filterMap_cons_none rfl]
      simp only [count_append, count_cons, toList_some, count_nil]
        at hold hnew ⊢
      omega
  · intro hleft
    rcases mem_or_eq_of_mem_set hv with hv | rfl
    · exact h.ended v hv hleft
    · rfl

theorem Kept.finish {i sent active : ℕ} {w : Worker} {pending : Bool} (h : Kept s)
    (hw : s.workers[i]? = some w) (hleft : w.left = 0) :
    Kept { s with workers := s.workers.eraseIdx i, mails_sent_this_hour := sent
                  mail_active_workers := active, mail_hour_rollover_pending := pending } := by
  obtain ⟨l₁, l₂, hl, -, herase⟩ := exists_split hw
  refine { h with messages := fun x => ?_
                  ended := fun v hv => h.ended v (mem_of_mem_eraseIdx hv) }
  have hold := h.messages x
  rw [hl, filterMap_append, filterMap_cons_none (h.ended w (mem_of_getElem? hw) hleft)] at hold
  show s.smsSent.count x + ((s.workers.eraseIdx i).filterMap Worker.sms).count x +
    (taken s.pc).count x + s.sms.count x = s.smsMade.count x
  rw [herase, filterMap_append]
  exact hold

/-- A thread takes its messages over. -/
theorem Kept.create {pc : Pc} {w : Worker} {queue dispatched : List MailMsg} (h : Kept s)
    (hpc : pc ≠ .receive) (hw : w.left ≠ 0 ∨ w.sms = none)
    (htaken : ∀ x, (taken s.pc).count x = w.sms.toList.count x + (taken pc).count x)
    (hqueue : queue.length ≤ s.queue.length)
    (hcount : ∀ x, dispatched.count x + queue.count x =
      s.dispatched.count x + s.queue.count x) :
    Kept { s with pc, workers := s.workers ++ [w], queue, dispatched } where
  alerts x := by
    have hold := h.alerts x
    have hnew := hcount x
    show dispatched.count x + s.lost.count x + queue.count x + s.s_msg.toList.count x =
      s.received.count x
    omega
  messages x := by
    have hold := h.messages x
    have hnew := htaken x
    show s.smsSent.count x + ((s.workers ++ [w]).filterMap Worker.sms).count x +
      (taken pc).count x + s.sms.count x = s.smsMade.count x
    rw [filterMap_append, count_append]
    have hone : ([w].filterMap Worker.sms).count x = w.sms.toList.count x := by
      cases hsms : w.sms with
      | none => rw [filterMap_cons_none hsms]; rfl
      | some y => rw [filterMap_cons_some hsms]; rfl
    rw [hone]
    omega
  length_le := hqueue.trans h.length_le
  ended v hv hleft := by
    rcases mem_append.mp hv with hv | hv
    · exact h.ended v hv hleft
    · obtain rfl := mem_singleton.mp hv
      exact hw.resolve_left (not_not.mpr hleft)
  free hreceive := absurd hreceive hpc

/-- **Every step** keeps the alerts and the SMS messages. -/
theorem Kept.step (h : Kept s) (hstep : Daemon.Step mail s e s') : Kept s' := by
  cases move_of_step hstep with
  | readTime hpc | newHour hpc | smsRoom hpc | smsSlot hpc | smsEmpty hpc | mailRoom hpc
  | mailSlot hpc | rollover hpc | closeHour hpc | mailEmpty hpc | quiet hpc | silent hpc =>
    exact h.goOn (by rw [hpc]; rfl) (by simp)
  | goOn hgoes =>
    exact h.goOn (by rw [hgoes.taken.1, hgoes.taken.2]) hgoes.free
  | smsDequeue hpc hsms =>
    refine { h with messages := fun x => ?_, free := fun hreceive => Pc.noConfusion hreceive }
    have hold := h.messages x
    rw [hpc, hsms, ← singleton_append, count_append] at hold
    rw [← hold]
    exact add_assoc ..
  | addSaved hpc hsaved =>
    have hadd := @Kept.add _ _ .top none [] [] (s.mailtosend + 1) s.mail_timeout h
      (by rw [hpc]; rfl) (by simp) fun x => by
        rw [hsaved, count_append]
        rfl
    simpa only [append_nil] using hadd
  | smsCreated hpc =>
    exact h.create (by simp) (.inl Nat.one_ne_zero) (fun x => by rw [hpc]; rfl) le_rfl
      fun x => rfl
  | smsFailed hpc =>
    refine { h with messages := fun x => ?_, free := fun hreceive => Pc.noConfusion hreceive }
    have hold := h.messages x
    rw [hpc] at hold
    show s.smsSent.count x + (s.workers.filterMap Worker.sms).count x + 0 +
      List.count x (_ :: s.sms) = s.smsMade.count x
    rw [← hold, ← singleton_append, count_append]
    exact (add_assoc ..).symm
  | mailCreated hpc hqueue =>
    refine h.create (by simp) (.inr rfl) (fun x => by rw [hpc]; rfl) (Nat.zero_le _) fun x => ?_
    rw [count_append]
    rfl
  | mailFailed hpc hqueue =>
    refine { h with alerts := fun x => ?_, messages := fun x => ?_, length_le := length_cap_le ..
                    free := fun hreceive => Pc.noConfusion hreceive }
    · have hold := h.alerts x
      have hcap := count_cap MAIL_LIST_SIZE s.queue x
      show s.dispatched.count x + (s.lost ++ _).count x + List.count x (Fifo.cap _ _).1 +
        s.s_msg.toList.count x = s.received.count x
      rw [count_append]
      omega
    · have hold := h.messages x
      rw [hpc] at hold
      exact hold
  | keep hpc =>
    have hsaved := h.free hpc
    refine { h with alerts := fun x => ?_, messages := fun x => ?_
                    free := fun hreceive => Pc.noConfusion hreceive }
    · have hold := h.alerts x
      rw [hsaved] at hold
      show s.dispatched.count x + s.lost.count x + s.queue.count x + _ = (s.received ++ _).count x
      rw [count_append, ← hold]
      rfl
    · have hold := h.messages x
      rw [hpc] at hold
      show s.smsSent.count x + (s.workers.filterMap Worker.sms).count x + 0 +
        (s.sms ++ _).count x = (s.smsMade ++ _).count x
      rw [count_append, count_append, ← hold]
      exact (add_assoc ..).symm
  | add hpc hdue =>
    refine h.add (by rw [hpc]; rfl) (by simp) fun x => ?_
    rw [count_append]
    omega
  | sent hw hleft =>
    refine { @Kept.send s _ _ _ _ (s.smsSent ++ _) s.sms h hw fun x => ?_ with }
    rw [count_append]
    omega
  | notSent hw hleft =>
    refine @Kept.send s _ _ _ _ s.smsSent (_ ++ s.sms) h hw fun x => ?_
    rw [count_append]
    omega
  | finished hw hleft hold => exact h.finish hw hleft
  | lastFinished hw hleft => exact h.finish hw hleft
  | hour => exact { h with }

theorem lost_of_step (hstep : Daemon.Step mail s e s') :
    s'.lost = s.lost ∨ s'.queue.length = MAIL_LIST_SIZE := by
  have hdrop : ∀ queue : List MailMsg, s.lost ++ (Fifo.cap MAIL_LIST_SIZE queue).2 = s.lost ∨
      (Fifo.cap MAIL_LIST_SIZE queue).1.length = MAIL_LIST_SIZE := by
    intro queue
    by_cases hnil : (Fifo.cap MAIL_LIST_SIZE queue).2 = []
    · left
      rw [hnil, append_nil]
    · exact .inr (cap_full hnil)
  cases move_of_step hstep with
  | addSaved => exact hdrop _
  | mailFailed => exact hdrop _
  | add => exact hdrop _
  | _ => exact .inl rfl

/-! ## The dispatcher looks at the queue -/

/-- When alerts wait, mails are to be sent, or will be when no more alerts come. -/
def Due (s : Daemon) : Prop :=
  s.queue ≠ [] → s.mailtosend ≠ 0 ∨ s.mail_timeout = NEXTMAIL_TIMEOUT ∨ s.s_msg ≠ none

theorem cap_ne_nil {n : ℕ} {mails : List MailMsg} (h : (Fifo.cap n mails).1 ≠ []) : mails ≠ [] := by
  rintro rfl
  exact h drop_nil

theorem Due.step (h : Due s) (hstep : Daemon.GoodStep mail s e s') : Due s' := by
  obtain ⟨hstep, hmeets⟩ := hstep
  cases move_of_step hstep with
  | closeHour hpc hnew hactive =>
    rw [Daemon.Meets, hpc] at hmeets
    exact fun hqueue => absurd (hmeets hnew hactive) hqueue
  | addSaved => exact fun _ => .inl (Nat.succ_ne_zero _)
  | mailCreated => exact fun hqueue => absurd rfl hqueue
  | mailFailed => exact fun hqueue => h (cap_ne_nil hqueue)
  | keep => exact fun _ => .inr (.inr (some_ne_none _))
  | add hpc hdue =>
    intro _
    rcases hdue with hsend | htimeout
    · exact .inl hsend
    · exact .inr (.inl htimeout)
  | quiet => exact fun _ => .inl (Nat.succ_ne_zero _)
  | silent hpc htimeout =>
    intro hqueue
    rcases h hqueue with hsend | hnext | hsaved
    · exact .inl hsend
    · exact absurd hnext htimeout
    · exact .inr (.inr hsaved)
  | _ => exact h

/-! ## An hour begins -/

/-- The dispatcher goes on, threads are created, and no alert comes. -/
inductive Calm : Event → Prop
  | turn : Calm .turn
  | created : Calm (.created true)
  | received : Calm (.received none)

/-- The steps in the loop before mails are to be sent: once around it, and twice when an alert is
saved. -/
def around (s : Daemon) : ℕ :=
  if s.mailtosend ≠ 0 ∧ s.mail_timeout ≠ NEXTMAIL_TIMEOUT then 0
  else if s.s_msg = none then 5
  else 9

/-- The steps until the alerts that wait are handed over. -/
def rank (s : Daemon) : ℕ :=
  match s.pc with
  | .top => around s + 6
  | .sms => around s + 5
  | .mails => around s + 4
  | .mailTest => 3
  | .mailSlot => 2
  | .mailCreate => 1
  | .saved => if s.s_msg = none then 8 else 12
  | .receive => 7
  | _ => 0

theorem around_le (s : Daemon) : around s ≤ 9 := by
  rw [around]
  split_ifs <;> decide

/-- More alerts are waited for, or none of those that wait is to be sent yet. -/
theorem around_of_not (h : s.mailtosend = 0 ∨ s.mail_timeout = NEXTMAIL_TIMEOUT) :
    around s = if s.s_msg = none then 5 else 9 := by
  rw [around, if_neg]
  rintro ⟨hsend, htimeout⟩
  exact h.elim hsend htimeout

/-- What is known of the alerts where the dispatcher stands. -/
def Stands (s : Daemon) : Pc → Prop
  | .top | .sms | .mails => True
  | .mailTest | .mailSlot | .mailCreate => s.mail_timeout ≠ NEXTMAIL_TIMEOUT
  | .saved => s.mailtosend = 0 ∨ s.mail_timeout = NEXTMAIL_TIMEOUT
  | .receive => s.mail_timeout = NEXTMAIL_TIMEOUT ∧ s.s_msg = none
  | _ => False

/-- The alerts that waited at `t` wait or are dropped: an hour has begun in which no mail was
sent. -/
structure Waits (t s : Daemon) : Prop where
  workers : s.workers = []
  active : s.mail_active_workers = slot s.pc
  sms : s.sms = []
  pending : s.mail_hour_rollover_pending = false
  hour : (s.pc = .top ∧ s.clock % 24 ≠ s.thishour) ∨
    (s.p = s.clock ∧ s.p % 24 = s.thishour ∧ s.mails_sent_this_hour = 0)
  due : s.mailtosend ≠ 0 ∨ s.mail_timeout = NEXTMAIL_TIMEOUT ∨ s.s_msg ≠ none
  queue : s.queue ≠ []
  stands : Stands s s.pc
  dispatched : s.dispatched = t.dispatched
  kept : t.lost ++ t.queue <+: s.lost ++ s.queue

/-- The alerts that waited at `t` are handed over or dropped. -/
def HandedOver (t s : Daemon) : Prop :=
  ∃ lost handed, lost <+: s.lost ∧ t.dispatched ++ handed <+: s.dispatched ∧
    t.lost ++ t.queue <+: lost ++ handed

theorem prefix_of_step (hstep : Daemon.Step mail s e s') :
    s.lost <+: s'.lost ∧ s.dispatched <+: s'.dispatched := by
  cases move_of_step hstep with
  | addSaved => exact ⟨prefix_append .., prefix_rfl⟩
  | mailFailed => exact ⟨prefix_append .., prefix_rfl⟩
  | add => exact ⟨prefix_append .., prefix_rfl⟩
  | mailCreated => exact ⟨prefix_rfl, prefix_append ..⟩
  | _ => exact ⟨prefix_rfl, prefix_rfl⟩

theorem prefix_of_run {es : List Event} (hrun : Run (Daemon.Step mail) s es s') :
    s.lost <+: s'.lost ∧ s.dispatched <+: s'.dispatched := by
  induction hrun with
  | nil => exact ⟨prefix_rfl, prefix_rfl⟩
  | cons hstep _ ih =>
    obtain ⟨hlost, hdispatched⟩ := prefix_of_step hstep
    exact ⟨hlost.trans ih.1, hdispatched.trans ih.2⟩

theorem HandedOver.step (h : HandedOver t s) (hstep : Daemon.Step mail s e s') :
    HandedOver t s' := by
  obtain ⟨lost, handed, hlost, hhanded, hall⟩ := h
  obtain ⟨hlost', hdispatched'⟩ := prefix_of_step hstep
  exact ⟨lost, handed, hlost.trans hlost', hhanded.trans hdispatched', hall⟩

/-- The saved alert comes to the queue, of which nothing is lost unseen. -/
theorem prefix_cap {lost queue : List MailMsg} (msg : MailMsg)
    (h : t.lost ++ t.queue <+: lost ++ queue) :
    t.lost ++ t.queue <+: lost ++ (Fifo.cap MAIL_LIST_SIZE (queue ++ [msg])).2 ++
      (Fifo.cap MAIL_LIST_SIZE (queue ++ [msg])).1 := by
  rw [append_assoc, cap_append, ← append_assoc]
  exact h.trans (prefix_append ..)

theorem cap_append_ne_nil (queue : List MailMsg) (msg : MailMsg) :
    (Fifo.cap MAIL_LIST_SIZE (queue ++ [msg])).1 ≠ [] := by
  intro h
  have hlen := congrArg List.length h
  rw [Fifo.cap, length_drop, length_append, length_singleton, length_nil, MAIL_LIST_SIZE] at hlen
  omega

theorem Waits.begun (h : Waits t s) (hpc : s.pc ≠ .top) :
    s.p = s.clock ∧ s.p % 24 = s.thishour ∧ s.mails_sent_this_hour = 0 :=
  h.hour.resolve_left fun hold => hpc hold.1

theorem Waits.stands_at (h : Waits t s) {pc : Pc} (hpc : s.pc = pc) : Stands s pc := by
  obtain rfl := hpc
  exact h.stands

theorem Waits.active_at (h : Waits t s) {pc : Pc} (hpc : s.pc = pc) :
    s.mail_active_workers = slot pc := by
  obtain rfl := hpc
  exact h.active

theorem Waits.readTime (h : Waits t s) (hpc : s.pc = .top) :
    Waits t s.readTime ∧ rank s.readTime < rank s := by
  have hactive := h.active_at hpc
  unfold Daemon.readTime
  dsimp only
  split_ifs with hnew
  · constructor
    · exact { h with
        active := hactive
        hour := .inr ⟨rfl, rfl, rfl⟩
        stands := trivial }
    · rw [rank, rank, hpc]
      exact Nat.lt_succ_self _
  · have hsame : s.p = s.clock ∧ s.p % 24 = s.thishour ∧ s.mails_sent_this_hour = 0 := by
      refine h.hour.resolve_left fun hold => hnew ⟨?_, hactive, hold.2⟩
      rw [h.pending]
      rfl
    constructor
    · exact { h with
        active := hactive
        hour := by
          right
          refine ⟨rfl, ?_, hsame.2.2⟩
          show s.clock % 24 = s.thishour
          rw [← hsame.1]
          exact hsame.2.1
        stands := trivial }
    · rw [rank, rank, hpc]
      exact Nat.lt_succ_self _

theorem Waits.testSms (h : Waits t s) (hpc : s.pc = .sms) :
    Waits t (s.testSms mail) ∧ rank (s.testSms mail) < rank s := by
  have hactive := h.active_at hpc
  rw [Daemon.testSms, if_pos h.sms]
  constructor
  · exact { h with
      active := hactive
      hour := .inr (h.begun (by simp [hpc]))
      stands := trivial }
  · rw [rank, rank, hpc]
    exact Nat.lt_succ_self _

theorem Waits.testMails (h : Waits t s) (hpc : s.pc = .mails) :
    Waits t (s.testMails mail) ∧ rank (s.testMails mail) < rank s := by
  have hactive := h.active_at hpc
  have hbegun := h.begun (by simp [hpc])
  have hthishour := hbegun.2.1
  have hsent := hbegun.2.2
  -- the alerts are waited for, or one is saved that is still to be added
  have hback (hnot : s.mailtosend = 0 ∨ s.mail_timeout = NEXTMAIL_TIMEOUT) :
      Waits t { s with pc := .saved } ∧ rank { s with pc := .saved } < rank s := by
    constructor
    · exact { h with
        active := hactive
        hour := .inr hbegun
        stands := hnot }
    · rw [rank, rank, hpc]
      dsimp only
      rw [around_of_not hnot]
      split_ifs <;> decide
  rw [Daemon.testMails]
  split_ifs with htimeout hdue
  · exact hback (.inr htimeout.1)
  · constructor
    · exact { h with
        active := hactive
        hour := .inr hbegun
        stands := fun hnext => htimeout ⟨hnext, hthishour⟩ }
    · rw [rank, rank, hpc]
      dsimp only
      omega
  · refine hback (.inl ?_)
    by_contra hne
    exact hdue (.inl ⟨hne, hsent ▸ mail.maxperhour_pos⟩)

theorem Waits.testQueue (h : Waits t s) (hpc : s.pc = .mailTest) :
    Waits t (s.testQueue mail) ∧ rank (s.testQueue mail) < rank s := by
  have hactive := h.active_at hpc
  have hbegun := h.begun (by simp [hpc])
  rw [Daemon.testQueue, if_pos ⟨h.queue, .inl (hbegun.2.2 ▸ mail.maxperhour_pos)⟩]
  constructor
  · exact { h with
      active := hactive
      hour := .inr hbegun
      stands := h.stands_at hpc }
  · rw [rank, rank, hpc]
    exact Nat.lt_succ_self _

theorem Waits.mailSlot (h : Waits t s) (hpc : s.pc = .mailSlot) :
    Waits t (s.mailSlot mail) ∧ rank (s.mailSlot mail) < rank s := by
  have hzero : s.mail_active_workers = 0 := h.active_at hpc
  rw [Daemon.mailSlot, if_pos (hzero ▸ mail.max_workers_pos)]
  constructor
  · exact { h with
      active := by
        rw [hzero]
        rfl
      hour := .inr (h.begun (by simp [hpc]))
      stands := h.stands_at hpc }
  · rw [rank, rank, hpc]
    exact Nat.lt_succ_self _

theorem Waits.testSaved (h : Waits t s) (hpc : s.pc = .saved) :
    Waits t s.testSaved ∧ rank s.testSaved < rank s := by
  have hactive := h.active_at hpc
  have hbegun := h.begun (by simp [hpc])
  rw [Daemon.testSaved.eq_def]
  split
  · rename_i msg hsaved
    constructor
    · exact { h with
        active := hactive
        hour := .inr hbegun
        due := .inl (Nat.succ_ne_zero _)
        queue := cap_append_ne_nil s.queue msg
        stands := trivial
        kept := prefix_cap msg h.kept }
    · have haround : ∀ u : Daemon, u.s_msg = none → around u ≤ 5 := by
        intro u hu
        rw [around, if_pos hu]
        split_ifs <;> decide
      rw [rank, rank, hpc]
      dsimp only
      rw [hsaved, if_neg (some_ne_none msg)]
      exact Nat.lt_succ_of_le (Nat.add_le_add_right (haround _ rfl) 6)
  · rename_i hsaved
    have htimeout : s.mail_timeout = NEXTMAIL_TIMEOUT := by
      rcases h.due with hsend | hnext | hsome
      · exact (h.stands_at hpc).resolve_left hsend
      · exact hnext
      · exact absurd hsaved hsome
    constructor
    · exact { h with
        active := hactive
        hour := .inr hbegun
        stands := ⟨htimeout, hsaved⟩ }
    · rw [rank, rank, hpc]
      dsimp only
      rw [if_pos hsaved]
      exact Nat.lt_succ_self _

theorem Waits.turn (h : Waits t s) (hturn : s.turn mail = some s') :
    Waits t s' ∧ rank s' < rank s := by
  have hstands := h.stands
  rw [Daemon.turn] at hturn
  cases hpc : s.pc with
  | top =>
    rw [hpc] at hturn
    cases hturn
    exact h.readTime hpc
  | sms =>
    rw [hpc] at hturn
    cases hturn
    exact h.testSms hpc
  | mails =>
    rw [hpc] at hturn
    cases hturn
    exact h.testMails hpc
  | mailTest =>
    rw [hpc] at hturn
    cases hturn
    exact h.testQueue hpc
  | mailSlot =>
    rw [hpc] at hturn
    cases hturn
    exact h.mailSlot hpc
  | saved =>
    rw [hpc] at hturn
    cases hturn
    exact h.testSaved hpc
  | smsSlot | smsDequeue | smsMore | checkHour =>
    rw [hpc] at hstands
    exact hstands.elim
  | smsCreate | mailCreate | receive =>
    rw [hpc] at hturn
    cases hturn

/-- **Every calm step** brings the dispatcher closer to the thread, or creates it. -/
theorem Waits.step (h : Waits t s) (hcalm : Calm e) (hstep : Daemon.Step mail s e s') :
    Waits t s' ∧ rank s' < rank s ∨ HandedOver t s' := by
  cases hcalm with
  | turn => exact .inl (h.turn hstep)
  | created =>
    right
    cases move_of_step hstep with
    | smsCreated hpc => exact (h.stands_at hpc).elim
    | mailEmpty hpc hqueue => exact absurd hqueue h.queue
    | mailCreated hpc hqueue =>
      exact ⟨s.lost, s.queue, prefix_rfl, h.dispatched ▸ prefix_rfl, h.kept⟩
  | received =>
    left
    cases move_of_step hstep with
    | quiet hpc htimeout =>
      have hactive := h.active_at hpc
      constructor
      · exact { h with
          active := hactive
          hour := .inr (h.begun (by simp [hpc]))
          due := .inl (Nat.succ_ne_zero _)
          stands := trivial }
      · rw [rank, rank, hpc]
        dsimp only
        rw [around, if_pos ⟨Nat.succ_ne_zero _, show DEFAULT_TIMEOUT ≠ NEXTMAIL_TIMEOUT by decide⟩]
        decide
    | silent hpc htimeout => exact absurd (h.stands_at hpc).1 htimeout

theorem Waits.run {es : List Event} (h : Waits t s) (hrun : Run (Daemon.Step mail) s es s')
    (hcalm : ∀ e ∈ es, Calm e) (hlen : rank s < es.length) : HandedOver t s' := by
  induction hrun with
  | nil s => cases hlen
  | cons hstep hrest ih =>
    rcases h.step (hcalm _ mem_cons_self) hstep with ⟨hnext, hlt⟩ | hdone
    · refine ih hnext (fun e he => hcalm e (mem_cons_of_mem _ he)) ?_
      rw [length_cons] at hlen
      omega
    · exact hrest.invariant (fun _ _ _ hs hstep => hs.step hstep) hdone

/-- The first SMS message is on its way, and goes to a thread after `n` more calm steps. -/
def SmsDue (mail : MailConfig) (m : MailMsg) (s : Daemon) : ℕ → Prop
  | 0 => ⟨1, 0, some m⟩ ∈ s.workers
  | 1 => s.pc = .smsCreate m
  | 2 => s.pc = .smsDequeue ∧ s.sms.head? = some m
  | 3 => s.pc = .smsSlot ∧ s.sms.head? = some m ∧ s.mail_active_workers = 0
  | 4 => s.pc = .sms ∧ s.sms.head? = some m ∧ s.mail_active_workers = 0 ∧
      s.mails_sent_this_hour < mail.maxperhour
  | 5 => s.pc = .top ∧ s.sms.head? = some m ∧ s.mail_active_workers = 0 ∧
      s.mail_hour_rollover_pending = false ∧ s.clock % 24 ≠ s.thishour
  | _ => False

theorem SmsDue.step {n : ℕ} (h : SmsDue mail m s (n + 1)) (hcalm : Calm e)
    (hstep : Daemon.Step mail s e s') : SmsDue mail m s' n := by
  match n with
  | 0 =>
    have hpc : s.pc = .smsCreate m := h
    cases hcalm with
    | turn => rw [Daemon.Step, Daemon.next, Daemon.turn, hpc] at hstep; cases hstep
    | created =>
      rw [Daemon.Step, Daemon.next, create, hpc] at hstep
      cases hstep
      exact mem_append_right _ mem_cons_self
    | received => rw [Daemon.Step, Daemon.next, Daemon.receive, hpc] at hstep; cases hstep
  | 1 =>
    obtain ⟨hpc, hhead⟩ := h
    obtain ⟨sms, hsms⟩ := head?_eq_some_iff.mp hhead
    cases hcalm with
    | turn =>
      rw [Daemon.Step, Daemon.next, Daemon.turn, hpc] at hstep
      cases hstep
      show Daemon.pc _ = _
      rw [Daemon.smsDequeue, hsms]
    | created => rw [Daemon.Step, Daemon.next, create, hpc] at hstep; cases hstep
    | received => rw [Daemon.Step, Daemon.next, Daemon.receive, hpc] at hstep; cases hstep
  | 2 =>
    obtain ⟨hpc, hhead, hactive⟩ := h
    cases hcalm with
    | turn =>
      rw [Daemon.Step, Daemon.next, Daemon.turn, hpc] at hstep
      cases hstep
      rw [Daemon.smsSlot, if_pos (hactive ▸ mail.max_workers_pos)]
      exact ⟨rfl, hhead⟩
    | created => rw [Daemon.Step, Daemon.next, create, hpc] at hstep; cases hstep
    | received => rw [Daemon.Step, Daemon.next, Daemon.receive, hpc] at hstep; cases hstep
  | 3 =>
    obtain ⟨hpc, hhead, hactive, hsent⟩ := h
    have hsms : s.sms ≠ [] := by
      intro hnil
      rw [hnil] at hhead
      cases hhead
    cases hcalm with
    | turn =>
      rw [Daemon.Step, Daemon.next, Daemon.turn, hpc] at hstep
      cases hstep
      rw [testSms, if_neg hsms, if_neg (not_le.mpr hsent)]
      exact ⟨rfl, hhead, hactive⟩
    | created => rw [Daemon.Step, Daemon.next, create, hpc] at hstep; cases hstep
    | received => rw [Daemon.Step, Daemon.next, Daemon.receive, hpc] at hstep; cases hstep
  | 4 =>
    obtain ⟨hpc, hhead, hactive, hpending, hnew⟩ := h
    cases hcalm with
    | turn =>
      rw [Daemon.Step, Daemon.next, Daemon.turn, hpc] at hstep
      cases hstep
      rw [Daemon.readTime]
      dsimp only
      rw [if_pos ⟨by rw [hpending]; rfl, hactive, hnew⟩]
      exact ⟨rfl, hhead, hactive, mail.maxperhour_pos⟩
    | created => rw [Daemon.Step, Daemon.next, create, hpc] at hstep; cases hstep
    | received => rw [Daemon.Step, Daemon.next, Daemon.receive, hpc] at hstep; cases hstep

theorem mem_workers_of_calm {w : Worker} (h : w ∈ s.workers) (hcalm : Calm e)
    (hstep : Daemon.Step mail s e s') : w ∈ s'.workers := by
  cases hcalm <;> cases move_of_step hstep <;>
    first | exact h | exact mem_append_left _ h

theorem SmsDue.run {n : ℕ} {es : List Event} (h : SmsDue mail m s n)
    (hrun : Run (Daemon.Step mail) s es s') (hcalm : ∀ e ∈ es, Calm e) (hlen : n ≤ es.length) :
    ⟨1, 0, some m⟩ ∈ s'.workers := by
  induction hrun generalizing n with
  | nil s =>
    obtain rfl := Nat.le_zero.mp hlen
    exact h
  | cons hstep hrest ih =>
    have hfirst := hcalm _ mem_cons_self
    have hothers := fun e he => hcalm e (mem_cons_of_mem _ he)
    match n with
    | 0 =>
      have hmem : SmsDue mail m _ 0 := mem_workers_of_calm h hfirst hstep
      exact ih hmem hothers (Nat.zero_le _)
    | n + 1 =>
      rw [length_cons] at hlen
      exact ih (h.step hfirst hstep) hothers (by omega)

/-! ## The law -/

/-- The limit is kept, and it delays the alerts only. -/
structure Delivers (mail : MailConfig) (s : Daemon) : Prop where
  sent_le : s.sentInHour ≤ mail.maxperhour
  kept : Kept s
  /-- Only a full queue drops alerts. -/
  full (e : Event) (s' : Daemon) : Daemon.Step mail s e s' →
    s'.lost = s.lost ∨ s'.queue.length = MAIL_LIST_SIZE
  /-- An hour has begun, and the threads of the last one have ended: when no alerts come, those that
  wait are handed over within sixteen steps. -/
  mails : s.pc = .top → s.workers = [] → s.clock % 24 ≠ s.thishour → s.sms = [] →
    ∀ es s', Run (Daemon.Step mail) s es s' → (∀ e ∈ es, Calm e) → 15 < es.length →
      HandedOver s s'
  /-- SMS messages go first. -/
  sms : s.pc = .top → s.workers = [] → s.clock % 24 ≠ s.thishour → ∀ m, s.sms.head? = some m →
    ∀ es s', Run (Daemon.Step mail) s es s' → (∀ e ∈ es, Calm e) → 5 ≤ es.length →
      ⟨1, 0, some m⟩ ∈ s'.workers

theorem Capped.pending_false (h : Capped mail s) (hworkers : s.workers = []) :
    s.mail_hour_rollover_pending = false := by
  by_contra hp
  exact h.pending (Bool.eq_true_of_not_eq_false hp) hworkers

theorem Capped.active_eq_zero (h : Capped mail s) (hpc : s.pc = .top) (hworkers : s.workers = []) :
    s.mail_active_workers = 0 := by
  rw [h.active, hpc, hworkers]
  rfl

/-- **Mails of an hour**: along every run of which no step does harm, no more mails are sent in an
hour than `email_maxperhour`; every alert and every SMS message is accounted for; and when an hour
has begun, what waits is handed over. -/
theorem mailCap_law (mail : MailConfig) {hour : ℕ} {es : List Event}
    (hrun : Run (Daemon.GoodStep mail) (start hour) es s) : Delivers mail s := by
  obtain ⟨hcapped, hkept, hdue⟩ : Capped mail s ∧ Kept s ∧ Due s := by
    have hstep : ∀ s e s', (Capped mail s ∧ Kept s ∧ Due s) → Daemon.GoodStep mail s e s' →
        (Capped mail s' ∧ Kept s' ∧ Due s') :=
      fun s e s' ⟨hcapped, hkept, hdue⟩ hstep =>
        ⟨hcapped.step hstep, hkept.step hstep.1, hdue.step hstep⟩
    exact hrun.invariant hstep ⟨capped_start mail hour, kept_start hour, fun h => absurd rfl h⟩
  exact {
    sent_le := hcapped.sentInHour_le
    kept := hkept
    full := fun e s' hstep => lost_of_step hstep
    mails := by
      intro hpc hworkers hnew hsms es s' hrun hcalm hlen
      by_cases hqueue : s.queue = []
      case pos =>
        obtain ⟨hlost, hdispatched⟩ := prefix_of_run hrun
        refine ⟨s.lost, [], hlost, ?_, ?_⟩
        · rwa [append_nil]
        · have hsame : s.lost ++ s.queue = s.lost ++ [] := congrArg _ hqueue
          exact hsame ▸ prefix_rfl
      case neg =>
        have hwaits : Waits s s := {
          workers := hworkers
          active := by
            rw [hcapped.active_eq_zero hpc hworkers, hpc]
            rfl
          sms := hsms
          pending := hcapped.pending_false hworkers
          hour := .inl ⟨hpc, hnew⟩
          due := hdue hqueue
          queue := hqueue
          stands := by
            rw [hpc]
            trivial
          dispatched := rfl
          kept := prefix_rfl }
        refine hwaits.run hrun hcalm (lt_of_le_of_lt ?_ hlen)
        rw [rank, hpc]
        exact Nat.add_le_add_right (around_le s) 6
    sms := by
      intro hpc hworkers hnew m hhead es s' hrun hcalm hlen
      have hsms : SmsDue mail m s 5 :=
        ⟨hpc, hhead, hcapped.active_eq_zero hpc hworkers, hcapped.pending_false hworkers, hnew⟩
      exact hsms.run hrun hcalm hlen }

/-- One mail an hour, not grouped. -/
def oneMail (workers : ℕ) (hpos : 0 < workers) : MailConfig where
  maxperhour := 1
  mail_max_workers := workers
  groupping := false
  gran_to := none
  maxperhour_pos := Nat.one_pos
  max_workers_pos := hpos

def oneAlert : Incoming where
  al_data := ⟨lit "a", 7, 5, none⟩
  subject := lit "s"
  body := lit "b"
  addr := 1
  sms_subject := []
  sms_body := []
  sms_addr := 2

/-- The dispatcher hands an alert over, which a thread sends: no step does harm. -/
theorem mailCap_law_one : ∃ s : Daemon,
    Delivers (oneMail 1 (by decide)) s ∧ s.sentInHour = 1 ∧ s.queue = [] := by
  have hrun : ∃ s, Run (Daemon.GoodStep (oneMail 1 (by decide))) (start 0)
      [.turn, .turn, .turn, .turn, .received (some oneAlert), .turn, .turn, .turn, .turn, .turn,
        .created true, .send 0 true, .finish 0] s ∧ s.sentInHour = 1 ∧ s.queue = [] := by
    refine ⟨_, .cons ⟨rfl, trivial⟩ (.cons ⟨rfl, fun h => absurd rfl h⟩ (.cons ⟨rfl, trivial⟩
      (.cons ⟨rfl, trivial⟩ (.cons ⟨rfl, trivial⟩ (.cons ⟨rfl, trivial⟩
      (.cons ⟨rfl, fun h => absurd rfl h⟩ (.cons ⟨rfl, trivial⟩ (.cons ⟨rfl, ?_⟩
      (.cons ⟨rfl, ?_⟩ (.cons ⟨rfl, fun _ => rfl⟩ (.cons ⟨rfl, trivial⟩
      (.cons ⟨rfl, trivial⟩ (.nil _))))))))))))), ?_, ?_⟩
    · exact fun _ _ _ => .inl (Nat.le_refl 1)
    · exact fun _ => ⟨rfl, rfl, rfl⟩
    · rfl
    · rfl
  obtain ⟨s, hrun, hsent, hqueue⟩ := hrun
  exact ⟨s, mailCap_law _ hrun, hsent, hqueue⟩

/-- Two threads are started before the first one has ended, and each sends the one mail of the
hour. -/
theorem not_mailCap : ¬ ∀ (mail : MailConfig) (hour : ℕ) (es : List Event) (s : Daemon),
    Run (Daemon.Step mail) (start hour) es s → s.sentInHour ≤ mail.maxperhour := by
  intro h
  have hrun : ∃ s, Run (Daemon.Step (oneMail 2 (by decide))) (start 0)
      [.turn, .turn, .turn, .turn, .received (some oneAlert),
        .turn, .turn, .turn, .turn, .turn, .created true, .turn, .turn,
        .received (some oneAlert), .turn, .turn, .turn, .turn, .turn, .created true,
        .send 0 true, .send 1 true] s ∧ s.sentInHour = 2 :=
    ⟨_, .cons rfl (.cons rfl (.cons rfl (.cons rfl (.cons rfl (.cons rfl (.cons rfl (.cons rfl
      (.cons rfl (.cons rfl (.cons rfl (.cons rfl (.cons rfl (.cons rfl (.cons rfl (.cons rfl
      (.cons rfl (.cons rfl (.cons rfl (.cons rfl (.cons rfl (.cons rfl
      (.nil _)))))))))))))))))))))), rfl⟩
  obtain ⟨s, hrun, hsent⟩ := hrun
  have hle := h _ _ _ s hrun
  rw [hsent] at hle
  exact absurd hle (by decide)

end Maild
