import OssecHids.OsMaild.SplitBatch

/-!
# The dispatcher of mails

`OS_Run` adds the alerts to a queue, and hands the queue and the SMS messages over to threads that
send them. The threads add the number of mails they have sent to a counter when they end; the
dispatcher compares it with `email_maxperhour` before it starts a thread.

- `next`: the steps of the dispatcher, of the threads and of the clock, in any order.
-/

open CString Grouping

namespace Maild

def FORWARD_NOW : ℕ := 4

def DONOTGROUP : ℕ := 5

/-- Max number of emails to be saved. -/
def MAIL_LIST_SIZE : ℕ := 96

def NEXTMAIL_TIMEOUT : ℕ := 2

def DEFAULT_TIMEOUT : ℕ := 18

/-- What `MailConf` and `getDefine_Int` accept. -/
structure MailConfig where
  maxperhour : ℕ
  mail_max_workers : ℕ
  groupping : Bool
  gran_to : Option (List GranEntry)
  maxperhour_pos : 0 < maxperhour
  max_workers_pos : 0 < mail_max_workers

/-! ## Messages -/

/-- An alert that `Read_FileMon` returns, with the texts that are made from it and the addresses of
its tables. -/
structure Incoming where
  al_data : AlertData
  subject : Bytes
  body : Bytes
  addr : ℕ
  sms_subject : Bytes
  sms_body : Bytes
  sms_addr : ℕ

/-- `Mail->priority`: what the last entry says that matches the alert and has a say. -/
def priority (gran_to : Option (List GranEntry)) (al_data : AlertData) : ℕ :=
  (gran_to.getD []).foldl
    (fun priority e =>
      if e.mark al_data ≠ FULL_FORMAT then priority
      else if e.gran_format = FORWARD_NOW then 1
      else if e.gran_format = DONOTGROUP then DONOTGROUP
      else priority) 0

def Incoming.mail (gran_to : Option (List GranEntry)) (msg : Incoming) : MailMsg where
  level := msg.al_data.level
  subject := msg.subject
  body := msg.body
  gran_set := recvGranSet gran_to msg.al_data msg.addr

/-- The SMS message, if an entry asks for one. -/
def Incoming.sms (gran_to : Option (List GranEntry)) (msg : Incoming) : Option MailMsg :=
  if (gran_to.getD []).any fun e => e.mark msg.al_data == SMS_FORMAT then
    some { level := 0
           subject := msg.sms_subject
           body := msg.sms_body
           gran_set := recvGranSet gran_to msg.al_data msg.sms_addr }
  else none

/-- The number of mails for a batch: one for each group of alerts with the same recipients. -/
def mailsOf (batch : List MailMsg) : ℕ := (groups fullFormat batch).length

/-! ## State -/

/-- A thread: the mails it has to send, those it has sent, and its SMS message until that is sent
or put back. -/
structure Worker where
  left : ℕ
  sent : ℕ
  sms : Option MailMsg
  deriving DecidableEq, Repr

/-- Where `OS_Run` stands. -/
inductive Pc
  /-- At the start of the loop. -/
  | top
  /-- At `OS_SmsQueuePending`. -/
  | sms
  /-- The counter is below the limit; a free thread is looked for. -/
  | smsSlot
  | smsDequeue
  /-- At `CreateThread`. -/
  | smsCreate (sms_msg : MailMsg)
  /-- At the second `OS_SmsQueuePending`. -/
  | smsMore
  /-- At the test of `mail_timeout` and of the hour. -/
  | mails
  /-- At `OS_CheckLastMail`. -/
  | mailTest
  | mailSlot
  /-- At `OS_DrainMailListUnlocked` and `CreateThread`. -/
  | mailCreate
  /-- At the label `snd_check_hour`. -/
  | checkHour
  /-- At the test of `s_msg`. -/
  | saved
  /-- At `OS_RecvMailQ`. -/
  | receive
  deriving DecidableEq, Repr

/-- The daemon. Hours are counted; `tm_hour` is the remainder by 24. -/
structure Daemon where
  pc : Pc := .top
  /-- The hour that was read last. -/
  p : ℕ
  thishour : ℕ
  mailtosend : ℕ := 0
  mail_timeout : ℕ := DEFAULT_TIMEOUT
  s_msg : Option MailMsg := none
  mails_sent_this_hour : ℕ := 0
  mail_hour_rollover_pending : Bool := false
  mail_active_workers : ℕ := 0
  workers : List Worker := []
  queue : List MailMsg := []
  sms : List MailMsg := []
  /-- The hour it is. -/
  clock : ℕ
  /-- The mails that were sent in the hour it is. -/
  sentInHour : ℕ := 0
  /-- The alerts that were received, handed over to a thread, and dropped from a full queue. -/
  received : List MailMsg := []
  dispatched : List MailMsg := []
  lost : List MailMsg := []
  /-- The SMS messages that were made, and those that were sent. -/
  smsMade : List MailMsg := []
  smsSent : List MailMsg := []
  deriving DecidableEq, Repr

def Daemon.start (hour : ℕ) : Daemon := { p := hour, thishour := hour % 24, clock := hour }

inductive Event
  /-- `OS_Run` goes on. -/
  | turn
  /-- `CreateThread` returns. -/
  | created (ok : Bool)
  /-- `OS_RecvMailQ` returns. -/
  | received (msg : Option Incoming)
  /-- A thread has tried to send a mail. -/
  | send (i : ℕ) (ok : Bool)
  /-- A thread ends. -/
  | finish (i : ℕ)
  /-- The hour changes. -/
  | hour

namespace Daemon

/-! ## `OS_Run` -/

variable (mail : MailConfig) (s : Daemon)

/-- `OS_AddMailtoList` -/
def addMailtoList (msg : MailMsg) : Daemon :=
  let (queue, lost) := Fifo.cap MAIL_LIST_SIZE (s.queue ++ [msg])
  { s with queue, lost := s.lost ++ lost }

/-- The time is read. A new hour begins when no thread is active. -/
def readTime : Daemon :=
  let s := { s with pc := .sms, p := s.clock }
  if !s.mail_hour_rollover_pending ∧ s.mail_active_workers = 0 ∧ s.p % 24 ≠ s.thishour then
    { s with thishour := s.p % 24, mails_sent_this_hour := 0 }
  else s

/-- SMS messages are sent without grouping delay. -/
def testSms : Daemon :=
  if s.sms = [] then { s with pc := .mails }
  else if s.mails_sent_this_hour ≥ mail.maxperhour then { s with pc := .smsMore }
  else { s with pc := .smsSlot }

def smsSlot : Daemon :=
  if s.mail_active_workers < mail.mail_max_workers then
    { s with pc := .smsDequeue, mail_active_workers := s.mail_active_workers + 1 }
  else { s with pc := .smsMore }

def smsDequeue : Daemon :=
  match s.sms with
  | [] => { s with pc := .smsMore, mail_active_workers := s.mail_active_workers - 1 }
  | sms_msg :: sms => { s with pc := .smsCreate sms_msg, sms }

def smsMore : Daemon := if s.sms = [] then { s with pc := .mails } else { s with pc := .top }

def testMails : Daemon :=
  if s.mail_timeout = NEXTMAIL_TIMEOUT ∧ s.p % 24 = s.thishour then
    { s with pc := .saved }
  else if (s.mailtosend ≠ 0 ∧ s.mails_sent_this_hour < mail.maxperhour) ∨
      s.p % 24 ≠ s.thishour then
    { s with pc := .mailTest }
  else { s with pc := .saved }

def testQueue : Daemon :=
  if s.queue ≠ [] ∧ (s.mails_sent_this_hour < mail.maxperhour ∨ s.p % 24 ≠ s.thishour) then
    { s with pc := .mailSlot }
  else { s with pc := .checkHour }

def mailSlot : Daemon :=
  if s.mail_active_workers < mail.mail_max_workers then
    { s with pc := .mailCreate, mail_active_workers := s.mail_active_workers + 1 }
  else { s with pc := .checkHour }

def checkHour : Daemon :=
  let s := { s with pc := .saved }
  if s.p % 24 ≠ s.thishour then
    if s.mail_active_workers > 0 then { s with mail_hour_rollover_pending := true }
    else { s with thishour := s.p % 24, mailtosend := 0, mails_sent_this_hour := 0 }
  else s

/-- The message saved for the `do_not_group` option. -/
def testSaved : Daemon :=
  match s.s_msg with
  | some msg =>
    { s.addMailtoList msg with pc := .top, s_msg := none, mailtosend := s.mailtosend + 1 }
  | none => { s with pc := .receive }

/-- The steps that ask for nothing from outside. -/
def turn : Option Daemon :=
  match s.pc with
  | .top => some s.readTime
  | .sms => some (s.testSms mail)
  | .smsSlot => some (s.smsSlot mail)
  | .smsDequeue => some s.smsDequeue
  | .smsMore => some s.smsMore
  | .mails => some (s.testMails mail)
  | .mailTest => some (s.testQueue mail)
  | .mailSlot => some (s.mailSlot mail)
  | .checkHour => some s.checkHour
  | .saved => some s.testSaved
  | .smsCreate _ | .mailCreate | .receive => none

/-- A thread is created, or not; what it was to send is put back then. Only `OS_Run` adds to the
queue, so it is still empty. -/
def create (ok : Bool) : Option Daemon :=
  match s.pc with
  | .smsCreate sms_msg =>
    some <|
      if ok then { s with pc := .smsMore, workers := s.workers ++ [⟨1, 0, some sms_msg⟩] }
      else { s with pc := .smsMore, mail_active_workers := s.mail_active_workers - 1
                    sms := sms_msg :: s.sms }
  | .mailCreate =>
    some <|
      if s.queue = [] then
        { s with pc := .checkHour, mail_active_workers := s.mail_active_workers - 1 }
      else if ok then
        { s with pc := .checkHour, workers := s.workers ++ [⟨mailsOf s.queue, 0, none⟩]
                 queue := [], dispatched := s.dispatched ++ s.queue }
      else
        let (queue, lost) := Fifo.cap MAIL_LIST_SIZE (s.queue ++ [])
        { s with pc := .top, mail_active_workers := s.mail_active_workers - 1
                 queue, lost := s.lost ++ lost }
  | _ => none

/-- An alert is saved or added to the queue; its SMS message is queued. -/
def receiveMsg (msg : Incoming) : Daemon :=
  let priority := priority mail.gran_to msg.al_data
  let m := msg.mail mail.gran_to
  let sms := (msg.sms mail.gran_to).toList
  let s := { s with sms := s.sms ++ sms, smsMade := s.smsMade ++ sms
                    received := s.received ++ [m] }
  let s := if priority = DONOTGROUP then { s with s_msg := some m } else s.addMailtoList m
  if mail.groupping then
    if priority ≠ 0 then
      { s with mail_timeout := DEFAULT_TIMEOUT
               mailtosend := if priority ≠ DONOTGROUP then s.mailtosend + 1 else s.mailtosend }
    else { s with mail_timeout := NEXTMAIL_TIMEOUT }
  else { s with mailtosend := s.mailtosend + 1 }

def receive (msg : Option Incoming) : Option Daemon :=
  if s.pc ≠ .receive then none
  else
    match msg with
    | some msg => some { s.receiveMsg mail msg with pc := .top }
    | none =>
      if s.mail_timeout = NEXTMAIL_TIMEOUT then
        some { s with pc := .top, mailtosend := s.mailtosend + 1, mail_timeout := DEFAULT_TIMEOUT }
      else some { s with pc := .top }

/-! ## Threads -/

/-- `OS_Sendmail` or `OS_Sendsms` returns. An SMS message that was not sent is put back. -/
def workerSend (i : ℕ) (ok : Bool) : Option Daemon :=
  (s.workers[i]?).bind fun w =>
    if w.left = 0 then none
    else if ok then
      some { s with workers := s.workers.set i ⟨w.left - 1, w.sent + 1, none⟩
                    sentInHour := s.sentInHour + 1, smsSent := s.smsSent ++ w.sms.toList }
    else
      some { s with workers := s.workers.set i ⟨w.left - 1, w.sent, none⟩
                    sms := w.sms.toList ++ s.sms }

/-- `mail_worker_finished` -/
def mailWorkerFinished (sent : ℕ) : Daemon :=
  let s := { s with mails_sent_this_hour := s.mails_sent_this_hour + sent
                    mail_active_workers := s.mail_active_workers - 1 }
  if s.mail_active_workers = 0 ∧ s.mail_hour_rollover_pending then
    { s with mails_sent_this_hour := 0, mail_hour_rollover_pending := false }
  else s

def workerFinish (i : ℕ) : Option Daemon :=
  (s.workers[i]?).bind fun w =>
    if w.left = 0 then some ({ s with workers := s.workers.eraseIdx i }.mailWorkerFinished w.sent)
    else none

/-! ## Runs -/

def next : Event → Option Daemon
  | .turn => s.turn mail
  | .created ok => s.create ok
  | .received msg => s.receive mail msg
  | .send i ok => s.workerSend i ok
  | .finish i => s.workerFinish i
  | .hour => some { s with clock := s.clock + 1, sentInHour := 0 }

def Step (s : Daemon) (e : Event) (s' : Daemon) : Prop := s.next mail e = some s'

end Daemon

end Maild
