import OssecHids.Analysisd.CleanLaw
import OssecHids.Remoted.ArForward

/-!
# The way of an event

An agent writes its events to a queue with `SendMSG`. On the server they are written to another one,
behind the name and the address of the agent, and `OS_CleanMSG_ex` takes them apart.

- `source_of_handleMessage`: an event is that of the agent whose message it comes from, whatever the
  message says;
- `eventPath_law`: the location and the log arrive as the agent has them.
-/

open CString CleanEvent List Option

namespace Remoted

def SECURE_MQ : UInt8 := chr '4'

def OS_FLSIZE : ℕ := 256

/-- `SendMSG`: the text for the queue, if there is one. -/
def sendMSG (message locmsg : Bytes) (loc : UInt8) : Option Bytes :=
  if loc = SECURE_MQ then
    -- the message has an id and a location of its own
    let loc := message.headD 0
    let message := message.drop 1
    if message.headD 0 ≠ chr ':' then none
    else
      let message := message.drop 1
      if strncmpEq 9 message (lit "keepalive") then none
      else some (snprintf OS_MAXSTR (loc :: chr ':' :: (locmsg ++ (lit "->" ++ message))))
  else some (snprintf OS_MAXSTR (loc :: chr ':' :: (locmsg ++ chr ':' :: message)))

/-- What `HandleSecureMessage` writes to the queue for a message that is no command. -/
def handleMessage (name ip tmp_msg : Bytes) : Option Bytes :=
  if CONTROL_HEADER.isPrefixOf tmp_msg then none
  else sendMSG tmp_msg (snprintf OS_FLSIZE (srcmsg name ip)) SECURE_MQ

/-- A name and an address from the keys file. -/
structure Source (name ip : Bytes) : Prop where
  ne_nil : name ≠ []
  paren : chr ')' ∉ name
  arrow : ¬ lit "->" <:+: srcmsg name ip
  plain : ∀ b ∈ srcmsg name ip, isControlCharacter b = false
  length : (srcmsg name ip).length < OS_FLSIZE

variable {name ip tmp_msg msg file log : Bytes} {lf : CleanEvent.Eventinfo}

theorem ne_zero_of_plain {s : Bytes} (hs : ∀ b ∈ s, isControlCharacter b = false) :
    ∀ b ∈ s, b ≠ 0 := by
  rintro b hb rfl
  exact Bool.noConfusion (hs 0 hb)

theorem removeControlCharacters_self {s : Bytes} (hs : ∀ b ∈ s, isControlCharacter b = false) :
    removeControlCharacters s = s ∧ ∀ keep, removeControlCharactersEx s keep = s := by
  refine ⟨filter_eq_self.mpr fun b hb => ?_, fun keep => filter_eq_self.mpr fun b hb => ?_⟩
  · rw [hs b hb, Bool.not_false]
  · rw [hs b hb, Bool.not_false, Bool.or_true]

theorem Source.ne_zero (h : Source name ip) : ∀ b ∈ srcmsg name ip, b ≠ 0 :=
  ne_zero_of_plain h.plain

theorem take_ptrDiff (l t : Bytes) : (l ++ t).take (ptrDiff t (l ++ t)) = l := by
  rw [ptrDiff, length_append, Nat.add_sub_cancel, take_left]

theorem isSome_strchr_append {c : UInt8} {l r : Bytes} (hl : ∀ b ∈ l, b ≠ 0)
    (h : (strchr c r).isSome) : (strchr c (l ++ r)).isSome := by
  induction l with
  | nil => exact h
  | cons b l ih =>
    rw [forall_mem_cons] at hl
    rw [cons_append, strchr, if_neg hl.1]
    split_ifs
    · rfl
    · exact ih hl.2

/-- The location ends at the first colon of the agent's own text. -/
theorem locationEnd_append (h : Source name ip) (r : Bytes) :
    locationEnd (srcmsg name ip ++ (lit "->" ++ r)) =
      (strchr (chr ':') r).map fun p =>
        (srcmsg name ip ++ (lit "->" ++ r.take (ptrDiff p r)), p.tail) := by
  have harrow : strstr (lit "->") (srcmsg name ip ++ (lit "->" ++ r)) = some (lit "->" ++ r) :=
    strstr_pair (by decide) h.arrow
  have hskip : strchr (chr ':') (lit "->" ++ r) = strchr (chr ':') r := rfl
  have hhead : (srcmsg name ip ++ (lit "->" ++ r)).head? = some (chr '(') := rfl
  rw [locationEnd]
  simp only [hhead, if_true, harrow, bind_some, hskip]
  cases hcolon : strchr (chr ':') r with
  | none => cases strchr (chr ':') (srcmsg name ip ++ (lit "->" ++ r)) <;> rfl
  | some p =>
    have hsome : (strchr (chr ':') (srcmsg name ip ++ (lit "->" ++ r))).isSome :=
      isSome_strchr_append h.ne_zero (by rw [hskip, hcolon]; rfl)
    obtain ⟨colon, heq⟩ := isSome_iff_exists.mp hsome
    obtain ⟨l, r', rfl, rfl, -⟩ := exists_of_strchr_eq_some hcolon
    have hwhole : srcmsg name ip ++ (lit "->" ++ (l ++ chr ':' :: r')) =
        (srcmsg name ip ++ (lit "->" ++ l)) ++ chr ':' :: r' := by simp
    rw [heq, hwhole]
    simp only [map_some, take_ptrDiff]

/-- What is in front of the agent's own text is in the location, and names the agent. -/
theorem agentName_srcmsg (h : Source name ip) (r : Bytes) :
    agentName (srcmsg name ip ++ r) = some name := by
  have hname : ∀ b ∈ name, b ≠ 0 := fun b hb => h.ne_zero b (by simp [srcmsg, hb])
  have htail : (srcmsg name ip ++ r).tail = name ++ chr ')' :: (chr ' ' :: ip ++ r) := by
    simp [srcmsg]
  have hhead : (srcmsg name ip ++ r).head? = some (chr '(') := rfl
  rw [agentName, if_pos hhead, htail, cutAt_append h.paren hname]
  exact if_pos h.ne_nil

theorem removeControlCharacters_srcmsg (h : Source name ip) (r : Bytes) :
    removeControlCharacters (srcmsg name ip ++ (lit "->" ++ r)) =
      srcmsg name ip ++ (lit "->" ++ removeControlCharacters r) := by
  have hself := (removeControlCharacters_self h.plain).1
  rw [removeControlCharacters] at hself
  rw [removeControlCharacters, filter_append, filter_append, hself]
  rfl

/-- A text for the queue behind its id, of which only the end is cut. -/
theorem drop_snprintf (h : Source name ip) (loc : UInt8) (m : Bytes) :
    (snprintf OS_MAXSTR (loc :: chr ':' :: (snprintf OS_FLSIZE (srcmsg name ip) ++
        (lit "->" ++ m)))).drop 2 =
      srcmsg name ip ++ (lit "->" ++ m.take (OS_MAXSTR - 5 - (srcmsg name ip).length)) := by
  have hlen := h.length
  have hmax : OS_MAXSTR - 1 = 2 + ((srcmsg name ip).length +
      ((lit "->").length + (OS_MAXSTR - 5 - (srcmsg name ip).length))) := by
    simp only [OS_MAXSTR, OS_FLSIZE, show (lit "->").length = 2 from rfl] at hlen ⊢
    omega
  have hfits : snprintf OS_FLSIZE (srcmsg name ip) = srcmsg name ip :=
    take_of_length_le (Nat.le_sub_one_of_lt hlen)
  rw [hfits, snprintf, hmax, drop_take, Nat.add_sub_cancel_left]
  show take _ (srcmsg name ip ++ (lit "->" ++ m)) = _
  rw [take_length_add_append, take_length_add_append]

theorem exists_of_handleMessage (h : Source name ip)
    (hsent : handleMessage name ip tmp_msg = some msg) :
    ∃ r, msg.drop 2 = srcmsg name ip ++ (lit "->" ++ r) := by
  rw [handleMessage, sendMSG, if_pos rfl] at hsent
  dsimp only at hsent
  split_ifs at hsent
  cases hsent
  exact ⟨_, drop_snprintf h _ _⟩

/-- **Where an event comes from**: whatever an agent sends, the event has its name, and its address
is in front of what it says of the location. -/
theorem source_of_handleMessage (h : Source name ip)
    (hsent : handleMessage name ip tmp_msg = some msg)
    (hclean : osCleanMSGex msg = some (some lf)) :
    lf.agent_name = some name ∧ srcmsg name ip ++ lit "->" <+: lf.location := by
  obtain ⟨r, hr⟩ := exists_of_handleMessage h hsent
  rw [osCleanMSGex] at hclean
  split_ifs at hclean
  cases hparts : messageParts (msg.drop 2) with
  | none =>
    rw [hparts] at hclean
    cases hclean
  | some parts =>
    rw [hparts] at hclean
    obtain ⟨header, -, heq⟩ := map_eq_some_iff.mp hclean
    cases heq
    obtain ⟨⟨location, rest⟩, hend, hparts⟩ := bind_eq_some_iff.mp hparts
    rw [hr, locationEnd_append h] at hend
    obtain ⟨p, -, heq⟩ := map_eq_some_iff.mp hend
    cases heq
    dsimp only at hparts
    split_ifs at hparts
    cases hparts
    rw [removeControlCharacters_srcmsg h]
    refine ⟨agentName_srcmsg h _, ?_⟩
    rw [← append_assoc]
    exact prefix_append _ _

theorem source_web : Source (lit "web") (lit "10.0.0.1") where
  ne_nil := by decide
  paren := by decide
  arrow hinner := by
    have hhead : chr '>' ∉ srcmsg (lit "web") (lit "10.0.0.1") := by decide
    exact hhead (hinner.subset (mem_cons_of_mem _ mem_cons_self))
  plain := forall_mem_of_all (by decide)
  length := by decide

/-- An event with the name and the address of another agent in its location. -/
theorem source_of_handleMessage_forged : ∃ msg lf,
    handleMessage (lit "web") (lit "10.0.0.1") (lit "1:(db) 10.0.0.2->x:y") = some msg ∧
      osCleanMSGex msg = some (some lf) ∧ lf.agent_name = some (lit "web") := by
  obtain ⟨lf, hclean⟩ : ∃ lf,
      osCleanMSGex (lit "1:(web) 10.0.0.1->(db) 10.0.0.2->x:y") = some (some lf) := ⟨_, rfl⟩
  have hsent : handleMessage (lit "web") (lit "10.0.0.1") (lit "1:(db) 10.0.0.2->x:y") =
      some (lit "1:(web) 10.0.0.1->(db) 10.0.0.2->x:y") := by decide
  exact ⟨_, lf, hsent, hclean, (source_of_handleMessage source_web hsent hclean).1⟩

/-- The server writes the text of an event behind the name and the address of its agent. -/
theorem handleMessage_event (h : Source name ip) {loc : UInt8} {text : Bytes} (hloc : loc ≠ chr '#')
    (hkeep : strncmpEq 9 text (lit "keepalive") = false)
    (hfits : (srcmsg name ip).length + text.length ≤ OS_MAXSTR - 5) :
    ∃ msg, handleMessage name ip (loc :: chr ':' :: text) = some msg ∧
      msg.drop 2 = srcmsg name ip ++ (lit "->" ++ text) := by
  have hcontrol : ¬ CONTROL_HEADER.isPrefixOf (loc :: chr ':' :: text) = true := by
    intro hpre
    exact hloc (List.cons.inj (List.isPrefixOf_iff_prefix.mp hpre).choose_spec).1.symm
  rw [handleMessage, if_neg hcontrol, sendMSG, if_pos rfl]
  simp only [headD_cons, drop_succ_cons, drop_zero, ne_eq, not_true_eq_false, if_false, hkeep,
    Bool.false_eq_true]
  refine ⟨_, rfl, (drop_snprintf h _ _).trans ?_⟩
  rw [take_of_length_le (by omega)]

/-- **The way of an event**: if all of it fits, its location and its log arrive as they are. -/
theorem eventPath_law (h : Source name ip) {loc : UInt8} (hloc : loc ≠ SECURE_MQ ∧ loc ≠ chr '#')
    (hcolon : chr ':' ∉ file) (hplain : ∀ b ∈ file ++ log, isControlCharacter b = false)
    (hkeep : strncmpEq 9 (file ++ chr ':' :: log) (lit "keepalive") = false)
    (hparent : Merge.wRefParentFolder (srcmsg name ip ++ (lit "->" ++ file)) = false)
    (hfits : (srcmsg name ip).length + file.length + log.length ≤ OS_MAXSTR - 6) :
    ∃ tmp_msg msg lf, sendMSG log file loc = some tmp_msg ∧
      handleMessage name ip tmp_msg = some msg ∧ osCleanMSGex msg = some (some lf) ∧
      lf.agent_name = some name ∧ lf.location = srcmsg name ip ++ (lit "->" ++ file) ∧
      lf.full_log = log ∧ logHeader log = some lf.header := by
  rw [forall_mem_append] at hplain
  simp only [OS_MAXSTR] at hfits
  have hsend : sendMSG log file loc = some (loc :: chr ':' :: (file ++ chr ':' :: log)) := by
    rw [sendMSG, if_neg hloc.1, snprintf, take_of_length_le]
    simp only [length_cons, length_append, OS_MAXSTR]
    omega
  obtain ⟨msg, hhandle, hdrop⟩ := handleMessage_event h hloc.2 hkeep
    (by simp only [length_append, length_cons, OS_MAXSTR]; omega)
  have hzero := ne_zero_of_plain hplain.1
  have hfile := (removeControlCharacters_self hplain.1).1
  have hparts : messageParts (msg.drop 2) =
      some (srcmsg name ip ++ (lit "->" ++ file), log) := by
    rw [hdrop, messageParts, locationEnd_append h, strchr_append hcolon hzero, map_some, bind_some]
    dsimp only
    rw [take_ptrDiff, removeControlCharacters_srcmsg h, hfile, hparent, if_neg Bool.false_ne_true,
      tail_cons, (removeControlCharacters_self hplain.2).2]
  have hlong : ¬ msg.length < 2 := by
    intro hshort
    rw [drop_eq_nil_of_le hshort.le] at hdrop
    cases hdrop
  have hclean : ∃ lf, osCleanMSGex msg = some (some lf) ∧ lf.agent_name = some name ∧
      lf.location = srcmsg name ip ++ (lit "->" ++ file) ∧ lf.full_log = log ∧
      logHeader log = some lf.header := by
    obtain ⟨header, -, hheader, -⟩ := tokens_logHeader_iff (ne_zero_of_plain hplain.2)
    rw [osCleanMSGex, if_neg hlong, hparts]
    dsimp only
    rw [hheader]
    exact ⟨_, rfl, agentName_srcmsg h _, rfl, rfl, rfl⟩
  obtain ⟨lf, hclean⟩ := hclean
  exact ⟨_, msg, lf, hsend, hhandle, hclean⟩

theorem eventPath_law_login : ∃ tmp_msg msg lf,
    sendMSG (lit "Dec 29 10:00:01 h sshd[12]: x") (lit "/var/log/auth.log") (chr '1') =
        some tmp_msg ∧
      handleMessage (lit "web") (lit "10.0.0.1") tmp_msg = some msg ∧
      osCleanMSGex msg = some (some lf) ∧ lf.agent_name = some (lit "web") ∧
      lf.full_log = lit "Dec 29 10:00:01 h sshd[12]: x" := by
  have hloc : chr '1' ≠ SECURE_MQ ∧ chr '1' ≠ chr '#' := by decide
  have hplain : ∀ b ∈ lit "/var/log/auth.log" ++ lit "Dec 29 10:00:01 h sshd[12]: x",
      isControlCharacter b = false := forall_mem_of_all (by decide)
  obtain ⟨tmp_msg, msg, lf, hsend, hhandle, hclean, hname, -, hlog, -⟩ :=
    eventPath_law source_web hloc (by decide) hplain (by decide) (by decide) (by decide)
  exact ⟨tmp_msg, msg, lf, hsend, hhandle, hclean, hname, hlog⟩

end Remoted
