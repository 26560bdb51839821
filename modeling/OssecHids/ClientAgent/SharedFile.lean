import OssecHids.ClientAgent.Receiver
import OssecHids.Lib.Stream

/-!
# Files for the agents

`send_file_toagent` announces a file with its MD5, sends the content in blocks, and a last message
that closes the file. Content and commands are told apart by their first bytes.

- `sendFileToagent`: the messages of a file;
- `Arrives`: what is expected of a transfer;
- `sharedFile_law`: when it is met.
-/

open CString List Option Function

namespace ClientAgent

/-! ## The server -/

/-- What `send_msg` sends: an empty message is refused. -/
def sendMsg (buf : Bytes) : Option Bytes := if str buf = [] then none else some (str buf)

/-- The blocks that `fread` returns. -/
def freadLoop : ℕ → Bytes → List Bytes
  | 0, _ => []
  | fuel + 1, s => if s = [] then [] else s.take 900 :: freadLoop fuel (s.drop 900)

/-- The content in blocks of 900 bytes. -/
def blocks (content : Bytes) : List Bytes := freadLoop content.length content

/-- The messages that are sent one after the other, up to one that is refused; and whether none
was. -/
def sendAll : List Bytes → List Bytes × Bool
  | [] => ([], true)
  | buf :: bufs =>
    match sendMsg buf with
    | none => ([], false)
    | some m => (m :: (sendAll bufs).1, (sendAll bufs).2)

/-- The message that announces a file. -/
def updateMsg (name sum : Bytes) : Bytes :=
  snprintf OS_SIZE_1024 (CONTROL_HEADER ++ FILE_UPDATE_HEADER ++ sum ++ chr ' ' :: name ++ lit "\n")

/-- The messages that are sent for a file. -/
def sendFileToagent (name sum content : Bytes) : List Bytes :=
  (sendAll (updateMsg name sum :: blocks content ++
    [snprintf OS_SIZE_1024 (CONTROL_HEADER ++ FILE_CLOSE_HEADER)])).1

/-! ## The blocks -/

variable {content name sum : Bytes}

theorem freadLoop_flatten {fuel : ℕ} {s : Bytes} (h : s.length ≤ fuel) :
    (freadLoop fuel s).flatten = s := by
  induction fuel generalizing s with
  | zero =>
    rw [length_eq_zero_iff.mp (Nat.le_zero.mp h)]
    rfl
  | succ fuel ih =>
    rw [freadLoop]
    split_ifs with hs
    · rw [hs]
      rfl
    · have hpos := length_pos_iff.mpr hs
      rw [flatten_cons, ih (by rw [length_drop]; omega), take_append_drop]

theorem blocks_flatten (content : Bytes) : (blocks content).flatten = content :=
  freadLoop_flatten le_rfl

theorem freadLoop_ne_nil {fuel : ℕ} {s : Bytes} : ∀ b ∈ freadLoop fuel s, b ≠ [] := by
  induction fuel generalizing s with
  | zero => exact fun b hb => absurd hb not_mem_nil
  | succ fuel ih =>
    intro b hb
    rw [freadLoop] at hb
    split_ifs at hb with hs
    · cases hb
    · rcases mem_cons.mp hb with rfl | hb
      · intro hnil
        rcases take_eq_nil_iff.mp hnil with h | h
        · cases h
        · exact hs h
      · exact ih b hb

theorem blocks_ne_nil (content : Bytes) : ∀ b ∈ blocks content, b ≠ [] := freadLoop_ne_nil

theorem sendMsg_eq_none_iff {b : Bytes} (hb : b ≠ []) : sendMsg b = none ↔ b.head? = some 0 := by
  cases b with
  | nil => exact absurd rfl hb
  | cons c b =>
    rw [sendMsg, str]
    by_cases hc : c = 0
    · simp [hc]
    · simp [hc]

theorem sendMsg_of_head {b : Bytes} (hb : b ≠ []) (h : b.head? ≠ some 0) :
    sendMsg b = some (str b) := by
  have hsome : sendMsg b ≠ none := fun hnone => h ((sendMsg_eq_none_iff hb).mp hnone)
  rw [sendMsg] at hsome ⊢
  split_ifs at hsome ⊢ with hstr
  · exact absurd rfl hsome
  · rfl

/-- The blocks that are sent. -/
def sentBlocks (bs : List Bytes) : List Bytes :=
  (bs.takeWhile fun b => b.head? != some 0).map str

theorem sendAll_blocks {bs rest : List Bytes} (hne : ∀ b ∈ bs, b ≠ []) :
    sendAll (bs ++ rest) =
      if ∀ b ∈ bs, b.head? ≠ some 0 then (sentBlocks bs ++ (sendAll rest).1, (sendAll rest).2)
      else (sentBlocks bs, false) := by
  induction bs with
  | nil => simp [sentBlocks]
  | cons b bs ih =>
    have hb := hne b mem_cons_self
    have hbs := ih fun x hx => hne x (mem_cons_of_mem _ hx)
    by_cases hhead : b.head? = some 0
    · have hnot : ¬ ∀ x ∈ b :: bs, x.head? ≠ some 0 := fun h => h b mem_cons_self hhead
      rw [cons_append, sendAll.eq_def]
      dsimp only
      rw [(sendMsg_eq_none_iff hb).mpr hhead, if_neg hnot, sentBlocks, takeWhile_cons, hhead]
      rfl
    · have hiff : (∀ x ∈ b :: bs, x.head? ≠ some 0) ↔ ∀ x ∈ bs, x.head? ≠ some 0 := by
        rw [forall_mem_cons]
        exact and_iff_right hhead
      rw [cons_append, sendAll.eq_def]
      dsimp only
      have hpos : (b.head? != some 0) = true := bne_iff_ne.mpr hhead
      have hsent : sentBlocks (b :: bs) = str b :: sentBlocks bs := by
        rw [sentBlocks, takeWhile_cons, if_pos hpos, map_cons, sentBlocks]
      rw [sendMsg_of_head hb hhead, hbs, hsent]
      simp only [hiff]
      split_ifs
      · rfl
      · rfl

/-- Every block can be sent. -/
def Complete (content : Bytes) : Prop := ∀ b ∈ blocks content, b.head? ≠ some 0

instance (content : Bytes) : Decidable (Complete content) :=
  inferInstanceAs (Decidable (∀ b ∈ blocks content, b.head? ≠ some 0))

theorem sentBlocks_of_complete (h : Complete content) :
    sentBlocks (blocks content) = (blocks content).map str := by
  rw [sentBlocks, takeWhile_eq_self_iff.mpr fun b hb => bne_iff_ne.mpr (h b hb)]

theorem zero_notMem_sentBlocks (bs : List Bytes) : 0 ∉ (sentBlocks bs).flatten := by
  intro h
  obtain ⟨m, hm, hz⟩ := mem_flatten.mp h
  obtain ⟨b, -, rfl⟩ := mem_map.mp hm
  exact absurd (mem_takeWhile_imp hz) (by decide)

theorem map_str_blocks (h : 0 ∉ content) : (blocks content).map str = blocks content := by
  have hsame : ∀ b ∈ blocks content, str b = b := by
    intro b hb
    apply str_eq_self
    rintro x hx rfl
    refine h ?_
    rw [← blocks_flatten content]
    exact mem_flatten_of_mem hb hx
  rw [map_congr_left hsame, List.map_id']

theorem complete_of_notMem (h : 0 ∉ content) : Complete content := by
  intro b hb hhead
  refine h ?_
  rw [← blocks_flatten content]
  exact mem_flatten_of_mem hb (mem_of_mem_head? (by rw [hhead]; rfl))

/-! ## The transfer -/

/-- A sum is the text of an MD5, or empty. -/
structure IsSum (sum : Bytes) : Prop where
  length_le : sum.length ≤ 32
  ne : ∀ b ∈ sum, b ≠ 0 ∧ b ≠ chr ' '

/-- The file of the agent. -/
def filePath (name sum : Bytes) : Bytes := sharedFile ((name ++ lit "\n").take (1011 - sum.length))

theorem filePath_ne_nil (name sum : Bytes) : filePath name sum ≠ [] := cons_ne_nil _ _

theorem baseName_filePath (name sum : Bytes) : ∃ base, baseName (filePath name sum) = some base :=
  ⟨_, if_pos mem_cons_self⟩

theorem updateMsg_eq (hsum : IsSum sum) : updateMsg name sum =
    CONTROL_HEADER ++ (FILE_UPDATE_HEADER ++
      (sum ++ chr ' ' :: (name ++ lit "\n").take (1011 - sum.length))) := by
  have hlen := hsum.length_le
  have hcut : (sum ++ chr ' ' :: (name ++ lit "\n")).take 1012 =
      sum ++ chr ' ' :: (name ++ lit "\n").take (1011 - sum.length) := by
    rw [take_append, take_of_length_le (by omega),
      show 1012 - sum.length = 1011 - sum.length + 1 by omega, take_succ_cons]
  rw [updateMsg, snprintf, ← hcut]
  simp only [append_assoc, cons_append]
  rfl

/-- What the agent does with the announcement. -/
theorem receiveMsg_updateMsg (host : Host) (a : Agent) (hsum : IsSum sum) :
    receiveMsg host a (updateMsg name sum) =
      (if host.fopen (filePath name sum) then
        { fp := some (filePath name sum), file_sum := sum, file := filePath name sum
          disk := Function.update a.disk (filePath name sum) (some []) }
      else { a with fp := none, file_sum := sum, file := filePath name sum }, []) := by
  have hblank : chr ' ' ∉ sum := fun h => (hsum.ne _ h).2 rfl
  have hzero : ∀ b ∈ sum, b ≠ 0 := fun b hb => (hsum.ne b hb).1
  have hcopy : strncpy 33 sum = sum := by
    rw [strncpy, take_of_length_le (hsum.length_le.trans (by decide))]
    exact str_eq_self hzero
  rw [updateMsg_eq hsum, receiveMsg_fileUpdate, fileUpdate.eq_def, strchr_append hblank hzero]
  dsimp only
  rw [ptrDiff, length_append, Nat.add_sub_cancel, take_left, hcopy, tail_cons]
  rfl

theorem sendMsg_updateMsg (hsum : IsSum sum) (hname : 0 ∉ name) :
    sendMsg (updateMsg name sum) = some (updateMsg name sum) := by
  have hstr : str (updateMsg name sum) = updateMsg name sum := by
    apply str_eq_self
    rw [updateMsg_eq hsum]
    intro b hb
    simp only [mem_append, mem_cons] at hb
    rcases hb with hb | hb | hb | rfl | hb
    · exact forall_mem_of_all (P := (· ≠ 0)) (by decide) b hb
    · exact forall_mem_of_all (P := (· ≠ 0)) (by decide) b hb
    · exact (hsum.ne b hb).1
    · decide
    · rcases mem_append.mp (mem_of_mem_take hb) with hb | hb
      · exact fun hz => hname (hz ▸ hb)
      · exact forall_mem_of_all (P := (· ≠ 0)) (by decide) b hb
  rw [sendMsg, hstr, if_neg]
  rw [updateMsg_eq hsum]
  exact cons_ne_nil _ _

/-- The messages of a transfer. -/
theorem sendFileToagent_eq (hsum : IsSum sum) (hname : 0 ∉ name) :
    sendFileToagent name sum content = updateMsg name sum :: (sentBlocks (blocks content) ++
      if Complete content then [CONTROL_HEADER ++ FILE_CLOSE_HEADER] else []) := by
  have hclose : sendAll [snprintf OS_SIZE_1024 (CONTROL_HEADER ++ FILE_CLOSE_HEADER)] =
      ([CONTROL_HEADER ++ FILE_CLOSE_HEADER], true) := rfl
  rw [sendFileToagent, cons_append, sendAll.eq_def]
  dsimp only
  rw [sendMsg_updateMsg hsum hname, sendAll_blocks (blocks_ne_nil content), hclose]
  by_cases hcomplete : Complete content
  case pos =>
    have hall : ∀ b ∈ blocks content, b.head? ≠ some 0 := hcomplete
    rw [if_pos hcomplete, if_pos hall]
  case neg =>
    have hnot : ¬ ∀ b ∈ blocks content, b.head? ≠ some 0 := hcomplete
    rw [if_neg hcomplete, if_neg hnot, append_nil]

variable {host : Host} {a : Agent}

/-- What is expected of a transfer: no block is taken for a command, nothing else is done than
unpacking the file, no other file is touched, and the file is whole or gone. -/
structure Arrives (host : Host) (a : Agent) (name sum content : Bytes) : Prop where
  blocks : ∀ m ∈ sentBlocks (blocks content), isValidHeader m = false
  actions : ∀ act ∈ (receive host a (sendFileToagent name sum content)).2,
    act = .unmergeFiles (filePath name sum)
  others : ∀ p ≠ filePath name sum,
    (receive host a (sendFileToagent name sum content)).1.disk p = a.disk p
  whole : (receive host a (sendFileToagent name sum content)).1.disk (filePath name sum) = none ∨
    (receive host a (sendFileToagent name sum content)).1.disk (filePath name sum) = some content ∧
      host.md5 content = sum

/-- The contents that arrive. No block begins as a command does, nor with a NUL byte, which ends the
transfer; and a content that loses the bytes behind a NUL does not have the MD5 of what is left of
it. When the agent cannot open the file, the same is asked of the file it has. -/
def Meets (host : Host) (a : Agent) (name sum content : Bytes) : Prop :=
  (∀ m ∈ sentBlocks (blocks content), isValidHeader m = false) ∧
    if host.fopen (filePath name sum) then
      Complete content ∧ (0 ∈ content → host.md5 ((blocks content).map str).flatten ≠ sum)
    else
      ∀ old, a.disk (filePath name sum) = some old →
        Complete content ∧ host.md5 old ≠ sum ∨ old = content ∧ host.md5 content = sum

theorem fileClose_eq {sum file content base : Bytes} (hsum : a.file_sum = sum)
    (hfile : a.file = file) (hne : file ≠ []) (hcontent : a.disk file = some content)
    (hbase : baseName file = some base) :
    fileClose host a =
      if host.md5 content = sum then
        ({ a with file := [] }, if base = SHAREDCFG_FILENAME then [.unmergeFiles file] else [])
      else ({ a with disk := Function.update a.disk file none, file := [] }, []) := by
  obtain rfl := hsum
  obtain rfl := hfile
  rw [fileClose.eq_def, if_neg hne, hcontent]
  dsimp only
  rw [hbase, ite_not]

theorem fileClose_none {file : Bytes} (hfile : a.file = file) (hcontent : a.disk file = none) :
    fileClose host a = ({ a with file := [] }, []) := by
  obtain rfl := hfile
  rw [fileClose.eq_def]
  split_ifs with hne
  · rw [← hne]
  · rw [hcontent]

theorem receive_sendFileToagent (hsum : IsSum sum) (hname : 0 ∉ name) :
    receive host a (sendFileToagent name sum content) =
      receive host (receiveMsg host a (updateMsg name sum)).1
        (sentBlocks (blocks content) ++
          if Complete content then [CONTROL_HEADER ++ FILE_CLOSE_HEADER] else []) := by
  rw [sendFileToagent_eq hsum hname, receive, receiveMsg_updateMsg host a hsum]
  rfl

theorem receive_close (a : Agent) : receive host a [CONTROL_HEADER ++ FILE_CLOSE_HEADER] =
    fileClose host { a with fp := none } := by
  rw [receive, receiveMsg_fileClose]
  dsimp only [receive]
  rw [append_nil]

theorem eq_of_mem_ite {α : Type} {c : Prop} [Decidable c] {x y : α}
    (h : x ∈ if c then [y] else []) : x = y := by
  split_ifs at h
  · exact mem_singleton.mp h
  · cases h

theorem update_eq_of_eq {disk : Bytes → Option Bytes} {p : Bytes} {o : Option Bytes}
    (h : disk p = o) : Function.update disk p o = disk := h ▸ Function.update_eq_self _ _

/-- The file that was opened, when the last message has been read. -/
theorem receive_opened (hsum : IsSum sum) (hname : 0 ∉ name)
    (hopen : host.fopen (filePath name sum) = true)
    (hblocks : ∀ m ∈ sentBlocks (blocks content), isValidHeader m = false) :
    (∀ act ∈ (receive host a (sendFileToagent name sum content)).2,
      act = .unmergeFiles (filePath name sum)) ∧
    (receive host a (sendFileToagent name sum content)).1.disk =
      Function.update a.disk (filePath name sum)
        (if Complete content ∧ host.md5 ((blocks content).map str).flatten ≠ sum then none
          else some (sentBlocks (blocks content)).flatten) := by
  obtain ⟨base, hbase⟩ := baseName_filePath name sum
  rw [receive_sendFileToagent hsum hname, receiveMsg_updateMsg host a hsum, if_pos hopen,
    receive_append, receive_content hblocks rfl (update_self ..), Function.update_idem,
    nil_append]
  by_cases hcomplete : Complete content
  case pos =>
    rw [if_pos hcomplete, receive_close, fileClose_eq rfl rfl (filePath_ne_nil name sum)
      (update_self ..) hbase, sentBlocks_of_complete hcomplete]
    by_cases hmd5 : host.md5 ((blocks content).map str).flatten = sum
    case pos =>
      have hnot : ¬ (Complete content ∧ host.md5 ((blocks content).map str).flatten ≠ sum) :=
        fun h => h.2 hmd5
      rw [if_pos hmd5, if_neg hnot]
      exact ⟨fun act hact => eq_of_mem_ite hact, rfl⟩
    case neg =>
      rw [if_neg hmd5, if_pos ⟨hcomplete, hmd5⟩, Function.update_idem]
      exact ⟨fun act hact => absurd hact not_mem_nil, rfl⟩
  case neg =>
    have hnot : ¬ (Complete content ∧ host.md5 ((blocks content).map str).flatten ≠ sum) :=
      fun h => hcomplete h.1
    rw [if_neg hcomplete, if_neg hnot]
    exact ⟨fun act hact => absurd hact not_mem_nil, rfl⟩

/-- The file that could not be opened: the one that is there is taken for it. -/
theorem receive_notOpened (hsum : IsSum sum) (hname : 0 ∉ name)
    (hopen : host.fopen (filePath name sum) = false)
    (hblocks : ∀ m ∈ sentBlocks (blocks content), isValidHeader m = false) :
    (∀ act ∈ (receive host a (sendFileToagent name sum content)).2,
      act = .unmergeFiles (filePath name sum)) ∧
    (receive host a (sendFileToagent name sum content)).1.disk =
      Function.update a.disk (filePath name sum)
        ((a.disk (filePath name sum)).filter fun old =>
          !decide (Complete content ∧ host.md5 old ≠ sum)) := by
  obtain ⟨base, hbase⟩ := baseName_filePath name sum
  have hclosed : ¬ host.fopen (filePath name sum) = true := by
    rw [hopen]
    exact Bool.false_ne_true
  rw [receive_sendFileToagent hsum hname, receiveMsg_updateMsg host a hsum, if_neg hclosed,
    receive_append, receive_ignored hblocks rfl, nil_append]
  by_cases hcomplete : Complete content
  case pos =>
    rw [if_pos hcomplete, receive_close]
    cases hold : a.disk (filePath name sum) with
    | none =>
      rw [fileClose_none rfl hold, filter_none, update_eq_of_eq hold]
      exact ⟨fun act hact => absurd hact not_mem_nil, rfl⟩
    | some old =>
      rw [fileClose_eq rfl rfl (filePath_ne_nil name sum) hold hbase, filter_some]
      by_cases hmd5 : host.md5 old = sum
      case pos =>
        have hkept : (!decide (Complete content ∧ host.md5 old ≠ sum)) = true := by simp [hmd5]
        rw [if_pos hmd5, if_pos hkept, update_eq_of_eq hold]
        exact ⟨fun act hact => eq_of_mem_ite hact, rfl⟩
      case neg =>
        have hgone : ¬ (!decide (Complete content ∧ host.md5 old ≠ sum)) = true := by
          simp [hmd5, hcomplete]
        rw [if_neg hmd5, if_neg hgone]
        exact ⟨fun act hact => absurd hact not_mem_nil, rfl⟩
  case neg =>
    have hall : (a.disk (filePath name sum)).filter
        (fun old => !decide (Complete content ∧ host.md5 old ≠ sum)) =
        a.disk (filePath name sum) := by
      cases a.disk (filePath name sum) with
      | none => rfl
      | some old => rw [filter_some, if_pos (by simp [hcomplete])]
    rw [if_neg hcomplete, hall, update_eq_of_eq rfl]
    exact ⟨fun act hact => absurd hact not_mem_nil, rfl⟩

/-- **Files for the agents**: for every content, every name, and every state of the agent, the
transfer is as expected exactly when no block that is sent begins as a command does, none begins
with a NUL byte, and the content is not taken for another one of the same MD5. -/
theorem sharedFile_law (hsum : IsSum sum) (hname : 0 ∉ name) :
    Arrives host a name sum content ↔ Meets host a name sum content := by
  by_cases hblocks : ∀ m ∈ sentBlocks (blocks content), isValidHeader m = false
  case neg => exact ⟨fun h => absurd h.blocks hblocks, fun h => absurd h.1 hblocks⟩
  case pos =>
  rw [Meets, and_iff_right hblocks]
  cases hopen : host.fopen (filePath name sum) with
  | true =>
    obtain ⟨hactions, hdisk⟩ := @receive_opened _ _ _ _ a hsum hname hopen hblocks
    rw [if_pos rfl]
    constructor
    · intro h
      have hwhole := h.whole
      rw [hdisk, Function.update_self] at hwhole
      by_cases hgone : Complete content ∧ host.md5 ((blocks content).map str).flatten ≠ sum
      case pos => exact ⟨hgone.1, fun _ => hgone.2⟩
      case neg =>
        rw [if_neg hgone] at hwhole
        obtain ⟨hsame, -⟩ := hwhole.resolve_left (some_ne_none _)
        have hzero : 0 ∉ content := some.inj hsame ▸ zero_notMem_sentBlocks _
        exact ⟨complete_of_notMem hzero, fun h => absurd h hzero⟩
    · rintro ⟨hcomplete, hmd5⟩
      refine ⟨hblocks, hactions, fun p hp => ?_, ?_⟩
      · rw [hdisk, Function.update_of_ne hp]
      · rw [hdisk, Function.update_self]
        by_cases hgone : host.md5 ((blocks content).map str).flatten = sum
        case pos =>
          have hzero : 0 ∉ content := fun h => hmd5 h hgone
          rw [map_str_blocks hzero, blocks_flatten] at hgone
          rw [if_neg (by simp [map_str_blocks hzero, blocks_flatten, hgone]),
            sentBlocks_of_complete hcomplete, map_str_blocks hzero, blocks_flatten]
          exact .inr ⟨rfl, hgone⟩
        case neg =>
          rw [if_pos ⟨hcomplete, hgone⟩]
          exact .inl rfl
  | false =>
    obtain ⟨hactions, hdisk⟩ := @receive_notOpened _ _ _ _ a hsum hname hopen hblocks
    rw [if_neg Bool.false_ne_true]
    constructor
    · intro h old hold
      have hwhole := h.whole
      rw [hdisk, Function.update_self, hold, filter_some] at hwhole
      by_cases hgone : Complete content ∧ host.md5 old ≠ sum
      case pos => exact .inl hgone
      case neg =>
        rw [if_pos (by rw [decide_eq_false hgone]; rfl)] at hwhole
        obtain ⟨hsame, hmd5⟩ := hwhole.resolve_left (some_ne_none _)
        exact .inr ⟨some.inj hsame, hmd5⟩
    · intro h
      refine ⟨hblocks, hactions, fun p hp => ?_, ?_⟩
      · rw [hdisk, Function.update_of_ne hp]
      · rw [hdisk, Function.update_self]
        cases hold : a.disk (filePath name sum) with
        | none => exact .inl rfl
        | some old =>
          rw [filter_some]
          rcases h old hold with hgone | ⟨rfl, hmd5⟩
          · rw [if_neg (by rw [decide_eq_true hgone]; exact Bool.false_ne_true)]
            exact .inl rfl
          · rw [if_pos (by simp [hmd5])]
            exact .inr ⟨rfl, hmd5⟩

/-- An agent without files. -/
def newAgent : Agent where
  fp := none
  file_sum := []
  file := []
  disk := fun _ => none

/-- A host that can write, with the MD5 of one letter. -/
def letterHost : Host where
  execdq := true
  fopen := fun _ => true
  md5 := fun s => if s = lit "a" then lit "0cc175b9c0f1b6a831c399e269772661" else []

theorem isSum_letter : IsSum (lit "0cc175b9c0f1b6a831c399e269772661") where
  length_le := by decide
  ne := forall_mem_of_all (by decide)

theorem sharedFile_law_letter : Arrives letterHost newAgent SHAREDCFG_FILENAME
    (lit "0cc175b9c0f1b6a831c399e269772661") (lit "a") := by
  have hopen : letterHost.fopen (filePath SHAREDCFG_FILENAME
      (lit "0cc175b9c0f1b6a831c399e269772661")) = true := rfl
  refine (sharedFile_law isSum_letter (by decide)).mpr ⟨by decide, ?_⟩
  rw [if_pos hopen]
  exact ⟨by decide, fun h => absurd h (by decide)⟩

/-- The first line of a file that is sent is run by the agent. -/
theorem not_arrives_command : ¬ ∀ (host : Host) (a : Agent) (name sum content : Bytes),
    IsSum sum → 0 ∉ name → host.md5 content = sum → Arrives host a name sum content := by
  intro h
  have harrives := h ⟨true, fun _ => true, fun _ => []⟩ newAgent SHAREDCFG_FILENAME []
    (lit "#!-execd restart-ossec0 - - -\n") ⟨Nat.zero_le _, fun b hb => absurd hb not_mem_nil⟩
    (by decide) rfl
  have hblock := harrives.blocks _ (mem_cons_self ..)
  exact absurd hblock (by decide)

end ClientAgent
