import OssecHids.OsCrypto.Keys
import OssecHids.Lib.Escape
import OssecHids.Lib.Stream

/-!
# Active-response requests

What `ExecdStart` makes of a message: the control characters go, the text up to the first blank
names the command, and the rest is split at the blanks that no backslash protects.

- `requestArguments`: the arguments of a request, with its address in one spelling;
- `argumentsLoop_intercalate`, `argumentsLoop_eq_singleton`: the arguments that come back from
  their line.
-/

open CString Escape List

/-- `is_control_character` -/
def isControlCharacter (c : UInt8) : Bool := c ≤ 31 || c == 127

/-- `remove_control_characters` -/
def removeControlCharacters (str : Bytes) : Bytes := str.filter fun c => !isControlCharacter c

/-- `os_shell_escape_strchr`: a character behind a backslash is not found. -/
def osShellEscapeStrchr (c : UInt8) : Bytes → Option Bytes
  | [] => none
  | b :: str =>
    match str with
    | [] => if b = c then some [b] else none
    | b' :: rest =>
      if b = chr '\\' then osShellEscapeStrchr c rest
      else if b = c then some (b :: b' :: rest)
      else osShellEscapeStrchr c (b' :: rest)

theorem cutAt_append {c : UInt8} {l r : Bytes} (hc : c ∉ l) (hz : ∀ b ∈ l, b ≠ 0) :
    cutAt c (l ++ c :: r) = some (l, r) := by
  rw [cutAt, strchr_append hc hz, Option.map_some, ptrDiff, length_append, Nat.add_sub_cancel,
    take_left, drop_one, tail_cons]

theorem exists_of_cutAt_eq_some {c : UInt8} {s l r : Bytes} (h : cutAt c s = some (l, r)) :
    s = l ++ c :: r ∧ c ∉ l := by
  obtain ⟨p, hp, heq⟩ := Option.map_eq_some_iff.mp h
  obtain ⟨l', r', rfl, rfl, hc⟩ := exists_of_strchr_eq_some hp
  rw [ptrDiff, length_append, Nat.add_sub_cancel, take_left, drop_one,
    tail_cons, Prod.mk.injEq] at heq
  obtain ⟨rfl, rfl⟩ := heq
  exact ⟨rfl, hc⟩

theorem cutAt_of_notMem {c : UInt8} {s : Bytes} (h : c ∉ s) : cutAt c s = none := by
  rw [Option.eq_none_iff_forall_not_mem]
  rintro ⟨l, r⟩ hcut
  obtain ⟨rfl, -⟩ := exists_of_cutAt_eq_some hcut
  exact h (mem_append_right _ mem_cons_self)

namespace Execd

/-- `MAX_ARGS` -/
def MAX_ARGS : ℕ := 32

/-- `INET6_ADDRSTRLEN` -/
def INET6_ADDRSTRLEN : ℕ := 46

/-! ## Addresses -/

/-- A parsed address. -/
inductive Sockaddr
  | inet (sin_addr : BitVec 32)
  | inet6 (sin6_addr : BitVec 128)
  deriving DecidableEq, Repr

/-- What the C library knows about addresses. -/
structure Inet where
  /-- `inet_pton(AF_INET, ...)` -/
  inet_pton : Bytes → Option (BitVec 32)
  /-- `inet_pton(AF_INET6, ...)` -/
  inet_pton6 : Bytes → Option (BitVec 128)
  /-- `inet_ntop(AF_INET, ...)` -/
  inet_ntop : BitVec 32 → Bytes
  /-- `inet_ntop(AF_INET6, ...)` -/
  inet_ntop6 : BitVec 128 → Bytes

/-- `os_pton_sockaddr` -/
def osPtonSockaddr (inet : Inet) (ip : Bytes) : Option Sockaddr :=
  match inet.inet_pton ip with
  | some sin_addr => some (.inet sin_addr)
  | none => (inet.inet_pton6 ip).map .inet6

/-- What `OS_IsValidIP` asks for. -/
def Inet.keysEnv (inet : Inet) : KeysEnv where
  max_agents := 0
  pass_empty_keyfile := false
  os_pton_sockaddr ip := (osPtonSockaddr inet ip).map fun
    | .inet _ => false
    | .inet6 _ => true

/-- `satop`: an address that is mapped into the other family is printed as it is there. -/
def satop (inet : Inet) : Sockaddr → Bytes
  | .inet sin_addr => inet.inet_ntop sin_addr
  | .inet6 sin6_addr =>
    let dst := inet.inet_ntop6 sin6_addr
    if sin6_addr >>> 32 = 0xffff then dst.drop 7 else dst

/-- `CanonicalIP` -/
def canonicalIP (inet : Inet) (ip : Bytes) : Option Bytes :=
  if ip = [] ∨ ip.headD 0 = chr '!' ∨ ip = lit "-" ∨ chr '/' ∈ ip then none
  else if osIsValidIP inet.keysEnv ip ≠ 1 then none
  else
    (osPtonSockaddr inet ip).bind fun ss =>
      let canon := satop inet ss
      if canon = [] ∨ canon.length + 1 > INET6_ADDRSTRLEN then none else some canon

/-! ## Commands -/

/-- A line of `ar.conf`, as `ReadExecConfig` keeps it. -/
structure ExecConfig where
  exec_name : Bytes
  exec_cmd : Bytes
  exec_timeout : Int32
  deriving DecidableEq, Repr

/-- `GetCommandbyName` -/
def getCommandbyName (config : List ExecConfig) (name : Bytes) : Option ExecConfig :=
  config.find? fun exec => exec.exec_name == name

/-! ## Arguments -/

/-- The loop that gets the arguments; there is room for `n` more. -/
def argumentsLoop : ℕ → Bytes → List Bytes
  | 0, _ => []
  | n + 1, tmp_msg =>
    match osShellEscapeStrchr (chr ' ') tmp_msg with
    | none => [tmp_msg]
    | some p => tmp_msg.take (ptrDiff p tmp_msg) :: argumentsLoop n (p.drop 1)

/-- The arguments of a request from the user on; the second one is an address or stands for one. -/
def requestArguments (inet : Inet) (tmp_msg : Bytes) : List Bytes :=
  (argumentsLoop (MAX_ARGS - 1 - 2) tmp_msg).modify 1 fun ip => (canonicalIP inet ip).getD ip

/-- `ADD_ENTRY` -/
def ADD_ENTRY : Bytes := lit "add"

/-- `DELETE_ENTRY` -/
def DELETE_ENTRY : Bytes := lit "delete"

/-- `cmd_args` -/
def cmdArgs (command : Bytes) (args : List Bytes) : List Bytes := command :: ADD_ENTRY :: args

/-- `timeout_args` -/
def timeoutArgs (command : Bytes) (args : List Bytes) : List Bytes := command :: DELETE_ENTRY :: args

/-! ## Splitting -/

variable {c : UInt8} {s t : Bytes}

theorem osShellEscapeStrchr_append (hs : Protected (chr '\\') c s) (hc : c ≠ chr '\\') :
    osShellEscapeStrchr c (s ++ c :: t) = some (c :: t) := by
  induction hs with
  | nil =>
    cases t with
    | nil => exact if_pos rfl
    | cons b t =>
      rw [nil_append, osShellEscapeStrchr, if_neg hc, if_pos rfl]
  | @plain b s hb hbc _ ih =>
    obtain ⟨d, rest, hrest⟩ := exists_cons_of_ne_nil
      (append_ne_nil_of_right_ne_nil s (cons_ne_nil c t))
    rw [cons_append, hrest, osShellEscapeStrchr, if_neg hb, if_neg hbc, ← hrest, ih]
  | escaped _ ih =>
    rw [cons_append, cons_append, osShellEscapeStrchr, if_pos rfl, ih]

theorem osShellEscapeStrchr_eq_none (hs : Protected (chr '\\') c s) : osShellEscapeStrchr c s = none := by
  induction hs with
  | nil => rfl
  | @plain b s hb hbc _ ih =>
    cases s with
    | nil => exact if_neg hbc
    | cons d s => rw [osShellEscapeStrchr, if_neg hb, if_neg hbc, ih]
  | escaped _ ih => rw [osShellEscapeStrchr, if_pos rfl, ih]

/-- Arguments whose blanks are protected come back from their line, and then what is made of the
text behind them. -/
theorem argumentsLoop_intercalate {args : List Bytes} {last : Bytes} {n : ℕ}
    (hargs : ∀ arg ∈ args, Protected (chr '\\') (chr ' ') arg) :
    argumentsLoop (args.length + n) ([chr ' '].intercalate (args ++ [last])) =
      args ++ argumentsLoop n last := by
  induction args with
  | nil => rw [nil_append, intercalate_singleton, length_nil, zero_add, nil_append]
  | cons arg args ih =>
    obtain ⟨harg, hargs⟩ := forall_mem_cons.mp hargs
    rw [cons_append, intercalate_cons_of_ne_nil (by simp), append_assoc, singleton_append,
      length_cons, add_right_comm, argumentsLoop, osShellEscapeStrchr_append harg (by decide)]
    dsimp only
    rw [ptrDiff, length_append, Nat.add_sub_cancel, take_left, drop_one,
      tail_cons, ih hargs, cons_append]

/-- One argument is made of a text exactly when no blank is found in it. -/
theorem argumentsLoop_eq_singleton {n : ℕ} {arg : Bytes} :
    argumentsLoop (n + 2) s = [arg] ↔ osShellEscapeStrchr (chr ' ') s = none ∧ s = arg := by
  rw [argumentsLoop]
  cases osShellEscapeStrchr (chr ' ') s with
  | none => simp
  | some p =>
    -- whatever is behind the blank is an argument, too
    have hne : argumentsLoop (n + 1) (p.drop 1) ≠ [] := by
      rw [argumentsLoop]
      split <;> exact cons_ne_nil _ _
    simp only [List.cons.injEq, hne, and_false, reduceCtorEq, false_and]

end Execd
