import OssecHids.Lib.Differences
import OssecHids.Shared.FimSum
import OssecHids.Shared.WinAcl

/-!
# Reports of changed access control lists

What an alert says about the access control list of a file: the entries that were removed, added or
modified, or the whole of the new list.

- `fimWinAclDiff_of_lt`: with enough room the report is written completely;
- `winAcl_law`: the way through the snapshots, the differences and the report of two sums.
-/

open CString Differences FimSum List

namespace WinAcl

/-! ## The functions -/

/-- The conversion of a `size_t` to `int`. -/
def toInt (n : ℕ) : ℤ := Int.bmod n (2 ^ 32)

/-- `0x%08x` -/
def fmtX08 (n : UInt32) : Bytes :=
  let digits := (Nat.toDigits 16 n.toNat).map Char.toUInt8
  lit "0x" ++ List.replicate (8 - digits.length) (chr '0') ++ digits

/-- The names of the bits that are set. -/
def namesOf (table : List (UInt32 × Bytes)) (bits : UInt32) : List Bytes :=
  (table.filter fun entry => bits &&& entry.1 ≠ 0).map Prod.snd

/-- The names are appended with separators between them. -/
def appendNames (buflen : ℕ) (sep : Bytes) (names : List Bytes) : Bytes :=
  names.foldl (fun buf s => appendStr buflen (if buf = [] then buf else appendStr buflen buf sep) s)
    []

/-- `FIM_ACE_OI`, `FIM_ACE_CI`, `FIM_ACE_IO`, `FIM_ACE_NP` and `FIM_ACE_ID` -/
def inheritBits : List (UInt32 × Bytes) :=
  [(0x01, lit "OI"), (0x02, lit "CI"), (0x08, lit "IO"), (0x04, lit "NP"), (0x10, lit "ID")]

/-- The table of `format_mask`. -/
def maskBits : List (UInt32 × Bytes) :=
  [(0x80000000, lit "GENERIC_READ"), (0x40000000, lit "GENERIC_WRITE"),
    (0x20000000, lit "GENERIC_EXECUTE"), (0x10000000, lit "GENERIC_ALL"),
    (0x00010000, lit "DELETE"), (0x00020000, lit "READ_CONTROL"), (0x00040000, lit "WRITE_DAC"),
    (0x00080000, lit "WRITE_OWNER"), (0x00100000, lit "SYNCHRONIZE"),
    (0x00000001, lit "FILE_READ_DATA"), (0x00000002, lit "FILE_WRITE_DATA"),
    (0x00000004, lit "FILE_APPEND_DATA"), (0x00000008, lit "FILE_READ_EA"),
    (0x00000010, lit "FILE_WRITE_EA"), (0x00000020, lit "FILE_EXECUTE"),
    (0x00000080, lit "FILE_READ_ATTRIBUTES"), (0x00000100, lit "FILE_WRITE_ATTRIBUTES")]

/-- `format_inherit` -/
def formatInherit (flags : UInt32) : Bytes :=
  let tmp := appendNames 32 (lit ",") (namesOf inheritBits flags)
  snprintf 32 (if tmp = [] then lit "-" else tmp)

/-- `format_mask`: bits without a name are written as a number. -/
def formatMask (mask : UInt32) : Bytes :=
  let names := namesOf maskBits mask
  let out := appendNames 512 (lit ", ") names
  let residual := maskBits.foldl (fun r entry => r &&& ~~~entry.1) mask
  if names = [] then snprintf 512 (fmtX08 mask)
  else if residual ≠ 0 then
    appendStr 512 (appendStr 512 out (lit ", ")) (snprintf 24 (fmtX08 residual))
  else out

variable (name : Bytes → Bytes)

/-- `format_one_ace`; `name` is the account that `sid_to_name` finds. -/
def formatOneAce (a : Ace) : Bytes :=
  -- `FIM_ACE_OTHER`
  if a.type = 2 then snprintf 768 (lit "OPAQUE " ++ a.sid ++ lit " (type/mask encoded)")
  else
    -- `FIM_ACE_DENY`
    let kind := if a.type = 1 then lit "DENIED" else lit "ALLOWED"
    let who := snprintf 256 (name a.sid)
    snprintf 768 (who ++ lit " (" ++ kind ++ lit ") [" ++ formatInherit a.flags ++ lit "] - " ++
      formatMask a.mask)

/-- `append_str` for several strings. -/
def appendAll (buflen : ℕ) (buf : Bytes) (strs : List Bytes) : Bytes :=
  strs.foldl (appendStr buflen) buf

/-- The loop of `fim_win_acl_format`. -/
def formatLoop (buflen : ℕ) : List Ace → Bytes → Bytes
  | [], buf => buf
  | a :: aces, buf =>
    if buflen ≤ buf.length + 2 + (formatOneAce name a).length + 1 + 21 then
      appendStr buflen buf (lit "  ... truncated ...\n")
    else formatLoop buflen aces (appendAll buflen buf [lit "  ", formatOneAce name a, lit "\n"])

/-- `fim_win_acl_format`: the result, and the string in the buffer. -/
def fimWinAclFormat (acl : Acl) (buflen : ℕ) : ℤ × Bytes :=
  if buflen = 0 then (-1, [])
  else
    let buf := appendStr buflen [] (lit "Permissions:\n")
    let buf :=
      match acl.special with
      | .nodacl => appendStr buflen buf (lit "  (no DACL)\n")
      | .nulldacl => appendStr buflen buf (lit "  (null DACL - unrestricted)\n")
      | .normal => formatLoop name buflen acl.aces buf
    (toInt buf.length, buf)

/-- `ace_same_principal` -/
def aceSamePrincipal (a b : Ace) : Bool := a.sid == b.sid && a.type == b.type && a.flags == b.flags

/-- The strings that the line of a change consists of. -/
def changeStrs : Change Ace → List Bytes
  | .modified o n =>
    [lit "  Modified: ", formatOneAce name o, lit " -> ", formatOneAce name n, lit "\n"]
  | .removed o => [lit "  Removed: ", formatOneAce name o, lit "\n"]
  | .added n => [lit "  Added: ", formatOneAce name n, lit "\n"]

/-- The first loop of `fim_win_acl_diff`, over the old entries. An error is a return with a buffer
that is almost full. -/
def oldLoop (buflen : ℕ) : List Ace → List (Ace × Bool) → Bytes → Bool →
    Except Bytes (List (Ace × Bool) × Bytes × Bool)
  | [], news, buf, any => .ok (news, buf, any)
  | o :: olds, news, buf, any =>
    let (news, buf, any) :=
      match pairFirst (aceSamePrincipal o) news with
      | some (n, news) =>
        if o.mask ≠ n.mask ∨ o.ord ≠ n.ord then
          (news, appendAll buflen buf (changeStrs name (.modified o n)), true)
        else (news, buf, any)
      | none => (news, appendAll buflen buf (changeStrs name (.removed o)), true)
    if buflen ≤ buf.length + 128 then .error (appendStr buflen buf (lit "  ... truncated ...\n"))
    else oldLoop buflen olds news buf any

/-- The second loop, over the new entries. -/
def newLoop (buflen : ℕ) : List (Ace × Bool) → Bytes → Bool → Except Bytes (Bytes × Bool)
  | [], buf, any => .ok (buf, any)
  | (n, paired) :: news, buf, any =>
    if paired then newLoop buflen news buf any
    else
      let buf := appendAll buflen buf (changeStrs name (.added n))
      if buflen ≤ buf.length + 128 then .error (appendStr buflen buf (lit "  ... truncated ...\n"))
      else newLoop buflen news buf true

/-- `fim_win_acl_diff`: the result, and the string in the buffer. -/
def fimWinAclDiff (old_acl new_acl : Acl) (buflen : ℕ) : ℤ × Bytes :=
  if buflen = 0 then (-1, [])
  else if old_acl.special ≠ new_acl.special then
    let buf := appendAll buflen [] [lit "Permissions:\n", lit "  DACL state changed\n"]
    let buf := buf ++ (fimWinAclFormat name new_acl (buflen - buf.length)).2
    (toInt buf.length, buf)
  else if old_acl.special ≠ .normal then (0, [])
  else
    let buf := appendStr buflen [] (lit "Permissions:\n")
    match oldLoop name buflen old_acl.aces (new_acl.aces.map (·, false)) buf false with
    | .error buf => (toInt buf.length, buf)
    | .ok (news, buf, any) =>
      match newLoop name buflen news buf any with
      | .error buf => (toInt buf.length, buf)
      | .ok (buf, any) => if any then (toInt buf.length, buf) else (0, [])

/-- The snapshot behind a sum: there has to be something behind the newline. -/
def snapshotOf (sum : Bytes) : Option Bytes :=
  ((strchr (chr '\n') sum).map List.tail).filter (· ≠ [])

/-- `fim_win_acl_change_text`: the result, and the string in the buffer. -/
def fimWinAclChangeText (old_sum new_sum : Bytes) (buflen : ℕ) : ℤ × Bytes :=
  if buflen = 0 then (-1, [])
  else
    match fimSumGetField new_sum 8 40 with
    | none => (0, [])
    | some new_dig =>
      if fimSumGetField old_sum 8 40 = some new_dig then (0, [])
      else
        match snapshotOf new_sum with
        | none => (0, [])
        | some new_text =>
          let new_acl := fimWinAclParseSnapshot new_text
          match snapshotOf old_sum with
          | some old_text =>
            let report := fimWinAclDiff name (fimWinAclParseSnapshot old_text) new_acl buflen
            if report.1 ≤ 0 then fimWinAclFormat name new_acl buflen else report
          | none => fimWinAclFormat name new_acl buflen

/-! ## Reports with enough room -/

/-- The lines of some changes. -/
def linesText (cs : List (Change Ace)) : Bytes :=
  (cs.map fun c => (changeStrs name c).flatten).flatten

/-- The list as a whole. -/
def fullText (acl : Acl) : Bytes :=
  lit "Permissions:\n" ++
    match acl.special with
    | .nodacl => lit "  (no DACL)\n"
    | .nulldacl => lit "  (null DACL - unrestricted)\n"
    | .normal => (acl.aces.map fun a => lit "  " ++ (formatOneAce name a ++ lit "\n")).flatten

/-- The changes from one list of entries to another. -/
def changes (old_acl new_acl : Acl) : List (Change Ace) :=
  differences aceSamePrincipal old_acl.aces new_acl.aces

/-- The report on two lists that are not the same: the entries that differ, or the new list when
there are no entries to compare. -/
def reportText (old_acl new_acl : Acl) : Bytes :=
  if old_acl.special = new_acl.special then
    lit "Permissions:\n" ++ linesText name (changes old_acl new_acl)
  else lit "Permissions:\n" ++ (lit "  DACL state changed\n" ++ fullText name new_acl)

variable {name} {n o : Ace} {old_acl new_acl : Acl} {olds : List Ace} {news : List (Ace × Bool)}
  {any : Bool}

@[simp]
theorem linesText_nil : linesText name [] = [] := rfl

@[simp]
theorem linesText_cons (c : Change Ace) (cs : List (Change Ace)) :
    linesText name (c :: cs) = (changeStrs name c).flatten ++ linesText name cs := rfl

theorem linesText_append (cs ds : List (Change Ace)) :
    linesText name (cs ++ ds) = linesText name cs ++ linesText name ds := by
  rw [linesText, linesText, linesText, map_append, flatten_append]

theorem appendAll_of_lt {strs : List Bytes} (h : buf.length + strs.flatten.length < buflen) :
    appendAll buflen buf strs = buf ++ strs.flatten := by
  induction strs generalizing buf with
  | nil => simp [appendAll]
  | cons s strs ih =>
    rw [flatten_cons, length_append] at h
    rw [appendAll, foldl_cons, appendStr_of_lt (by omega), flatten_cons, ← append_assoc]
    exact ih (by rw [length_append]; omega)

theorem formatLoop_of_lt
    (h : buf.length +
      (aces.map fun a => lit "  " ++ (formatOneAce name a ++ lit "\n")).flatten.length + 21 <
        buflen) :
    formatLoop name buflen aces buf =
      buf ++ (aces.map fun a => lit "  " ++ (formatOneAce name a ++ lit "\n")).flatten := by
  induction aces generalizing buf with
  | nil => simp [formatLoop]
  | cons a aces ih =>
    have hblank : (lit "  ").length = 2 := by decide
    have hnl : (lit "\n").length = 1 := by decide
    have hstrs : [lit "  ", formatOneAce name a, lit "\n"].flatten =
        lit "  " ++ (formatOneAce name a ++ lit "\n") := by simp
    simp only [map_cons, flatten_cons, length_append, hblank, hnl] at h
    have hroom :
        buf.length + [lit "  ", formatOneAce name a, lit "\n"].flatten.length < buflen := by
      simp only [hstrs, length_append, hblank, hnl]
      omega
    rw [formatLoop, if_neg (by omega), appendAll_of_lt hroom, hstrs, ih, map_cons,
      flatten_cons, append_assoc]
    simp only [length_append, hblank, hnl]
    omega

theorem fimWinAclFormat_of_lt (h : (fullText name acl).length + 21 < buflen) :
    fimWinAclFormat name acl buflen = (toInt (fullText name acl).length, fullText name acl) := by
  have hhead : (lit "Permissions:\n").length = 13 := by decide
  rw [fullText, length_append, hhead] at h
  have hfirst : appendStr buflen [] (lit "Permissions:\n") = lit "Permissions:\n" :=
    appendStr_of_lt (by rw [length_nil, hhead]; omega)
  have hbuf : (match acl.special with
      | .nodacl => appendStr buflen (lit "Permissions:\n") (lit "  (no DACL)\n")
      | .nulldacl => appendStr buflen (lit "Permissions:\n") (lit "  (null DACL - unrestricted)\n")
      | .normal => formatLoop name buflen acl.aces (lit "Permissions:\n")) = fullText name acl := by
    rw [fullText]
    cases hspecial : acl.special with
    | normal =>
      simp only [hspecial] at h ⊢
      exact formatLoop_of_lt (by rw [hhead]; exact h)
    | nodacl =>
      simp only [hspecial] at h ⊢
      exact appendStr_of_lt (by rw [hhead]; omega)
    | nulldacl =>
      simp only [hspecial] at h ⊢
      exact appendStr_of_lt (by rw [hhead]; omega)
  rw [fimWinAclFormat, if_neg (by omega), hfirst]
  simp only [hbuf]

/-- Of two entries of one principal, what can differ is the mask and the place. -/
theorem differs_iff (h : aceSamePrincipal o n = true) :
    o.mask ≠ n.mask ∨ o.ord ≠ n.ord ↔ ¬o = n := by
  simp only [aceSamePrincipal, Bool.and_eq_true, beq_iff_eq] at h
  obtain ⟨⟨hsid, htype⟩, hflags⟩ := h
  obtain ⟨sid, type, flags, mask, ord, hlt⟩ := o
  obtain ⟨sid', type', flags', mask', ord', hlt'⟩ := n
  obtain rfl : sid = sid' := hsid
  obtain rfl : type = type' := htype
  obtain rfl : flags = flags' := hflags
  simp only [Ace.mk.injEq, true_and]
  tauto

theorem aceSamePrincipal_self (a : Ace) : aceSamePrincipal a a = true := by
  simp [aceSamePrincipal]

theorem oldLoop_of_lt
    (h : buf.length + (linesText name (compareAll aceSamePrincipal olds news).1).length + 128 <
      buflen) :
    oldLoop name buflen olds news buf any =
      .ok ((compareAll aceSamePrincipal olds news).2,
        buf ++ linesText name (compareAll aceSamePrincipal olds news).1,
        any || !(compareAll aceSamePrincipal olds news).1.isEmpty) := by
  induction olds generalizing news buf any with
  | nil => simp [oldLoop, compareAll]
  | cons o olds ih =>
    -- a line that is written, or none
    have hstep : ∀ c, buf.length + (linesText name [c]).length + 128 < buflen →
        appendAll buflen buf (changeStrs name c) = buf ++ linesText name [c] := fun c hc => by
      rw [linesText_cons, linesText_nil, append_nil] at hc ⊢
      exact appendAll_of_lt (by omega)
    simp only [compareAll, compareOld] at h ⊢
    rw [oldLoop]
    cases hpair : pairFirst (aceSamePrincipal o) news with
    | none =>
      simp only [hpair, linesText_append, length_append] at h ⊢
      rw [hstep _ (by omega), if_neg (by rw [length_append]; omega),
        ih (by rw [length_append]; omega)]
      simp
    | some found =>
      obtain ⟨m, news'⟩ := found
      have hdiffers := differs_iff (perm_of_pairFirst hpair).1
      simp only [hpair, linesText_append, length_append] at h ⊢
      by_cases heq : o = m
      case pos =>
        rw [if_pos heq] at h
        rw [if_neg fun hd => hdiffers.mp hd heq, if_pos heq]
        dsimp only
        rw [if_neg (by omega), ih (by simpa using h)]
        simp
      case neg =>
        rw [if_neg heq] at h
        rw [if_pos (hdiffers.mpr heq), if_neg heq]
        dsimp only
        rw [hstep _ (by omega), if_neg (by rw [length_append]; omega),
          ih (by rw [length_append]; omega)]
        simp

theorem newLoop_of_lt
    (h : buf.length + (linesText name ((unpaired news).map .added)).length + 128 < buflen) :
    newLoop name buflen news buf any =
      .ok (buf ++ linesText name ((unpaired news).map .added),
        any || !(unpaired news).isEmpty) := by
  induction news generalizing buf any with
  | nil => simp [newLoop]
  | cons entry news ih =>
    obtain ⟨m, paired⟩ := entry
    rw [newLoop]
    cases paired with
    | true =>
      rw [unpaired_cons_true] at h ⊢
      exact ih h
    | false =>
      rw [unpaired_cons_false, map_cons, linesText_cons, length_append] at h
      rw [if_neg Bool.false_ne_true, appendAll_of_lt (by omega)]
      rw [if_neg (by rw [length_append]; omega), ih (by rw [length_append]; omega)]
      simp

/-- With enough room the report is written completely, unless there is nothing to report. -/
theorem fimWinAclDiff_of_lt (h : (reportText name old_acl new_acl).length + 128 < buflen) :
    fimWinAclDiff name old_acl new_acl buflen =
      if old_acl.special = new_acl.special ∧
          (old_acl.special ≠ .normal ∨ changes old_acl new_acl = []) then (0, [])
      else (toInt (reportText name old_acl new_acl).length, reportText name old_acl new_acl) := by
  have hhead : (lit "Permissions:\n").length = 13 := by decide
  have hstate : (lit "  DACL state changed\n").length = 21 := by decide
  rw [fimWinAclDiff, if_neg (by omega)]
  by_cases hspecial : old_acl.special = new_acl.special
  case neg =>
    have hreport : reportText name old_acl new_acl =
        lit "Permissions:\n" ++ (lit "  DACL state changed\n" ++ fullText name new_acl) :=
      if_neg hspecial
    rw [hreport, length_append, length_append, hhead, hstate] at h
    have hbuf : appendAll buflen [] [lit "Permissions:\n", lit "  DACL state changed\n"] =
        lit "Permissions:\n" ++ lit "  DACL state changed\n" := by
      have hroom : ([] : Bytes).length +
          [lit "Permissions:\n", lit "  DACL state changed\n"].flatten.length < buflen := by
        simp only [flatten_cons, flatten_nil, length_append, length_nil, hhead, hstate]
        omega
      rw [appendAll_of_lt hroom]
      simp
    have hformat : fimWinAclFormat name new_acl
        (buflen - (lit "Permissions:\n" ++ lit "  DACL state changed\n").length) =
          (toInt (fullText name new_acl).length, fullText name new_acl) := by
      apply fimWinAclFormat_of_lt
      rw [length_append, hhead, hstate]
      omega
    rw [if_pos hspecial, if_neg fun hc => hspecial hc.1, hreport]
    simp only [hbuf, hformat, append_assoc]
  case pos =>
    have hreport : reportText name old_acl new_acl =
        lit "Permissions:\n" ++ linesText name (changes old_acl new_acl) := if_pos hspecial
    rw [if_neg (not_not_intro hspecial)]
    by_cases hnormal : old_acl.special = .normal
    case neg => rw [if_pos hnormal, if_pos ⟨hspecial, .inl hnormal⟩]
    case pos =>
      -- the changes are those of the old entries, and the entries without a pair
      rw [hreport, changes, differences, linesText_append] at h
      simp only [length_append, hhead] at h
      have hfirst : appendStr buflen [] (lit "Permissions:\n") = lit "Permissions:\n" :=
        appendStr_of_lt (by rw [length_nil, hhead]; omega)
      have hold := @oldLoop_of_lt name old_acl.aces (new_acl.aces.map (·, false)) false buflen
        (lit "Permissions:\n") (by rw [hhead]; omega)
      rw [if_neg (not_not_intro hnormal), hfirst]
      dsimp only
      rw [hold]
      dsimp only
      rw [newLoop_of_lt (by rw [length_append, hhead]; omega)]
      rw [hreport, changes, differences, linesText_append, ← append_assoc]
      by_cases hnone : changes old_acl new_acl = []
      case pos =>
        have hsame : old_acl.special = new_acl.special ∧
            (old_acl.special ≠ .normal ∨ changes old_acl new_acl = []) := ⟨hspecial, .inr hnone⟩
        rw [changes, differences] at hsame
        rw [if_pos hsame]
        rw [changes, differences, append_eq_nil_iff, map_eq_nil_iff] at hnone
        simp [hnone.1, hnone.2]
      case neg =>
        have hdiffer : ¬(old_acl.special = new_acl.special ∧
            (old_acl.special ≠ .normal ∨ changes old_acl new_acl = [])) := fun hc =>
          hc.2.elim (fun hn => hn hnormal) hnone
        rw [changes, differences] at hdiffer
        rw [if_neg hdiffer]
        rw [changes, differences, append_eq_nil_iff, map_eq_nil_iff, not_and_or] at hnone
        rcases hnone with hc | hu
        · simp [hc]
        · simp [hu]

variable (name) in
theorem length_formatOneAce_le (a : Ace) : (formatOneAce name a).length ≤ 767 := by
  rw [formatOneAce]
  split
  · exact List.length_take_le _ _
  · exact List.length_take_le _ _

variable (name) in
theorem length_linesText_le (cs : List (Change Ace)) :
    (linesText name cs).length ≤ 1551 * cs.length := by
  have hline : ∀ c, (changeStrs name c).flatten.length ≤ 1551 := fun c => by
    have hsizes : (lit "  Modified: ").length = 12 ∧ (lit " -> ").length = 4 ∧
        (lit "  Removed: ").length = 11 ∧ (lit "  Added: ").length = 9 ∧ (lit "\n").length = 1 := by
      decide
    cases c with
    | removed o =>
      have := length_formatOneAce_le name o
      simp only [changeStrs, flatten_cons, flatten_nil, length_append, hsizes, length_nil]
      omega
    | added n =>
      have := length_formatOneAce_le name n
      simp only [changeStrs, flatten_cons, flatten_nil, length_append, hsizes, length_nil]
      omega
    | modified o n =>
      have := length_formatOneAce_le name o
      have := length_formatOneAce_le name n
      simp only [changeStrs, flatten_cons, flatten_nil, length_append, hsizes, length_nil]
      omega
  induction cs with
  | nil => exact Nat.zero_le _
  | cons c cs ih =>
    have := hline c
    rw [linesText_cons, length_append, length_cons]
    omega

/-! ## What the changes say -/

theorem changes_self (acl : Acl) : changes acl acl = [] :=
  differences_self aceSamePrincipal_self acl.aces

/-- The changes turn the old entries into the new ones; put in order, these are the new list. -/
theorem applyAll_changes (hspecial : old_acl.special = new_acl.special) :
    ∃ aces, applyAll old_acl.aces (changes old_acl new_acl) = some aces ∧
      aces.Perm new_acl.aces ∧
      (Sorted new_acl → fimAclSort { aces, special := old_acl.special } = new_acl) := by
  obtain ⟨aces, happly, hperm⟩ :=
    applyAll_differences aceSamePrincipal old_acl.aces new_acl.aces
  refine ⟨aces, happly, hperm, fun hnew => ?_⟩
  have hsorted := sorted_fimAclSort { aces, special := old_acl.special }
  exact hsorted.eq_of_perm hnew hspecial ((perm_fimAclSort _).trans hperm)

theorem toInt_of_lt {k : ℕ} (h : k < 2 ^ 31) : toInt k = k :=
  Int.bmod_eq_of_le (by omega) (by omega)

variable (name) in
theorem reportText_ne_nil (old_acl new_acl : Acl) : reportText name old_acl new_acl ≠ [] := by
  rw [reportText]
  split
  · exact append_ne_nil_of_left_ne_nil (by decide) _
  · exact append_ne_nil_of_left_ne_nil (by decide) _

/-- There is nothing to report, or the whole report is there. -/
theorem fimWinAclDiff_cases (h : (reportText name old_acl new_acl).length + 128 < buflen)
    (hint : buflen ≤ 2 ^ 31) :
    ((fimWinAclDiff name old_acl new_acl buflen).1 = 0 ∧ old_acl.special = new_acl.special ∧
      (old_acl.special ≠ .normal ∨ changes old_acl new_acl = [])) ∨
    ((fimWinAclDiff name old_acl new_acl buflen).1 ≠ 0 ∧ old_acl ≠ new_acl ∧
      (fimWinAclDiff name old_acl new_acl buflen).2 = reportText name old_acl new_acl) := by
  have hpos := length_pos_of_ne_nil (reportText_ne_nil name old_acl new_acl)
  rw [fimWinAclDiff_of_lt h]
  split
  case isTrue hsame => exact .inl ⟨rfl, hsame⟩
  case isFalse hdiffer =>
    refine .inr ⟨?_, ?_, rfl⟩
    · dsimp only
      rw [toInt_of_lt (by omega)]
      omega
    · rintro rfl
      exact hdiffer ⟨rfl, .inr (changes_self _)⟩

theorem perm_of_fimWinAclDiff_eq_zero (hold : old_acl.special ≠ .normal → old_acl.aces = [])
    (hnew : new_acl.special ≠ .normal → new_acl.aces = [])
    (h : (reportText name old_acl new_acl).length + 128 < buflen) (hint : buflen ≤ 2 ^ 31)
    (hzero : (fimWinAclDiff name old_acl new_acl buflen).1 = 0) :
    old_acl.special = new_acl.special ∧ old_acl.aces.Perm new_acl.aces := by
  rcases fimWinAclDiff_cases h hint with ⟨-, hspecial, hnormal | hnone⟩ | ⟨hne, -⟩
  · rw [hold hnormal, hnew (hspecial ▸ hnormal)]
    exact ⟨hspecial, List.Perm.refl _⟩
  · exact ⟨hspecial, perm_of_differences_eq_nil aceSamePrincipal hnone⟩
  · exact absurd hzero hne

/-! ## The text for an alert -/

/-- `Within`: there is something in the buffer, and room for its end. -/
structure Within (buflen : ℕ) (buf : Bytes) : Prop where
  ne_nil : buf ≠ []
  lt : buf.length < buflen

theorem Within.appendStr (h : Within buflen buf) (s : Bytes) :
    Within buflen (appendStr buflen buf s) := by
  have hlt := h.lt
  rw [WinAcl.appendStr, if_neg (by omega)]
  split
  case isTrue =>
    refine ⟨append_ne_nil_of_left_ne_nil h.ne_nil _, ?_⟩
    rw [length_append, length_take]
    omega
  case isFalse =>
    refine ⟨append_ne_nil_of_left_ne_nil h.ne_nil _, ?_⟩
    rw [length_append]
    omega

theorem Within.appendAll (h : Within buflen buf) (strs : List Bytes) :
    Within buflen (appendAll buflen buf strs) := by
  induction strs generalizing buf with
  | nil => exact h
  | cons s strs ih => exact ih (h.appendStr s)

theorem Within.formatLoop (h : Within buflen buf) (aces : List Ace) :
    Within buflen (formatLoop name buflen aces buf) := by
  induction aces generalizing buf with
  | nil => exact h
  | cons a aces ih =>
    rw [WinAcl.formatLoop]
    split
    case isTrue => exact h.appendStr _
    case isFalse => exact ih (h.appendAll _)

theorem within_head (h : 2 ≤ buflen) :
    Within buflen (appendStr buflen [] (lit "Permissions:\n")) := by
  have hlen : (lit "Permissions:\n").length = 13 := by decide
  rw [appendStr, length_nil, hlen, if_neg (by omega)]
  split
  case isTrue hshort =>
    have htake : ([] ++ (lit "Permissions:\n").take (buflen - 0 - 1)).length = buflen - 1 := by
      rw [nil_append, length_take, hlen]
      omega
    exact ⟨ne_nil_of_length_pos (by omega), by omega⟩
  case isFalse => exact ⟨by decide, by rw [nil_append, hlen]; omega⟩

theorem fimWinAclFormat_pos (h : 2 ≤ buflen) (hint : buflen ≤ 2 ^ 31) :
    0 < (fimWinAclFormat name acl buflen).1 ∧ (fimWinAclFormat name acl buflen).2 ≠ [] := by
  have hwithin : ∀ text, Within buflen text → 0 < toInt text.length ∧ text ≠ [] := fun text ht => by
    have hpos := length_pos_of_ne_nil ht.ne_nil
    have hlt := ht.lt
    rw [toInt_of_lt (by omega)]
    exact ⟨by omega, ht.ne_nil⟩
  rw [fimWinAclFormat, if_neg (by omega)]
  dsimp only
  apply hwithin
  split
  · exact (within_head h).appendStr _
  · exact (within_head h).appendStr _
  · exact (within_head h).formatLoop _

/-- A report that is announced is not empty. -/
theorem fimWinAclDiff_ne_nil (old_acl new_acl : Acl) (buflen : ℕ) :
    0 < (fimWinAclDiff name old_acl new_acl buflen).1 →
      (fimWinAclDiff name old_acl new_acl buflen).2 ≠ [] := by
  have hpos : ∀ text : Bytes,
      0 < (toInt text.length, text).1 → (toInt text.length, text).2 ≠ [] := by
    rintro text ht rfl
    cases ht
  rw [fimWinAclDiff]
  split
  case isTrue => exact fun h => absurd h (by simp)
  case isFalse =>
    split
    case isTrue => exact hpos _
    case isFalse =>
      split
      case isTrue => exact fun h => absurd h (by simp)
      case isFalse =>
        dsimp only
        split
        case h_1 => exact hpos _
        case h_2 =>
          split
          case h_1 => exact hpos _
          case h_2 =>
            split
            case isTrue => exact hpos _
            case isFalse => exact fun h => absurd h (by simp)

/-- A sum with another digest, and a snapshot behind it, is reported. -/
theorem fimWinAclChangeText_pos {old_sum new_sum dig text : Bytes} (h : 2 ≤ buflen)
    (hint : buflen ≤ 2 ^ 31) (hnew : fimSumGetField new_sum 8 40 = some dig)
    (htext : snapshotOf new_sum = some text) (hdiffer : fimSumGetField old_sum 8 40 ≠ some dig) :
    0 < (fimWinAclChangeText name old_sum new_sum buflen).1 ∧
      (fimWinAclChangeText name old_sum new_sum buflen).2 ≠ [] := by
  have hfull := @fimWinAclFormat_pos name buflen (fimWinAclParseSnapshot text) h hint
  rw [fimWinAclChangeText, if_neg (by omega)]
  simp only [hnew, hdiffer, htext, if_false]
  cases snapshotOf old_sum with
  | none => exact hfull
  | some old_text =>
    dsimp only
    split
    case isTrue => exact hfull
    case isFalse hpos =>
      have hlt := Int.not_le.mp hpos
      exact ⟨hlt, fimWinAclDiff_ne_nil _ _ _ hlt⟩

theorem fimWinAclChangeText_eq {old_sum new_sum dig : Bytes} (h : 0 < buflen)
    (hnew : fimSumGetField new_sum 8 40 = some dig)
    (hold : fimSumGetField old_sum 8 40 = some dig) :
    fimWinAclChangeText name old_sum new_sum buflen = (0, []) := by
  rw [fimWinAclChangeText, if_neg (by omega)]
  simp only [hnew, hold, if_true]

/-- Lists are read back from their snapshots; nothing is reported of lists that are the same, and
what is reported of others turns the one into the other; a sum with another digest is reported. -/
theorem winAcl_law (name : Bytes → Bytes) :
    (∀ acl : Acl, (acl.special ≠ .normal → acl.aces = []) → (acl.aces.map Ace.ord).Nodup →
      (∀ a ∈ acl.aces, Plain a.sid) → (snapshotText acl).length + 19 < 256 * 1024 →
        ∃ text, fimWinAclSnapshotDup acl = some text ∧
          (fimWinAclParseSnapshot text).special = acl.special ∧
          (fimWinAclParseSnapshot text).aces.Perm acl.aces ∧
          (fimWinAclParseSnapshot text).aces.Pairwise fun a b => a.ord < b.ord) ∧
    (∀ (old_acl new_acl : Acl) (buflen : ℕ), (old_acl.special ≠ .normal → old_acl.aces = []) →
      (new_acl.special ≠ .normal → new_acl.aces = []) →
      (reportText name old_acl new_acl).length + 128 < buflen → buflen ≤ 2 ^ 31 →
        (old_acl = new_acl → (fimWinAclDiff name old_acl new_acl buflen).1 = 0) ∧
        ((fimWinAclDiff name old_acl new_acl buflen).1 = 0 →
          old_acl.special = new_acl.special ∧ old_acl.aces.Perm new_acl.aces ∧
          (Sorted old_acl → Sorted new_acl → old_acl = new_acl)) ∧
        ((fimWinAclDiff name old_acl new_acl buflen).1 ≠ 0 →
          (fimWinAclDiff name old_acl new_acl buflen).2 = reportText name old_acl new_acl) ∧
        (old_acl.special = new_acl.special →
          ∃ aces, applyAll old_acl.aces (changes old_acl new_acl) = some aces ∧
            aces.Perm new_acl.aces ∧
            (Sorted new_acl → fimAclSort { aces, special := old_acl.special } = new_acl))) ∧
    (∀ (old_sum new_sum dig text : Bytes) (buflen : ℕ), 2 ≤ buflen → buflen ≤ 2 ^ 31 →
      fimSumGetField new_sum 8 40 = some dig → snapshotOf new_sum = some text →
        (fimSumGetField old_sum 8 40 = some dig →
          fimWinAclChangeText name old_sum new_sum buflen = (0, [])) ∧
        (fimSumGetField old_sum 8 40 ≠ some dig →
          0 < (fimWinAclChangeText name old_sum new_sum buflen).1 ∧
          (fimWinAclChangeText name old_sum new_sum buflen).2 ≠ [])) := by
  refine ⟨?snapshots, ?differences, ?alerts⟩
  case snapshots =>
    intro acl hspecial hord hsid hlimit
    exact parse_snapshotDup hspecial hord hsid hlimit
  case differences =>
    intro old_acl new_acl buflen hold hnew hroom hint
    have hcases := @fimWinAclDiff_cases name old_acl new_acl buflen hroom hint
    refine ⟨?same, ?zero, ?report, applyAll_changes⟩
    case same =>
      intro heq
      rcases hcases with ⟨hzero, -⟩ | ⟨-, hne, -⟩
      · exact hzero
      · exact absurd heq hne
    case zero =>
      intro hzero
      obtain ⟨hspecial, hperm⟩ := perm_of_fimWinAclDiff_eq_zero hold hnew hroom hint hzero
      exact ⟨hspecial, hperm, fun hs hs' => hs.eq_of_perm hs' hspecial hperm⟩
    case report =>
      intro hne
      rcases hcases with ⟨hzero, -⟩ | ⟨-, -, hreport⟩
      · exact absurd hzero hne
      · exact hreport
  case alerts =>
    intro old_sum new_sum dig text buflen hbuf hint hnew htext
    refine ⟨fun hold => ?_, fun hold => ?_⟩
    · exact fimWinAclChangeText_eq (by omega) hnew hold
    · exact fimWinAclChangeText_pos hbuf hint hnew htext hold

/-- Everyone may read a file; then everyone may read and write it. -/
theorem winAcl_law_everyone :
    let reads : Ace := ⟨lit "S-1-1-0", 0, 0, 1, 0, by decide⟩
    let writes : Ace := ⟨lit "S-1-1-0", 0, 0, 3, 0, by decide⟩
    (∃ text, fimWinAclSnapshotDup ⟨[reads], .normal⟩ = some text ∧
      (fimWinAclParseSnapshot text).aces.Perm [reads]) ∧
    (fimWinAclDiff id ⟨[reads], .normal⟩ ⟨[writes], .normal⟩ 4096).1 ≠ 0 ∧
    (∃ aces, applyAll [reads] (changes ⟨[reads], .normal⟩ ⟨[writes], .normal⟩) = some aces ∧
      fimAclSort ⟨aces, .normal⟩ = ⟨[writes], .normal⟩) ∧
    (fimWinAclChangeText id (lit "0:0:0:0:a:b:c:0:d1\n0|S-1-1-0|0|0|1\n")
      (lit "0:0:0:0:a:b:c:0:d2\n0|S-1-1-0|0|0|3\n") 4096).2 ≠ [] := by
  intro reads writes
  have hplain : Plain (lit "S-1-1-0") := ⟨by decide, by decide, by decide, by decide⟩
  have hchanges : changes ⟨[reads], .normal⟩ ⟨[writes], .normal⟩ = [.modified reads writes] := by
    decide
  have hroom : (reportText id ⟨[reads], .normal⟩ ⟨[writes], .normal⟩).length + 128 < 4096 := by
    have hlines := length_linesText_le id [.modified reads writes]
    have hhead : (lit "Permissions:\n").length = 13 := by decide
    rw [reportText, if_pos rfl, hchanges, length_append, hhead]
    rw [length_singleton] at hlines
    omega
  obtain ⟨hsnap, hdiff, halert⟩ := winAcl_law id
  obtain ⟨text, hdup, -, hperm, -⟩ := hsnap ⟨[reads], .normal⟩ (fun h => absurd rfl h)
    (pairwise_singleton _ _) (by simpa using hplain) (by decide)
  obtain ⟨-, hzero, -, happly⟩ := hdiff ⟨[reads], .normal⟩ ⟨[writes], .normal⟩ 4096
    (fun h => absurd rfl h) (fun h => absurd rfl h) hroom (by decide)
  obtain ⟨aces, hall, -, hsort⟩ := happly rfl
  have hsorted : ∀ a : Ace, Sorted ⟨[a], .normal⟩ := fun a => pairwise_singleton _ _
  obtain ⟨-, hreport⟩ := halert (lit "0:0:0:0:a:b:c:0:d1\n0|S-1-1-0|0|0|1\n")
    (lit "0:0:0:0:a:b:c:0:d2\n0|S-1-1-0|0|0|3\n") (lit "d2") (lit "0|S-1-1-0|0|0|3\n") 4096
    (by decide) (by decide) (by decide) (by decide)
  refine ⟨⟨text, hdup, hperm⟩, fun h => ?_, ⟨aces, hall, hsort (hsorted _)⟩,
    (hreport (by decide)).2⟩
  exact absurd ((hzero h).2.2 (hsorted _) (hsorted _)) (by decide)

/-- An entry without an identifier is not read back, and an identifier with the note cannot be
kept. Lists that are not in order need not be the same for the report to be empty. When a file
loses its list nothing is said of the entries that go with it. A list that loses its last entry is
not reported at all. -/
theorem not_winAcl :
    let nobody : Ace := ⟨[], 0, 0, 1, 0, by decide⟩
    let note : Ace := ⟨lit "... truncated", 0, 0, 1, 0, by decide⟩
    let one : Ace := ⟨lit "S-1-1-0", 0, 0, 1, 0, by decide⟩
    let other : Ace := ⟨lit "S-1-5-18", 0, 0, 1, 1, by decide⟩
    (∃ text, fimWinAclSnapshotDup ⟨[nobody], .normal⟩ = some text ∧
      fimWinAclParseSnapshot text = ⟨[], .normal⟩) ∧
    fimWinAclSnapshotDup ⟨[note], .normal⟩ = none ∧
    fimWinAclDiff id ⟨[one, other], .normal⟩ ⟨[other, one], .normal⟩ 4096 = (0, []) ∧
    fimWinAclDiff id ⟨[one], .normal⟩ ⟨[], .nodacl⟩ 4096 =
      (59, lit "Permissions:\n  DACL state changed\nPermissions:\n  (no DACL)\n") ∧
    fimWinAclChangeText id (lit "0:0:0:0:a:b:c:0:d1\n0|S-1-1-0|0|0|1\n")
      (lit "0:0:0:0:a:b:c:0:d2\n") 4096 = (0, []) := by
  intro nobody note one other
  have hparse : parseLoop (strtokLines (lit "0||0|0|1\n")) [] = ⟨[], .normal⟩ := by decide
  refine ⟨⟨lit "0||0|0|1\n", by decide, ?_⟩, by decide, by decide, by decide, by decide⟩
  rw [fimWinAclParseSnapshot, hparse, fimAclSort, mergeSort_nil]

end WinAcl
