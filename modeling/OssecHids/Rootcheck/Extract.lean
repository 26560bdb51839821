import Mathlib.Data.List.Basic
import OssecHids.Lib.Search
import OssecHids.Rootcheck.Report

/-!
# What is read from a report about a file

`rk_extract_hashes` of the decoder looks for the path and the hashes of a report. The hashes are
the last thing in it, and the path ends where the fixed text in front of them starts.

- `hashes_eq`: the last mark is that of the hashes, whatever the path is;
- `text_end_of_append`: which of the fixed texts stands in front of the hashes;
- `report_law`: a report is read as what was reported.
-/

open CString List Option

namespace Rootcheck

/-- The fields of `Eventinfo` that are read and set. -/
structure Eventinfo where
  log : Bytes
  filename : Option Bytes := none
  md5_after : Option Bytes := none
  sha1_after : Option Bytes := none
  sha256_after : Option Bytes := none
  deriving DecidableEq

/-- `rk_is_hash` -/
def rkIsHash (val : Bytes) (len : ℕ) : Bool :=
  val == lit "n/a" ||
    (val.length == len && (val.takeWhile (lit "0123456789abcdef").contains).length == len)

/-- The conversions of `sscanf` for the hashes, with what stands behind them. -/
def scanHashes (s : Bytes) : Option (Bytes × Bytes × Bytes × Bytes) :=
  (scanText (lit "MD5=") (s.dropWhile isSpace)).bind fun s =>
  (scanWord 64 s).bind fun (md5, s) =>
  (scanText (lit "SHA1=") (s.dropWhile isSpace)).bind fun s =>
  (scanWord 64 s).bind fun (sha1, s) =>
  (scanText (lit "SHA256=") (s.dropWhile isSpace)).bind fun s =>
  (scanWord 64 s).map fun (sha256, s) => (md5, sha1, sha256, s)

/-- The hashes behind the last mark, if they are complete up to the end of the message: where they
start, and what they are. -/
def rkHashes (log : Bytes) : Option (Bytes × Bytes × Bytes × Bytes) :=
  (lastStr (lit " MD5=") (log.length + 2) log none).bind fun hashes =>
  (scanHashes hashes).bind fun (md5, sha1, sha256, used) =>
    if used = [] ∧ rkIsHash md5 32 ∧ rkIsHash sha1 40 ∧ rkIsHash sha256 64 then
      some (hashes, md5, sha1, sha256)
    else none

/-- The fixed text that follows a path. -/
def afterPath : List Bytes :=
  [lit "'.",
   lit "'. File size doesn't match what we found. Possible kernel level rootkit.",
   lit "'. Hidden from stats, but showing up on readdir. Possible kernel level rootkit."]

/-- A fixed text stands in front of the end, behind a path. -/
def endsAt (log : Bytes) (start text_end : ℕ) (after : Bytes) : Bool :=
  sizeSub text_end start > after.length &&
    strncmpEq after.length (log.drop (text_end - after.length)) after

/-- Where the path starts and ends. -/
def rkPath (trojan : Bool) (log : Bytes) (hashes : Option Bytes) : Option (ℕ × ℕ) :=
  (strstr (lit " file '") log).bind fun p =>
    let start := ptrDiff p log + 7
    if trojan then
      (strchr (chr '\'') (log.drop start)).map fun stop => (start, ptrDiff stop log)
    else
      let text_end := hashes.elim log.length fun hashes => ptrDiff hashes log
      (afterPath.find? (endsAt log start text_end)).map fun after =>
        (start, text_end - after.length)

/-- A value that was sent, unless it says that there is none. -/
def setHash (val : Bytes) (old : Option Bytes) : Option Bytes :=
  if val = lit "n/a" then old else some val

/-- `rk_extract_hashes` -/
def rkExtractHashes (lf : Eventinfo) : Eventinfo :=
  let trojan := strncmpEq 26 lf.log (lit "Trojaned version of file '")
  if !trojan && !strncmpEq 9 lf.log (lit "Rootkit '") &&
      !strncmpEq 26 lf.log (lit "Anomaly detected in file '") then lf
  else
    let hashes := rkHashes lf.log
    let lf :=
      match rkPath trojan lf.log (hashes.map Prod.fst) with
      | some (start, stop) =>
        if start < stop then { lf with filename := some ((lf.log.take stop).drop start) } else lf
      | none => lf
    match hashes with
    | none => lf
    | some (_, md5, sha1, sha256) =>
      { lf with
        md5_after := setHash md5 lf.md5_after
        sha1_after := setHash sha1 lf.sha1_after
        sha256_after := setHash sha256 lf.sha256_after }

/-- What is to be read from a report. -/
def reported (log path : Bytes) (sums : Option Digests) : Eventinfo where
  log := log
  filename := some path
  md5_after := sums.map Digests.md5Text
  sha1_after := sums.map Digests.sha1Text
  sha256_after := sums.map Digests.sha256Text

/-! ## Hashes -/

/-- The text of a hash. -/
structure IsHash (val : Bytes) (len : ℕ) : Prop where
  rkIsHash : rkIsHash val len = true
  ne_nil : val ≠ []
  isSpace : ∀ b ∈ val, isSpace b = false
  length_le : val.length ≤ 64

theorem isHash_hexText {bytes : Bytes} (hne : bytes ≠ []) (hlen : bytes.length ≤ 32) :
    IsHash (hexText bytes) (2 * bytes.length) := by
  have hspace : ∀ b ∈ lit "0123456789abcdef", CString.isSpace b = false :=
    forall_mem_of_all (by decide)
  have hall : ∀ b ∈ hexText bytes, (lit "0123456789abcdef").contains b = true ∧
      CString.isSpace b = false := fun b hb =>
    ⟨contains_iff_mem.mpr (mem_hexText hb), hspace b (mem_hexText hb)⟩
  have hlength := length_hexText bytes
  refine ⟨?_, ?_, fun b hb => (hall b hb).2, ?_⟩
  · rw [Rootcheck.rkIsHash, takeWhile_eq_self_iff.mpr fun b hb => (hall b hb).1, hlength]
    simp
  · intro hnil
    rw [hnil, length_nil] at hlength
    exact hne (length_eq_zero_iff.mp (by omega))
  · omega

theorem isHash_none (len : ℕ) : IsHash (lit "n/a") len where
  rkIsHash := rfl
  ne_nil := by decide
  isSpace := forall_mem_of_all (by decide)
  length_le := by decide

theorem isHash_elim {f : Digests → Bytes} {len : ℕ} (hf : ∀ d, IsHash (f d) len)
    (sums : Option Digests) : IsHash (sums.elim (lit "n/a") f) len := by
  cases sums with
  | none => exact isHash_none len
  | some d => exact hf d

theorem Digests.isHash_md5Text (d : Digests) : IsHash d.md5Text 32 := by
  have h := @isHash_hexText (List.ofFn d.md5) (by simp) (by simp)
  rwa [length_ofFn] at h

theorem Digests.isHash_sha1Text (d : Digests) : IsHash d.sha1Text 40 := by
  have h := @isHash_hexText (List.ofFn d.sha1) (by simp) (by simp)
  rwa [length_ofFn] at h

theorem Digests.isHash_sha256Text (d : Digests) : IsHash d.sha256Text 64 := by
  have h := @isHash_hexText (List.ofFn d.sha256) (by simp) (by simp)
  rwa [length_ofFn] at h

theorem length_md5Text (d : Digests) : d.md5Text.length = 32 := by
  rw [Digests.md5Text, length_hexText, length_ofFn]

theorem length_sha1Text (d : Digests) : d.sha1Text.length = 40 := by
  rw [Digests.sha1Text, length_hexText, length_ofFn]

theorem length_sha256Text (d : Digests) : d.sha256Text.length = 64 := by
  rw [Digests.sha256Text, length_hexText, length_ofFn]

theorem setHash_elim {f : Digests → Bytes} {len : ℕ} (hlen : 3 < len)
    (hf : ∀ d, (f d).length = len) (sums : Option Digests) :
    setHash (sums.elim (lit "n/a") f) none = sums.map f := by
  cases sums with
  | none => rfl
  | some d =>
    refine if_neg fun heq => ?_
    have hlength : (f d).length = 3 := congrArg List.length heq
    rw [hf d] at hlength
    omega

/-- The hashes are read as they were written. -/
theorem scanHashes_eq {md5 sha1 sha256 : Bytes} {m s₁ s₂ : ℕ} (hmd5 : IsHash md5 m)
    (hsha1 : IsHash sha1 s₁) (hsha256 : IsHash sha256 s₂) :
    scanHashes (lit " MD5=" ++ md5 ++ (lit " SHA1=" ++ sha1 ++ (lit " SHA256=" ++ sha256))) =
      some (md5, sha1, sha256, []) := by
  have hmd5mark :
      (lit " MD5=" ++ md5 ++ (lit " SHA1=" ++ sha1 ++ (lit " SHA256=" ++ sha256))).dropWhile isSpace =
        lit "MD5=" ++ (md5 ++ (lit " SHA1=" ++ sha1 ++ (lit " SHA256=" ++ sha256))) := rfl
  have hsha1mark : (lit " SHA1=" ++ sha1 ++ (lit " SHA256=" ++ sha256)).dropWhile isSpace =
      lit "SHA1=" ++ (sha1 ++ (lit " SHA256=" ++ sha256)) := rfl
  have hsha256mark : (lit " SHA256=" ++ sha256).dropWhile isSpace = lit "SHA256=" ++ sha256 := rfl
  have hlast := scanWord_append (r := []) hsha256.ne_nil hsha256.isSpace hsha256.length_le rfl
  rw [append_nil] at hlast
  rw [scanHashes, hmd5mark, scanText_append, bind_some,
    scanWord_append hmd5.ne_nil hmd5.isSpace hmd5.length_le rfl, bind_some]
  dsimp only
  rw [hsha1mark, scanText_append, bind_some,
    scanWord_append hsha1.ne_nil hsha1.isSpace hsha1.length_le rfl, bind_some]
  rw [hsha256mark, scanText_append, bind_some, hlast]
  rfl

/-- The hashes behind a message are those that are found, whatever the message is. -/
theorem hashes_eq (text : Bytes) (sums : Option Digests) :
    rkHashes (text ++ hashText sums) =
      some (hashText sums, sums.elim (lit "n/a") Digests.md5Text,
        sums.elim (lit "n/a") Digests.sha1Text, sums.elim (lit "n/a") Digests.sha256Text) := by
  have hmd5 := isHash_elim Digests.isHash_md5Text sums
  have hsha1 := isHash_elim Digests.isHash_sha1Text sums
  have hsha256 := isHash_elim Digests.isHash_sha256Text sums
  have hword : ∀ {val : Bytes} {len : ℕ}, IsHash val len → chr ' ' ∉ val := fun h hmem =>
    absurd (h.isSpace _ hmem) (by decide)
  rw [hashText]
  generalize sums.elim (lit "n/a") Digests.md5Text = md5 at hmd5 ⊢
  generalize sums.elim (lit "n/a") Digests.sha1Text = sha1 at hsha1 ⊢
  generalize sums.elim (lit "n/a") Digests.sha256Text = sha256 at hsha256 ⊢
  -- there is no other mark behind the first blank of the hashes
  have hlast : strstr (lit " MD5=") (lit " MD5=" ++
      (md5 ++ (lit " SHA1=" ++ sha1 ++ (lit " SHA256=" ++ sha256)))).tail = none := by
    calc strstr (lit " MD5=") (lit "MD5=" ++
          (md5 ++ (lit " SHA1=" ++ sha1 ++ (lit " SHA256=" ++ sha256))))
        = strstr (lit " MD5=") (md5 ++ (lit " SHA1=" ++ sha1 ++ (lit " SHA256=" ++ sha256))) := rfl
      _ = strstr (lit " MD5=") (lit " SHA1=" ++ sha1 ++ (lit " SHA256=" ++ sha256)) :=
          strstr_append_of_notMem (hword hmd5) _
      _ = strstr (lit " MD5=") (sha1 ++ (lit " SHA256=" ++ sha256)) := rfl
      _ = strstr (lit " MD5=") (lit " SHA256=" ++ sha256) :=
          strstr_append_of_notMem (hword hsha1) _
      _ = strstr (lit " MD5=") (sha256 ++ []) := by rw [append_nil]; rfl
      _ = none := strstr_append_of_notMem (hword hsha256) []
  have hfound : lastStr (lit " MD5=") ((text ++ (lit " MD5=" ++ md5 ++
      (lit " SHA1=" ++ sha1 ++ (lit " SHA256=" ++ sha256)))).length + 2)
        (text ++ (lit " MD5=" ++ md5 ++ (lit " SHA1=" ++ sha1 ++ (lit " SHA256=" ++ sha256)))) none =
      some (lit " MD5=" ++ md5 ++ (lit " SHA1=" ++ sha1 ++ (lit " SHA256=" ++ sha256))) := by
    rw [append_assoc (lit " MD5=")]
    apply lastStr_eq hlast
    rw [length_append]
    omega
  rw [rkHashes, hfound, bind_some, scanHashes_eq hmd5 hsha1 hsha256, bind_some]
  exact if_pos ⟨rfl, hmd5.rkIsHash, hsha1.rkIsHash, hsha256.rkIsHash⟩

theorem isSuffix_of_scanHashes {s md5 sha1 sha256 used : Bytes}
    (h : scanHashes s = some (md5, sha1, sha256, used)) : sha256 ≠ [] ∧ sha256 ++ used <:+ s := by
  simp only [scanHashes, bind_eq_some_iff, map_eq_some_iff, Prod.mk.injEq] at h
  obtain ⟨s₁, h₁, ⟨m, s₂⟩, h₂, s₃, h₃, ⟨n, s₄⟩, h₄, s₅, h₅, ⟨o, s₆⟩, h₆, -, -, rfl, rfl⟩ := h
  have htext : ∀ {t s r : Bytes}, scanText t (s.dropWhile isSpace) = some r → r <:+ s :=
    fun h => (isSuffix_of_scanText h).trans (dropWhile_suffix _)
  have hword : ∀ {s word r : Bytes}, scanWord 64 s = some (word, r) → r <:+ s :=
    fun h => (suffix_append _ _).trans (scanWord_eq_some h).2
  obtain ⟨hne, hsub⟩ := scanWord_eq_some h₆
  exact ⟨hne, hsub.trans ((htext h₅).trans ((hword h₄).trans ((htext h₃).trans
    ((hword h₂).trans (htext h₁)))))⟩

/-- A message that ends with a full stop has no hashes. -/
theorem hashes_eq_none (text : Bytes) : rkHashes (text ++ lit ".") = none := by
  rw [rkHashes, bind_eq_none_iff]
  intro hashes hlast
  have hsuffix : hashes <:+ text ++ lit "." :=
    isSuffix_of_lastStr suffix_rfl (by simp) hlast
  rw [bind_eq_none_iff]
  rintro ⟨md5, sha1, sha256, used⟩ hscan
  apply if_neg
  rintro ⟨rfl, -, -, hhash⟩
  -- the last hash ends where the message does
  obtain ⟨hne, hsub⟩ := isSuffix_of_scanHashes hscan
  rw [append_nil] at hsub
  obtain ⟨val, b, rfl⟩ := (eq_nil_or_concat' sha256).resolve_left hne
  obtain ⟨front, hfront⟩ := hsub.trans hsuffix
  rw [← append_assoc] at hfront
  obtain ⟨-, hb⟩ := append_inj' hfront rfl
  obtain rfl : b = chr '.' := (List.cons.inj hb).1
  rw [rkIsHash, Bool.or_eq_true, beq_iff_eq, Bool.and_eq_true, beq_iff_eq, beq_iff_eq] at hhash
  rcases hhash with hna | ⟨hlen, hspan⟩
  · have hlast := congrArg List.getLast? hna
    rw [getLast?_concat] at hlast
    cases hlast
  · have hall := (List.takeWhile_prefix (p := (lit "0123456789abcdef").contains)
      (l := val ++ [chr '.'])).eq_of_length (hspan.trans hlen.symm)
    have hdot := takeWhile_eq_self_iff.mp hall (chr '.') (by simp)
    cases hdot

/-! ## The path -/

section Path

variable {front path after rest a : Bytes}

/-- What stands in front of the end is decided by the fixed text that is there. -/
theorem endsAt_append (hpath : path ≠ []) (ha : a.length ≤ after.length)
    (hlen : (path ++ after).length < 2 ^ 64) :
    endsAt (front ++ path ++ after ++ rest) front.length (front ++ path ++ after).length a =
      strncmpEq a.length (after.drop (after.length - a.length)) a := by
  have hpos := length_pos_iff.mpr hpath
  simp only [length_append] at hlen
  have hdrop : (front ++ path ++ after ++ rest).drop
      ((front ++ path ++ after).length - a.length) =
        after.drop (after.length - a.length) ++ rest := by
    have hsplit : (front ++ path ++ after).length - a.length =
        (front ++ path).length + (after.length - a.length) := by
      rw [@length_append _ _ after]
      omega
    rw [hsplit, ← drop_drop, append_assoc _ after, drop_left,
      drop_append_of_le_length (Nat.sub_le ..)]
  have hdiff : sizeSub (front ++ path ++ after).length front.length =
      path.length + after.length := by
    rw [sizeSub, length_append, length_append]
    omega
  have hgt : sizeSub (front ++ path ++ after).length front.length > a.length := by
    rw [hdiff]
    omega
  rw [endsAt, decide_eq_true hgt, Bool.true_and, hdrop, strncmpEq_append]
  rw [length_drop]
  omega

/-- The fixed text that stands behind the path is the one that is found. -/
theorem text_end_of_append (hafter : after ∈ afterPath) (hpath : path ≠ [])
    (hlen : (path ++ after).length < 2 ^ 64) :
    afterPath.find? (endsAt (front ++ path ++ after ++ rest) front.length
      (front ++ path ++ after).length) = some after := by
  rw [afterPath, mem_cons, mem_cons, mem_singleton] at hafter
  rcases hafter with rfl | rfl | rfl
  · rw [afterPath, find?_cons_of_pos]
    rw [endsAt_append hpath (by decide) hlen]
    decide
  · rw [afterPath, find?_cons_of_neg, find?_cons_of_pos]
    · rw [endsAt_append hpath (by decide) hlen]
      decide
    · rw [endsAt_append hpath (by decide) hlen]
      decide
  · rw [afterPath, find?_cons_of_neg, find?_cons_of_neg, find?_cons_of_pos]
    · rw [endsAt_append hpath (by decide) hlen]
      decide
    · rw [endsAt_append hpath (by decide) hlen]
      decide
    · rw [endsAt_append hpath (by decide) hlen]
      decide

/-- The path is all that stands between the front of a message and its fixed text. -/
theorem rkPath_eq (hfront : ∀ r, strstr (lit " file '") (front ++ r) = some (lit " file '" ++ r))
    (hafter : after ∈ afterPath) (hpath : path ≠ []) (hlen : (path ++ after).length < 2 ^ 64)
    {hashes : Option Bytes}
    (hhashes : (hashes.elim (front ++ path ++ after ++ rest).length fun hashes =>
      ptrDiff hashes (front ++ path ++ after ++ rest)) = (front ++ path ++ after).length) :
    rkPath false (front ++ path ++ after ++ rest) hashes =
      some (front.length, (front ++ path).length) := by
  have hfind : strstr (lit " file '") (front ++ path ++ after ++ rest) =
      some (lit " file '" ++ (path ++ (after ++ rest))) := by
    rw [append_assoc, append_assoc]
    exact hfront _
  have hstart : ptrDiff (lit " file '" ++ (path ++ (after ++ rest)))
      (front ++ path ++ after ++ rest) + 7 = front.length := by
    have hle := (isSuffix_of_strstr (hfront [])).length_le
    have hseven : (lit " file '").length = 7 := rfl
    simp only [append_nil, hseven] at hle
    simp only [ptrDiff, length_append, hseven]
    omega
  rw [rkPath, hfind, bind_some, hstart, if_neg Bool.false_ne_true]
  dsimp only
  rw [hhashes, text_end_of_append hafter hpath hlen, map_some,
    @length_append _ _ after, Nat.add_sub_cancel]

/-- How the messages about a path that was found start. -/
structure Opens (front : Bytes) : Prop where
  not_trojan : ∀ r, strncmpEq 26 (front ++ r) (lit "Trojaned version of file '") = false
  known : ∀ r, (!strncmpEq 9 (front ++ r) (lit "Rootkit '") &&
    !strncmpEq 26 (front ++ r) (lit "Anomaly detected in file '")) = false
  file : ∀ r, strstr (lit " file '") (front ++ r) = some (lit " file '" ++ r)

theorem opens_anomaly : Opens (lit "Anomaly detected in file '") where
  not_trojan _ := rfl
  known _ := rfl
  file _ := rfl

theorem opens_rootkit {name : Bytes} (hname : chr ' ' ∉ name) :
    Opens (lit "Rootkit '" ++ name ++ lit "' detected by the presence of file '") where
  not_trojan _ := rfl
  known _ := rfl
  file r := by
    calc strstr (lit " file '")
          (lit "Rootkit '" ++ name ++ lit "' detected by the presence of file '" ++ r)
        = strstr (lit " file '")
            (lit "Rootkit '" ++ (name ++ (lit "' detected by the presence of file '" ++ r))) := by
          rw [append_assoc, append_assoc]
      _ = strstr (lit " file '") (name ++ (lit "' detected by the presence of file '" ++ r)) := rfl
      _ = strstr (lit " file '") (lit "' detected by the presence of file '" ++ r) :=
          strstr_append_of_notMem hname _
      _ = some (lit " file '" ++ r) := rfl

/-- What the decoder makes of a message, once the hashes and the path are known. -/
theorem rkExtractHashes_eq (hfront : Opens front) (hafter : after ∈ afterPath) (hpath : path ≠ [])
    (hlen : (path ++ after).length < 2 ^ 64)
    (hhashes : (((rkHashes (front ++ path ++ after ++ rest)).map Prod.fst).elim
      (front ++ path ++ after ++ rest).length fun hashes =>
        ptrDiff hashes (front ++ path ++ after ++ rest)) = (front ++ path ++ after).length) :
    rkExtractHashes { log := front ++ path ++ after ++ rest } =
      match rkHashes (front ++ path ++ after ++ rest) with
      | none => { log := front ++ path ++ after ++ rest, filename := some path }
      | some (_, md5, sha1, sha256) =>
        { log := front ++ path ++ after ++ rest
          filename := some path
          md5_after := setHash md5 none
          sha1_after := setHash sha1 none
          sha256_after := setHash sha256 none } := by
  have hassoc : front ++ path ++ after ++ rest = front ++ (path ++ (after ++ rest)) := by
    rw [append_assoc, append_assoc]
  have htrojan : strncmpEq 26 (front ++ path ++ after ++ rest)
      (lit "Trojaned version of file '") = false := by
    rw [hassoc]
    exact hfront.not_trojan _
  have hknown := hfront.known (path ++ (after ++ rest))
  have hfile : (((front ++ path ++ after ++ rest).take (front ++ path).length).drop
      front.length) = path := by
    rw [append_assoc (front ++ path), take_left, drop_left]
  have hlt : front.length < (front ++ path).length := by
    have hpos := length_pos_iff.mpr hpath
    rw [length_append]
    omega
  rw [rkExtractHashes]
  dsimp only
  rw [htrojan, Bool.not_false, Bool.true_and, hassoc, hknown, ← hassoc,
    rkPath_eq hfront.file hafter hpath hlen hhashes, if_neg Bool.false_ne_true]
  dsimp only
  rw [if_pos hlt, hfile]

end Path

/-- A message with the hashes behind it is read as what was reported. -/
theorem rkExtractHashes_hashText {front path after : Bytes} (hfront : Opens front)
    (hafter : after ∈ afterPath) (hpath : path ≠ []) (sums : Option Digests)
    (hfits : (front ++ path ++ after ++ hashText sums).length ≤ OS_SIZE_2048) :
    rkExtractHashes { log := front ++ path ++ after ++ hashText sums } =
      reported (front ++ path ++ after ++ hashText sums) path sums := by
  have hhashes := hashes_eq (front ++ path ++ after) sums
  rw [rkExtractHashes_eq hfront hafter hpath, hhashes]
  · dsimp only
    rw [setHash_elim (by decide) (fun d => length_md5Text d),
      setHash_elim (by decide) (fun d => length_sha1Text d),
      setHash_elim (by decide) (fun d => length_sha256Text d)]
    rfl
  · simp only [length_append, OS_SIZE_2048] at hfits ⊢
    omega
  · rw [hhashes]
    show ptrDiff (hashText sums) _ = _
    rw [ptrDiff, length_append, Nat.add_sub_cancel]

/-- **Reports about files**: a rootkit's message and an anomaly's message, with the hashes behind
them, are read as exactly that path and those hashes, whatever the path looks like. The message
about a hidden file has no hashes, and none are read from it. -/
theorem report_law (file_max_size : ℕ) (file : File) (path : Bytes) (hpath : path ≠ []) :
    (∀ buf file_rc name, rcLine buf = some (file_rc, name) →
      (rootkitText name path ++ hashText (file.sums file_max_size)).length ≤ OS_SIZE_2048 →
      rkExtractHashes { log := rootkitMsg file_max_size file name path } =
        reported (rootkitMsg file_max_size file name path) path (file.sums file_max_size)) ∧
    ((sizeText path ++ hashText (file.sums file_max_size)).length ≤ OS_SIZE_2048 →
      rkExtractHashes { log := sizeMsg file_max_size file path } =
        reported (sizeMsg file_max_size file path) path (file.sums file_max_size)) ∧
    ((hiddenText path).length < OS_SIZE_1024 →
      rkExtractHashes { log := hiddenMsg path } = reported (hiddenMsg path) path none) := by
  refine ⟨fun buf file_rc name hline hfits => ?_, fun hfits => ?_, fun hfits => ?_⟩
  · rw [rootkitMsg, withHash_eq hfits]
    exact rkExtractHashes_hashText (opens_rootkit (notMem_name hline)) mem_cons_self hpath _
      hfits
  · rw [sizeMsg, withHash_eq hfits]
    exact rkExtractHashes_hashText opens_anomaly (mem_cons_of_mem _ mem_cons_self) hpath _
      hfits
  · have hnone : rkHashes (hiddenText path ++ []) = none := by
      have hdot : hiddenText path = lit "Anomaly detected in file '" ++ path ++ lit
          "'. Hidden from stats, but showing up on readdir. Possible kernel level rootkit" ++
          lit "." := by
        rw [append_assoc _ _ (lit ".")]
        rfl
      rw [append_nil, hdot]
      exact hashes_eq_none _
    have hafter :
        lit "'. Hidden from stats, but showing up on readdir. Possible kernel level rootkit."
          ∈ afterPath := by decide
    have heq := @rkExtractHashes_eq _ _ _ [] opens_anomaly hafter hpath ?_ ?_
    · rw [← hiddenText, hnone, append_nil] at heq
      rw [hiddenMsg_eq hfits, heq]
      rfl
    · simp only [hiddenText, length_append, OS_SIZE_1024] at hfits ⊢
      omega
    · rw [← hiddenText, hnone, append_nil]
      rfl

/-- A path with quotes and with what looks like hashes in it. -/
theorem report_law_quoted :
    rkExtractHashes
        { log := rootkitMsg 0 ⟨none, none⟩ (lit "Adore") (lit "/x'. MD5=n/a file 'y") } =
      reported (rootkitMsg 0 ⟨none, none⟩ (lit "Adore") (lit "/x'. MD5=n/a file 'y"))
        (lit "/x'. MD5=n/a file 'y") none := by
  have hline : rcLine (lit "dev/.x ! Adore Rootkit ::/rootkits/adore.php\n") =
      some (lit "dev/.x", lit "Adore") := by decide
  exact (report_law 0 ⟨none, none⟩ (lit "/x'. MD5=n/a file 'y") (by decide)).1 _ _ _ hline
    (by decide)

end Rootcheck
