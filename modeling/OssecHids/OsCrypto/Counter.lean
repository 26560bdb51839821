import OssecHids.Lib.CString
import Mathlib.Data.Prod.Lex

/-!
# Message counters

The pair (global, local) that every secure message carries, its lexicographic order, and its
text in the files of `RIDS_DIR`: written with `"%u:%u:"`, read back with `"%u:%u"`.

- `scanCounter_storeText`: a stored pair is read back, whatever a longer text left behind it;
- `lt_iff`: the order of the pairs is the test of `ReadSecMSG`.
-/

open CString

/-- A pair of message counters. -/
structure Counter where
  /-- `global` -/
  glob : UInt32
  /-- `local` -/
  loc : UInt32
  deriving DecidableEq

namespace Counter

/-- The pair before any message. -/
def zero : Counter := { glob := 0, loc := 0 }

/-- The position of a pair in the lexicographic order. -/
def key (c : Counter) : ℕ ×ₗ ℕ := toLex (c.glob.toNat, c.loc.toNat)

theorem key_injective : Function.Injective key := by
  rintro ⟨g, l⟩ ⟨g', l'⟩ h
  simp only [key, EmbeddingLike.apply_eq_iff_eq, Prod.mk.injEq, UInt32.toNat_inj] at h
  rw [h.1, h.2]

/-- Lexicographic order. -/
instance : LinearOrder Counter := LinearOrder.lift' key key_injective

theorem lt_def (c d : Counter) : c < d ↔ key c < key d := Iff.rfl

/-- The test with which `ReadSecMSG` compares a pair with the stored one. -/
theorem lt_iff (c d : Counter) :
    c < d ↔ d.glob > c.glob ∨ (d.glob = c.glob ∧ d.loc > c.loc) := by
  simp only [lt_def, key, Prod.Lex.toLex_lt_toLex, gt_iff_lt, UInt32.lt_iff_toNat_lt,
    UInt32.toNat_inj]
  tauto

/-! ## The text of a stored pair -/

/-- What `StoreCounter` and `store_sender_counter` print: `"%u:%u:"`. -/
def storeText (c : Counter) : Bytes :=
  fmtU c.glob.toNat ++ chr ':' :: (fmtU c.loc.toNat ++ [chr ':'])

/-- What `fscanf(fp, "%u:%u", ..)` reads; `none` when it does not assign both numbers. -/
def scanCounter (text : Bytes) : Option Counter :=
  (scanU text).bind fun (g, rest) =>
    if rest.headD 0 = chr ':' then
      (scanU rest.tail).map fun (l, _) => { glob := g, loc := l }
    else none

@[simp]
theorem scanCounter_nil : scanCounter [] = none := rfl

theorem scanCounter_storeText (c : Counter) (rest : Bytes) :
    scanCounter (c.storeText ++ rest) = some c := by
  have hsplit : c.storeText ++ rest =
      fmtU c.glob.toNat ++ chr ':' :: (fmtU c.loc.toNat ++ chr ':' :: rest) := by
    simp [storeText]
  have hglob : scanU (fmtU c.glob.toNat ++ chr ':' :: (fmtU c.loc.toNat ++ chr ':' :: rest)) =
      some (c.glob, chr ':' :: (fmtU c.loc.toNat ++ chr ':' :: rest)) :=
    scanU_fmtU c.glob rfl
  have hloc : scanU (fmtU c.loc.toNat ++ chr ':' :: rest) = some (c.loc, chr ':' :: rest) :=
    scanU_fmtU c.loc rfl
  rw [hsplit, scanCounter, hglob]
  simp [hloc]

/-- Rewriting the start of a file with a pair makes the file read as that pair, also when the
text before was longer. -/
@[simp]
theorem scanCounter_overwrite (c : Counter) (old : Bytes) :
    scanCounter (overwrite c.storeText old) = some c :=
  scanCounter_storeText c _

end Counter
