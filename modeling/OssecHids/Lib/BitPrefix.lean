import Mathlib.Data.List.GetD
import Mathlib.Tactic.Linarith

/-!
# Common prefixes of bit strings

Byte arrays are compared up to a number of bits by comparing the whole bytes and then the high bits
of the byte behind them. The bits of an array are counted from the high bit of its first byte, and
the array goes on with zero bytes.

- `agreeOn_iff_bytes`: the whole bytes and the masked byte decide about the bits;
- `bit_bytes`: the bits of a number that is written high byte first.
-/

open List

namespace BitPrefix

/-- The two bit strings have the first `k` bits in common. -/
def AgreeOn (k : ℕ) (a b : ℕ → Bool) : Prop := ∀ i < k, a i = b i

instance (k : ℕ) (a b : ℕ → Bool) : Decidable (AgreeOn k a b) :=
  inferInstanceAs (Decidable (∀ i < k, a i = b i))

/-- Bit `i` of an array. -/
def bit (s : List UInt8) (i : ℕ) : Bool := (s.getD (i / 8) 0).toBitVec.getMsbD (i % 8)

/-- The mask of the `r` high bits of a byte. -/
def mask (r : ℕ) : UInt8 := 0xff <<< (8 - UInt8.ofNat r)

/-- The bytes of a number, the high one first. -/
def bytes (n : ℕ) (v : BitVec (8 * n)) : List UInt8 :=
  (List.range n).map fun i => ⟨v.extractLsb' (8 * (n - 1 - i)) 8⟩

section AgreeOn

variable {k l : ℕ} {a b : ℕ → Bool}

theorem AgreeOn.mono (h : AgreeOn l a b) (hkl : k ≤ l) : AgreeOn k a b := fun i hi =>
  h i (lt_of_lt_of_le hi hkl)

theorem agreeOn_add :
    AgreeOn (k + l) a b ↔ AgreeOn k a b ∧ AgreeOn l (fun i => a (k + i)) fun i => b (k + i) := by
  constructor
  · exact fun h => ⟨h.mono (Nat.le_add_right k l), fun i hi => h (k + i) (by omega)⟩
  · rintro ⟨hlow, hhigh⟩ i hi
    by_cases hik : i < k
    · exact hlow i hik
    · have hback : k + (i - k) = i := by omega
      rw [← hback]
      exact hhigh (i - k) (by omega)

theorem agreeOn_min (ha : ∀ i, l ≤ i → a i = false) (hb : ∀ i, l ≤ i → b i = false) :
    AgreeOn k a b ↔ AgreeOn (min k l) a b := by
  constructor
  · exact fun h => h.mono (min_le_left k l)
  · intro h i hi
    by_cases hil : i < l
    · exact h i (by omega)
    · rw [ha i (by omega), hb i (by omega)]

end AgreeOn

section Bytes

variable {s t : List UInt8} {p : ℕ}

theorem getMsbD_mask {r : ℕ} (hr : r < 8) (hpos : 0 < r) (i : ℕ) :
    (mask r).toBitVec.getMsbD i = decide (i < r) := by
  have hall : ∀ r < 8, 0 < r → ∀ i < 8, (mask r).toBitVec.getMsbD i = decide (i < r) := by decide
  by_cases hi : i < 8
  · exact hall r hr hpos i hi
  · rw [BitVec.getMsbD_of_ge _ _ (by omega), eq_comm, decide_eq_false_iff_not]
    omega

theorem and_mask_eq_iff {r : ℕ} (hr : r < 8) (hpos : 0 < r) (x y : UInt8) :
    x &&& mask r = y &&& mask r ↔ AgreeOn r x.toBitVec.getMsbD y.toBitVec.getMsbD := by
  rw [← UInt8.toBitVec_inj, UInt8.toBitVec_and, UInt8.toBitVec_and]
  constructor
  · intro h i hi
    have hbit := congrArg (fun v => v.getMsbD i) h
    simpa [getMsbD_mask hr hpos, hi] using hbit
  · intro h
    apply BitVec.eq_of_getMsbD_eq
    intro i _
    rw [BitVec.getMsbD_and, BitVec.getMsbD_and, getMsbD_mask hr hpos]
    by_cases hi : i < r
    · rw [h i hi]
    · simp [hi]

theorem byte_eq_iff (x y : UInt8) :
    x = y ↔ AgreeOn 8 x.toBitVec.getMsbD y.toBitVec.getMsbD := by
  rw [← UInt8.toBitVec_inj]
  exact ⟨fun h i _ => by rw [h], fun h => BitVec.eq_of_getMsbD_eq fun i hi => h i hi⟩

theorem bit_mul_add {q i : ℕ} (hi : i < 8) :
    bit s (8 * q + i) = (s.getD q 0).toBitVec.getMsbD i := by
  have hdiv : (8 * q + i) / 8 = q := by omega
  have hmod : (8 * q + i) % 8 = i := by omega
  rw [bit, hdiv, hmod]

theorem agreeOn_iff_whole_bytes (q : ℕ) :
    AgreeOn (8 * q) (bit s) (bit t) ↔ ∀ i < q, s.getD i 0 = t.getD i 0 := by
  induction q with
  | zero =>
    constructor <;>
      exact fun _ i hi => absurd hi (Nat.not_lt_zero i)
  | succ q ih =>
    have hlast : AgreeOn 8 (fun i => bit s (8 * q + i)) (fun i => bit t (8 * q + i)) ↔
        s.getD q 0 = t.getD q 0 := by
      rw [byte_eq_iff]
      apply forall_congr'
      intro i
      apply forall_congr'
      intro hi
      show bit s _ = bit t _ ↔ _
      rw [bit_mul_add hi, bit_mul_add hi]
    rw [Nat.mul_succ, agreeOn_add, ih, hlast, Nat.forall_lt_succ_right]

/-- The bits are compared by comparing the whole bytes, and the high bits of the next one. -/
theorem agreeOn_iff_bytes (p : ℕ) :
    AgreeOn p (bit s) (bit t) ↔
      (∀ i < p / 8, s.getD i 0 = t.getD i 0) ∧
      (p % 8 ≠ 0 → s.getD (p / 8) 0 &&& mask (p % 8) = t.getD (p / 8) 0 &&& mask (p % 8)) := by
  have hp : p = 8 * (p / 8) + p % 8 := (Nat.div_add_mod p 8).symm
  have hlast : AgreeOn (p % 8) (fun i => bit s (8 * (p / 8) + i))
      (fun i => bit t (8 * (p / 8) + i)) ↔
      (p % 8 ≠ 0 → s.getD (p / 8) 0 &&& mask (p % 8) = t.getD (p / 8) 0 &&& mask (p % 8)) := by
    have hmod : p % 8 < 8 := Nat.mod_lt p (by decide)
    by_cases hzero : p % 8 = 0
    · rw [hzero]
      exact ⟨fun _ h => absurd rfl h, fun _ i hi => absurd hi (Nat.not_lt_zero i)⟩
    · rw [and_mask_eq_iff hmod (Nat.pos_of_ne_zero hzero)]
      constructor
      · intro h _ i hi
        have hbit : bit s (8 * (p / 8) + i) = bit t (8 * (p / 8) + i) := h i hi
        rwa [bit_mul_add (by omega), bit_mul_add (by omega)] at hbit
      · intro h i hi
        show bit s _ = bit t _
        rw [bit_mul_add (by omega), bit_mul_add (by omega)]
        exact h hzero i hi
  conv_lhs => rw [hp]
  rw [agreeOn_add, agreeOn_iff_whole_bytes, hlast]

theorem bit_drop (n i : ℕ) : bit (s.drop n) i = bit s (8 * n + i) := by
  have hdiv : (8 * n + i) / 8 = n + i / 8 := by omega
  have hmod : (8 * n + i) % 8 = i % 8 := by omega
  rw [bit, bit, hdiv, hmod]
  simp only [getD_eq_getElem?_getD, getElem?_drop]

theorem bit_append_zeros (n i : ℕ) : bit (s ++ List.replicate n 0) i = bit s i := by
  have hbyte : (s ++ List.replicate n 0).getD (i / 8) 0 = s.getD (i / 8) 0 := by
    simp only [getD_eq_getElem?_getD]
    by_cases hi : i / 8 < s.length
    · rw [getElem?_append_left hi]
    · rw [getElem?_append_right (by omega), getElem?_eq_none (by omega : s.length ≤ i / 8)]
      rw [getElem?_replicate]
      split_ifs <;> rfl
  rw [bit, bit, hbyte]

@[simp]
theorem length_bytes (n : ℕ) (v : BitVec (8 * n)) : (bytes n v).length = n := by
  rw [bytes, length_map, length_range]

/-- The bits of the number are those of its bytes. -/
theorem bit_bytes (n : ℕ) (v : BitVec (8 * n)) (i : ℕ) : bit (bytes n v) i = v.getMsbD i := by
  rw [bit, getD_eq_getElem?_getD]
  by_cases hi : i < 8 * n
  · have hbyte : i / 8 < n := by omega
    have hget : (bytes n v)[i / 8]? = some ⟨v.extractLsb' (8 * (n - 1 - i / 8)) 8⟩ := by
      rw [bytes, getElem?_map, getElem?_range hbyte]
      rfl
    rw [hget]
    have hmod : i % 8 < 8 := Nat.mod_lt i (by decide)
    have hpos : 8 * (n - 1 - i / 8) + (8 - 1 - i % 8) = 8 * n - 1 - i := by omega
    rw [BitVec.getMsbD_eq_getLsbD, BitVec.getMsbD_eq_getLsbD]
    simp [hmod, hi, BitVec.getLsbD_extractLsb', hpos]
    omega
  · have hnone : (bytes n v)[i / 8]? = none := by
      rw [List.getElem?_eq_none_iff, length_bytes]
      omega
    rw [hnone, BitVec.getMsbD_of_ge v i (by omega)]
    exact BitVec.getMsbD_zero

end Bytes

end BitPrefix
