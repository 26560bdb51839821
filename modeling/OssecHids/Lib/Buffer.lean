import Mathlib.Data.List.Induction
import OssecHids.Lib.CString

/-!
# Offsets into a buffer

Reading and writing in an array of bytes at offsets. What goes beyond the array gives no result. A
buffer at an offset is `x ++ (s ++ [0])`, with the offset `x.length` and the string `s` at it.

- `read`, `write`, `test`, `skip`, `back`, `stringAt`, `chrAt`, `strAt`: what C code does with a
  pointer into an array;
- `test_append`, `skip_append`, `stringAt_append`: the same in terms of the string at the offset.
-/

open CString List Option

namespace Buffer

/-- `*p` -/
def read (buf : Bytes) (p : ℕ) : Option UInt8 := buf[p]?

/-- `*p = b` -/
def write (buf : Bytes) (p : ℕ) (b : UInt8) : Option Bytes :=
  if p < buf.length then some (buf.set p b) else none

def testLoop : List (UInt8 → Bool) → Bytes → Option Bool
  | [], _ => some true
  | _ :: _, [] => none
  | f :: tests, b :: rest => if f b then testLoop tests rest else some false

/-- `f(p[0]) && g(p[1]) && ...`; what is behind a test that fails is not read. -/
def test (tests : List (UInt8 → Bool)) (buf : Bytes) (p : ℕ) : Option Bool :=
  testLoop tests (buf.drop p)

/-- The tests for a text. -/
def text (t : Bytes) : List (UInt8 → Bool) := t.map fun c b => b == c

def skipLoop (f : UInt8 → Bool) : Bytes → ℕ → Option ℕ
  | [], _ => none
  | b :: rest, p => if f b then skipLoop f rest (p + 1) else some p

/-- `while (f(*p)) p++;` -/
def skip (f : UInt8 → Bool) (buf : Bytes) (p : ℕ) : Option ℕ := skipLoop f (buf.drop p) p

/-- `while (f(*p)) p--;` -/
def back (f : UInt8 → Bool) (buf : Bytes) : ℕ → Option ℕ
  | 0 => (read buf 0).bind fun b => if f b then none else some 0
  | p + 1 => (read buf (p + 1)).bind fun b => if f b then back f buf p else some (p + 1)

/-- The string at an offset. -/
def stringAt (buf : Bytes) (p : ℕ) : Option Bytes :=
  if 0 ∈ buf.drop p then some (str (buf.drop p)) else none

/-- `strchr(p, c)`; the inner result is the null pointer or an offset. -/
def chrAt (buf : Bytes) (p : ℕ) (c : UInt8) : Option (Option ℕ) :=
  (stringAt buf p).map fun s => (strchr c s).map fun r => p + ptrDiff r s

/-- `strstr(p, t)` -/
def strAt (buf : Bytes) (p : ℕ) (t : Bytes) : Option (Option ℕ) :=
  (stringAt buf p).map fun s => (strstr t s).map fun r => p + ptrDiff r s

/-- What the tests say of a string. -/
def starts : List (UInt8 → Bool) → Bytes → Bool
  | [], _ => true
  | _ :: _, [] => false
  | f :: tests, b :: rest => f b && starts tests rest

/-! ## The last string of a buffer -/

/-- The string at an offset ends the buffer. -/
structure At (buf : Bytes) (p : ℕ) (s : Bytes) : Prop where
  drop_eq : buf.drop p = s ++ [0]
  ne_zero : ∀ b ∈ s, b ≠ 0

variable {f : UInt8 → Bool} {tests : List (UInt8 → Bool)} {buf buf' s t u : Bytes} {b c : UInt8}
  {p q : ℕ}

theorem starts_text : starts (text t) s = t.isPrefixOf s := by
  induction t generalizing s with
  | nil => cases s <;> rfl
  | cons c t ih =>
    cases s with
    | nil => rfl
    | cons b s =>
      have hcomm : (b == c) = (c == b) := Bool.beq_comm
      rw [text, map_cons, starts, isPrefixOf_cons_cons, hcomm]
      exact congrArg _ ih

theorem length_le_of_starts (h : starts tests s = true) : tests.length ≤ s.length := by
  induction tests generalizing s with
  | nil => exact Nat.zero_le _
  | cons f tests ih =>
    cases s with
    | nil => exact nomatch h
    | cons b s =>
      rw [starts, Bool.and_eq_true] at h
      exact Nat.succ_le_succ (ih h.2)

theorem skipLoop_append (hf : f 0 = false) :
    skipLoop f (s ++ [0]) p = some (p + (s.takeWhile f).length) := by
  induction s generalizing p with
  | nil =>
    rw [nil_append, skipLoop, hf]
    rfl
  | cons b s ih =>
    rw [cons_append, skipLoop, takeWhile_cons]
    cases hb : f b with
    | true =>
      rw [if_pos rfl, if_pos rfl, ih, length_cons]
      congr 1
      omega
    | false => rfl

theorem back_eq (hb : read buf q = some b) (hstop : f b = false) (hle : q ≤ p)
    (hgo : ∀ i, q < i → i ≤ p → ∃ c, read buf i = some c ∧ f c = true) : back f buf p = some q := by
  induction p with
  | zero =>
    obtain rfl := Nat.le_zero.mp hle
    rw [back, hb, bind_some, hstop]
    rfl
  | succ p ih =>
    rcases lt_or_eq_of_le hle with hlt | rfl
    · obtain ⟨c, hc, hfc⟩ := hgo (p + 1) hlt le_rfl
      rw [back, hc, bind_some, hfc]
      exact ih (Nat.lt_succ_iff.mp hlt) fun i hi hip => hgo i hi (hip.trans (Nat.le_succ p))
    · rw [back, hb, bind_some, hstop]
      rfl

namespace At

theorem append (h : At buf p (t ++ s)) : At buf (p + t.length) s where
  drop_eq := by rw [← drop_drop, h.drop_eq, append_assoc, drop_left]
  ne_zero b hb := h.ne_zero b (mem_append_right _ hb)

theorem drop (h : At buf p s) {n : ℕ} (hn : n ≤ s.length) : At buf (p + n) (s.drop n) := by
  have hsplit : At buf p (s.take n ++ s.drop n) := by rwa [take_append_drop]
  have h := hsplit.append
  rwa [length_take_of_le hn] at h

theorem tail (h : At buf p (b :: s)) : At buf (p + 1) s :=
  append (t := [b]) h

theorem length_eq (h : At buf p s) : buf.length = p + s.length + 1 := by
  have hlen := congrArg List.length h.drop_eq
  rw [length_drop, length_append, length_singleton] at hlen
  omega

theorem stringAt (h : At buf p s) : stringAt buf p = some s := by
  have hmem : (0 : UInt8) ∈ s ++ [0] := mem_append_right _ mem_cons_self
  rw [Buffer.stringAt, h.drop_eq, if_pos hmem, str_append_zero h.ne_zero]

/-- The tests that no terminator passes read nothing behind it. -/
theorem test (h : At buf p s) (htests : tests.any (fun f => f 0) = false) :
    test tests buf p = some (starts tests s) := by
  obtain ⟨hdrop, -⟩ := h
  rw [Buffer.test, hdrop]
  clear hdrop
  induction tests generalizing s with
  | nil => rfl
  | cons f tests ih =>
    rw [any_cons, Bool.or_eq_false_iff] at htests
    obtain ⟨hf, htests⟩ := htests
    cases s with
    | nil =>
      rw [nil_append, testLoop, hf]
      rfl
    | cons b s =>
      rw [cons_append, testLoop, starts, ih htests]
      cases f b <;> rfl

theorem test_text (h : At buf p s) (ht : ∀ b ∈ t, b ≠ 0) :
    Buffer.test (text t) buf p = some (t.isPrefixOf s) := by
  rw [h.test, starts_text]
  rw [List.any_eq_false]
  intro f hf
  obtain ⟨c, hc, rfl⟩ := mem_map.mp hf
  exact beq_iff_eq.not.mpr (ht c hc).symm

/-- The loop stops behind the bytes of the string that satisfy its condition. -/
theorem skip (h : At buf p s) (hf : f 0 = false) :
    skip f buf p = some (p + (s.takeWhile f).length) := by
  rw [Buffer.skip, h.drop_eq, skipLoop_append hf]

theorem dropWhile (h : At buf p s) : At buf (p + (s.takeWhile f).length) (s.dropWhile f) := by
  apply append
  rwa [takeWhile_append_dropWhile]

theorem chrAt (h : At buf p s) :
    chrAt buf p c = some ((strchr c s).map fun r => p + ptrDiff r s) := by
  rw [Buffer.chrAt, h.stringAt, map_some]

theorem strAt (h : At buf p s) :
    strAt buf p t = some ((strstr t s).map fun r => p + ptrDiff r s) := by
  rw [Buffer.strAt, h.stringAt, map_some]

theorem write (h : At buf p s) : write buf p c = some (buf.set p c) := by
  rw [Buffer.write, if_pos]
  have hlen := h.length_eq
  omega

theorem set (h : At buf q s) (hlt : p < q) : At (buf.set p c) q s where
  drop_eq := by rw [drop_set_of_lt hlt, h.drop_eq]
  ne_zero := h.ne_zero

theorem stringAt_set (h : At buf p (t ++ b :: s)) :
    Buffer.stringAt (buf.set (p + t.length) 0) p = some t := by
  have hdrop : (buf.set (p + t.length) 0).drop p = t ++ 0 :: (s ++ [0]) := by
    rw [drop_set, if_neg (by omega), h.drop_eq, append_assoc, Nat.add_sub_cancel_left,
      set_append_right _ _ (Nat.le_refl _), Nat.sub_self]
    rfl
  have hmem : (0 : UInt8) ∈ t ++ 0 :: (s ++ [0]) := mem_append_right _ mem_cons_self
  rw [Buffer.stringAt, hdrop, if_pos hmem,
    str_append_zero fun b hb => h.ne_zero b (mem_append_left _ hb)]

theorem stringAt_set_take (h : At buf p s) (hle : p ≤ q) (hlt : q < p + s.length) :
    Buffer.stringAt (buf.set q 0) p = some (s.take (q - p)) := by
  have hlen : (s.take (q - p)).length = q - p := length_take_of_le (by omega)
  obtain ⟨b, rest, hrest⟩ : ∃ b rest, s.drop (q - p) = b :: rest :=
    exists_cons_of_ne_nil (by rw [ne_eq, drop_eq_nil_iff]; omega)
  have hsplit : At buf p (s.take (q - p) ++ b :: rest) := by
    rwa [← hrest, take_append_drop]
  have hcut := hsplit.stringAt_set
  rwa [hlen, Nat.add_sub_cancel' hle] at hcut

end At

theorem stringAt_eq_some_iff :
    stringAt buf p = some s ↔ (∃ r, buf.drop p = s ++ 0 :: r) ∧ ∀ b ∈ s, b ≠ 0 := by
  constructor
  · intro h
    rw [stringAt] at h
    split_ifs at h with hmem
    cases h
    refine ⟨?_, fun b hb => by simpa using mem_takeWhile_imp hb⟩
    -- behind the bytes that are no terminator there is one
    have hrest : (buf.drop p).dropWhile (· != 0) ≠ [] := by
      intro hnil
      simpa using dropWhile_eq_nil_iff.mp hnil 0 hmem
    obtain ⟨c, r, hcons⟩ := exists_cons_of_ne_nil hrest
    have hc : c = 0 := by
      have hhead := head_dropWhile_not (· != 0) hrest
      simpa [hcons] using hhead
    refine ⟨r, ?_⟩
    rw [← hc, ← hcons]
    exact (takeWhile_append_dropWhile).symm
  · rintro ⟨⟨r, hdrop⟩, hs⟩
    have hmem : (0 : UInt8) ∈ s ++ 0 :: r := mem_append_right _ mem_cons_self
    rw [stringAt, hdrop, if_pos hmem, str_append_zero hs]

theorem stringAt_of_take {n : ℕ} (hs : stringAt buf p = some s) (hn : p + s.length < n)
    (htake : buf'.take n = buf.take n) : stringAt buf' p = some s := by
  obtain ⟨⟨r, hdrop⟩, hzero⟩ := stringAt_eq_some_iff.mp hs
  refine stringAt_eq_some_iff.mpr ⟨⟨?_, ?_⟩, hzero⟩
  · exact r.take (n - p - s.length - 1) ++ (buf'.drop p).drop (n - p)
  · have hfront : (buf'.drop p).take (n - p) = s ++ 0 :: r.take (n - p - s.length - 1) := by
      obtain ⟨k, hk⟩ : ∃ k, n - p = s.length + (k + 1) := ⟨n - p - s.length - 1, by omega⟩
      have hk' : n - p - s.length - 1 = k := by omega
      rw [← drop_take, htake, drop_take, hdrop, hk', hk, take_append,
        take_of_length_le (by omega), Nat.add_sub_cancel_left, take_succ_cons]
    rw [← cons_append, ← append_assoc, ← hfront, take_append_drop]

end Buffer
