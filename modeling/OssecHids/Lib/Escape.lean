import Mathlib.Data.List.DropRight

/-!
# Escaped text

A letter that means something to a reader is written with an escape letter in front of it. When
some letters are then dropped from the text, an escape letter can be left without its letter, and
stands in front of another one.

- `Protected`: a text in which a reader that knows the escape letter finds no separator;
- `unescape_residue_iff`: the text that comes back when letters have been dropped;
- `settles_iff`: when that is so, without an automaton;
- `Protected.odd_run`: how many escape letters stand in front of a separator.
-/

open List

namespace Escape

variable {α : Type*}

/-- A text in which an escape letter stands before every `c`, and before something. -/
inductive Protected (e c : α) : List α → Prop
  | nil : Protected e c []
  | plain {b : α} {s : List α} : b ≠ e → b ≠ c → Protected e c s → Protected e c (b :: s)
  | escaped {b : α} {s : List α} : Protected e c s → Protected e c (e :: b :: s)

theorem Protected.of_notMem {e c : α} {s : List α} (he : e ∉ s) (hc : c ∉ s) : Protected e c s := by
  induction s with
  | nil => exact .nil
  | cons b s ih =>
    rw [mem_cons, not_or] at he hc
    exact .plain (Ne.symm he.1) (Ne.symm hc.1) (ih he.2 hc.2)

/-- The escape letter in front of every letter that is to be escaped. -/
def escape (e : α) (esc : α → Bool) (s : List α) : List α :=
  s.flatMap fun c => if esc c then [e, c] else [c]

/-- What is left of an escaped text, behind an escape letter if one has been left before. -/
def residue (e : α) (esc drop : α → Bool) (dangling : Bool) (s : List α) : List α :=
  (if dangling then [e] else []) ++ (escape e esc s).filter fun c => !drop c

/-- Whether no escape letter is left over, when one has been left by the letters before. -/
def Settles (e : α) (esc drop : α → Bool) : Bool → List α → Prop
  | dangling, [] => dangling = false
  | dangling, c :: s =>
    if esc c then
      if drop c then dangling = false ∧ Settles e esc drop true s
      else if dangling then c = e ∧ Settles e esc drop true s
      else Settles e esc drop false s
    else if drop c then Settles e esc drop dangling s
    else Settles e esc drop false s

variable {e : α} {esc drop : α → Bool} {dangling : Bool} {s : List α} {b c : α}

theorem residue_nil (dangling : Bool) :
    residue e esc drop dangling [] = if dangling then [e] else [] := append_nil _

theorem residue_true (s : List α) :
    residue e esc drop true s = e :: residue e esc drop false s := rfl

theorem residue_false_cons (he : drop e = false) (c : α) (s : List α) :
    residue e esc drop false (c :: s) =
      (if esc c then [e] else []) ++ (if drop c then [] else [c]) ++ residue e esc drop false s := by
  rw [residue, residue, escape, escape, flatMap_cons]
  by_cases hesc : esc c = true <;> by_cases hdrop : drop c = true <;> simp [hesc, hdrop, he]

/-- A text that comes back has every separator protected. -/
theorem protected_residue (hesc : esc e = true) (he : drop e = false) (hc : esc c = true)
    (h : Settles e esc drop dangling s) : Protected e c (residue e esc drop dangling s) := by
  induction s generalizing dangling with
  | nil =>
    rw [residue_nil, if_neg (by rw [show dangling = false from h]; exact Bool.false_ne_true)]
    exact .nil
  | cons b s ih =>
    rw [Settles] at h
    by_cases hb : esc b = true <;> by_cases hdrop : drop b = true
    · obtain ⟨hdangling, h'⟩ : dangling = false ∧ Settles e esc drop true s := by
        simpa [hb, hdrop] using h
      rw [hdangling, residue_false_cons he]
      simpa [hb, hdrop, residue_true] using ih h'
    · cases dangling with
      | false =>
        have h' : Settles e esc drop false s := by simpa [hb, hdrop] using h
        rw [residue_false_cons he]
        simpa [hb, hdrop] using Protected.escaped (ih h')
      | true =>
        obtain ⟨hbe, h'⟩ : b = e ∧ Settles e esc drop true s := by simpa [hb, hdrop] using h
        rw [residue_true, residue_false_cons he]
        simpa [hb, hdrop, hbe, hesc, he, residue_true] using Protected.escaped (ih h')
    · have h' : Settles e esc drop dangling s := by simpa [hb, hdrop] using h
      cases dangling with
      | false =>
        rw [residue_false_cons he]
        simpa [hb, hdrop] using ih h'
      | true =>
        rw [residue_true, residue_false_cons he]
        simpa [hb, hdrop, residue_true] using ih h'
    · have h' : Settles e esc drop false s := by simpa [hb, hdrop] using h
      have hne : b ≠ e := fun heq => hb (heq ▸ hesc)
      have hbc : b ≠ c := fun heq => hb (heq ▸ hc)
      cases dangling with
      | false =>
        rw [residue_false_cons he]
        simpa [hb, hdrop] using Protected.plain hne hbc (ih h')
      | true =>
        rw [residue_true, residue_false_cons he]
        simpa [hb, hdrop] using Protected.escaped (ih h')

variable [DecidableEq α]

/-- The text that is meant; an escape letter at the end means itself. -/
def unescape (e : α) : List α → List α
  | [] => []
  | [b] => [b]
  | b :: c :: s => if b = e then c :: unescape e s else b :: unescape e (c :: s)

theorem unescape_cons_of_ne (hb : b ≠ e) (s : List α) :
    unescape e (b :: s) = b :: unescape e s := by
  cases s with
  | nil => rfl
  | cons c s => exact if_neg hb

theorem unescape_cons_cons (e c : α) (s : List α) :
    unescape e (e :: c :: s) = c :: unescape e s := if_pos rfl

/-- The text comes back when no escape letter is left over, and more than the text when one is. -/
theorem residue_spec (hesc : esc e = true) (he : drop e = false) (dangling : Bool) (s : List α) :
    (Settles e esc drop dangling s →
      unescape e (residue e esc drop dangling s) = s.filter fun c => !drop c) ∧
    (¬Settles e esc drop dangling s → (s.filter fun c => !drop c).length <
      (unescape e (residue e esc drop dangling s)).length) := by
  induction s generalizing dangling with
  | nil => cases dangling <;> simp [Settles, residue_nil, unescape]
  | cons c s ih =>
    -- in any case at least the letters that are not dropped are there
    have hle : ∀ dangling, (s.filter fun c => !drop c).length ≤
        (unescape e (residue e esc drop dangling s)).length := fun dangling => by
      by_cases hsettles : Settles e esc drop dangling s
      · rw [(ih dangling).1 hsettles]
      · exact ((ih dangling).2 hsettles).le
    by_cases hc : esc c = true <;> by_cases hdrop : drop c = true
    · cases dangling with
      | false =>
        rw [residue_false_cons he, Settles]
        simpa [hc, hdrop, residue_true] using ih true
      | true =>
        have hlength := hle false
        rw [residue_true, residue_false_cons he, Settles]
        simp only [hc, hdrop, if_true, append_nil, singleton_append, unescape_cons_cons]
        simp [hdrop]
        omega
    · cases dangling with
      | false =>
        rw [residue_false_cons he, Settles]
        simpa [hc, hdrop, unescape_cons_cons] using ih false
      | true =>
        rw [residue_true, residue_false_cons he, Settles]
        by_cases hce : c = e
        · subst hce
          simpa [hc, hdrop, unescape_cons_cons, residue_true] using ih true
        · have hlength := hle false
          simp [hc, hdrop, hce, unescape_cons_cons, unescape_cons_of_ne hce]
          omega
    · cases dangling with
      | false =>
        rw [residue_false_cons he, Settles]
        simpa [hc, hdrop] using ih false
      | true =>
        rw [residue_true, residue_false_cons he, Settles]
        simpa [hc, hdrop, residue_true] using ih true
    · have hne : c ≠ e := fun heq => hc (heq ▸ hesc)
      cases dangling with
      | false =>
        rw [residue_false_cons he, Settles]
        simpa [hc, hdrop, unescape_cons_of_ne hne] using ih false
      | true =>
        rw [residue_true, residue_false_cons he, Settles]
        simpa [hc, hdrop, unescape_cons_cons] using ih false

/-- The text comes back when and only when no escape letter is left over. -/
theorem unescape_residue_iff (hesc : esc e = true) (he : drop e = false) :
    unescape e (residue e esc drop false s) = s.filter (fun c => !drop c) ↔
      Settles e esc drop false s := by
  obtain ⟨hback, hmore⟩ := residue_spec hesc he false s
  refine ⟨fun heq => ?_, hback⟩
  by_contra hnot
  have hlt := hmore hnot
  rw [heq] at hlt
  exact lt_irrefl _ hlt

/-- A letter that is not escaped comes next, escape letters apart. -/
def Released (e : α) (esc : α → Bool) (s : List α) : Prop :=
  ∃ c, (s.dropWhile (· == e)).head? = some c ∧ esc c = false

theorem released_cons_self (s : List α) : Released e esc (e :: s) ↔ Released e esc s := by
  rw [Released, dropWhile_cons, if_pos (beq_self_eq_true e), Released]

theorem released_cons_of_ne (hne : c ≠ e) (s : List α) :
    Released e esc (c :: s) ↔ esc c = false := by
  rw [Released, dropWhile_cons, if_neg (by simpa using hne)]
  simp

/-- The letters of a text that are left when the letters are dropped that have no escape letter. -/
def kept (esc drop : α → Bool) (s : List α) : List α := s.filter fun c => esc c || !drop c

/-- What is to be asked of the letters that are left. -/
def Separate (e : α) (esc drop : α → Bool) (s : List α) : Prop :=
  ∀ c t, c :: t <:+ s → esc c → drop c → Released e esc t

theorem separate_cons (s : List α) : Separate e esc drop (c :: s) ↔
    (esc c → drop c → Released e esc s) ∧ Separate e esc drop s := by
  refine ⟨fun h => ⟨h c s suffix_rfl, fun b t ht => h b t ?_⟩, fun h b t ht => ?_⟩
  · exact ht.trans (suffix_cons c s)
  · rcases suffix_cons_iff.mp ht with heq | ht
    · obtain ⟨rfl, rfl⟩ := List.cons.inj heq
      exact h.1
    · exact h.2 b t ht

/-- No escape letter is left over when behind every escaped letter that is dropped a letter comes
that is not escaped, escape letters apart. -/
theorem settles_iff (hesc : esc e = true) (he : drop e = false) (dangling : Bool) (s : List α) :
    Settles e esc drop dangling s ↔
      (dangling → Released e esc (kept esc drop s)) ∧ Separate e esc drop (kept esc drop s) := by
  induction s generalizing dangling with
  | nil =>
    cases dangling <;> simp [Settles, kept, Released, Separate]
  | cons c s ih =>
    rw [Settles, kept, filter_cons, ← kept]
    by_cases hc : esc c = true <;> by_cases hdrop : drop c = true
    · have hne : c ≠ e := fun heq => by
        rw [heq, he] at hdrop
        exact Bool.false_ne_true hdrop
      simp only [hc, hdrop, if_true, Bool.true_or, separate_cons, released_cons_of_ne hne, ih]
      cases dangling <;> simp
    · have hdrop : drop c = false := Bool.eq_false_iff.mpr hdrop
      simp only [hc, hdrop, if_true, Bool.true_or, separate_cons, ih, Bool.false_eq_true, if_false]
      cases dangling with
      | false => simp
      | true =>
        by_cases hce : c = e
        · subst hce
          simp [released_cons_self]
        · simp [hce, hc, released_cons_of_ne hce]
    · have hc : esc c = false := Bool.eq_false_iff.mpr hc
      simp only [hc, hdrop, if_true, Bool.false_or, Bool.not_true, Bool.false_eq_true, if_false, ih]
    · have hc : esc c = false := Bool.eq_false_iff.mpr hc
      have hdrop : drop c = false := Bool.eq_false_iff.mpr hdrop
      have hne : c ≠ e := fun heq => by
        rw [heq, hesc] at hc
        exact Bool.false_ne_true hc.symm
      simp only [hc, hdrop, Bool.false_or, Bool.not_false, Bool.false_eq_true, if_true, if_false,
        separate_cons, released_cons_of_ne hne, ih]
      simp

/-! ## Text of which nothing is dropped -/

omit [DecidableEq α] in
theorem escape_cons (e : α) (esc : α → Bool) (c : α) (s : List α) :
    escape e esc (c :: s) = (if esc c then [e, c] else [c]) ++ escape e esc s := flatMap_cons

omit [DecidableEq α] in
theorem protected_escape (hesc : esc e = true) (hc : esc c = true) (s : List α) :
    Protected e c (escape e esc s) := by
  induction s with
  | nil => exact .nil
  | cons b s ih =>
    rw [escape_cons]
    by_cases hb : esc b = true
    case pos =>
      rw [if_pos hb]
      exact .escaped ih
    case neg =>
      rw [if_neg hb]
      exact .plain (fun h => hb (h ▸ hesc)) (fun h => hb (h ▸ hc)) ih

theorem unescape_escape (hesc : esc e = true) (s : List α) : unescape e (escape e esc s) = s := by
  induction s with
  | nil => rfl
  | cons c s ih =>
    rw [escape_cons]
    by_cases hc : esc c = true
    case pos => rw [if_pos hc, cons_append, singleton_append, unescape_cons_cons, ih]
    case neg =>
      have hne : c ≠ e := fun h => hc (h ▸ hesc)
      rw [if_neg hc, singleton_append, unescape_cons_of_ne hne, ih]

/-- How many escape letters stand at the end of a text. -/
def run (e : α) (l : List α) : ℕ := (l.rtakeWhile (· = e)).length

theorem run_cons (b : α) (l : List α) :
    run e (b :: l) = if run e l = l.length ∧ b = e then l.length + 1 else run e l := by
  have hreverse : ∀ u : List α, run e u = (u.reverse.takeWhile (· = e)).length := fun u => by
    rw [run, List.rtakeWhile, length_reverse]
  have hall : run e l = l.length ↔ ∀ c ∈ l.reverse, decide (c = e) = true := by
    rw [hreverse, ← takeWhile_eq_self_iff]
    constructor
    · intro hlen
      exact (List.takeWhile_prefix _).eq_of_length (by rw [hlen, length_reverse])
    · intro heq
      rw [heq, length_reverse]
  rw [hreverse (b :: l), reverse_cons]
  by_cases hrun : run e l = l.length
  case pos =>
    rw [takeWhile_append_of_pos (hall.mp hrun)]
    by_cases hb : b = e
    · simp [hrun, hb]
    · simp [hrun, hb]
  case neg =>
    rw [if_neg fun h => hrun h.1, hreverse, takeWhile_append, if_neg]
    rwa [← hreverse, length_reverse]

/-- A separator of a protected text stands behind an odd number of escape letters. -/
theorem Protected.odd_run (hs : Protected e c s) (hc : c ≠ e) {l r : List α}
    (h : s = l ++ c :: r) : run e l % 2 = 1 := by
  induction hs generalizing l with
  | nil => exact absurd h (by simp)
  | @plain b s hb hbc _ ih =>
    cases l with
    | nil => exact absurd (List.cons.inj h).1 hbc
    | cons d l =>
      obtain ⟨rfl, hrest⟩ := List.cons.inj h
      rw [run_cons, if_neg fun hd => hb hd.2]
      exact ih hrest
  | @escaped b s _ ih =>
    cases l with
    | nil => exact absurd (List.cons.inj h).1.symm hc
    | cons d l =>
      obtain ⟨rfl, hrest⟩ := List.cons.inj h
      cases l with
      | nil => simp [run, List.rtakeWhile]
      | cons d l =>
        obtain ⟨rfl, hbehind⟩ := List.cons.inj hrest
        have hodd := ih hbehind
        have hle : run e l ≤ l.length := (rtakeWhile_suffix _ l).length_le
        -- a text that consists of escape letters goes on in front, with two more or with none
        by_cases hrun : run e l = l.length ∧ b = e
        case pos =>
          have hinner : run e (b :: l) = l.length + 1 := by rw [run_cons, if_pos hrun]
          rw [run_cons, hinner, length_cons, if_pos ⟨rfl, rfl⟩]
          omega
        case neg =>
          have hinner : run e (b :: l) = run e l := by rw [run_cons, if_neg hrun]
          rw [run_cons, hinner, length_cons, if_neg fun h => absurd h.1 (by omega)]
          exact hodd

end Escape
