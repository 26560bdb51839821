import Mathlib.Data.List.Infix
import Mathlib.Data.List.Flatten
import OssecHids.Lib.Escape

/-!
# Keys and escaped values

A text of keys and values: a separator stands behind each key, and in the values some letters, the
separator among them, are written as an escape letter and a code.

- `Coding.unescape_append`, `Coding.take_escape`: what comes back of an escaped value, whole or cut;
- `split_append`: the places of the separators that have no escape letter;
- `of_reads`: a text has only one reading;
- `exists_reads_take_iff`: when a text that is cut can still be read.
-/

namespace KeyValue

open Escape List Option

/-- The letters that are escaped, and their codes. -/
structure Coding (α : Type*) where
  e : α
  enc : α → Option α
  dec : α → Option α
  enc_e : enc e ≠ none
  dec_enc : ∀ a x, enc a = some x → dec x = some a

variable {α : Type*}

namespace Coding

variable (C : Coding α)

/-- What is written of a letter. -/
def letter (a : α) : List α := (C.enc a).elim [a] fun x => [C.e, x]

def escape (s : List α) : List α := s.flatMap C.letter

/-- The text that is meant, if there is a code behind each escape letter. -/
def unescape [DecidableEq α] : List α → Option (List α)
  | [] => some []
  | [b] => if b = C.e then none else some [b]
  | b :: x :: s =>
    if b = C.e then (C.dec x).bind fun a => (unescape s).map (a :: ·)
    else (unescape (x :: s)).map (b :: ·)

variable {C} {s r : List α} {a b c x : α} {n : ℕ}

theorem escape_cons (a : α) (s : List α) : C.escape (a :: s) = C.letter a ++ C.escape s := rfl

theorem escape_append (s r : List α) : C.escape (s ++ r) = C.escape s ++ C.escape r :=
  flatMap_append

theorem escape_of_forall (h : ∀ a ∈ s, C.enc a = none) : C.escape s = s := by
  induction s with
  | nil => rfl
  | cons a s ih =>
    rw [forall_mem_cons] at h
    rw [escape_cons, ih h.2, letter, h.1]
    rfl

theorem ne_e_of_enc (h : C.enc a = none) : a ≠ C.e := fun ha => C.enc_e (ha ▸ h)

theorem protected_escape (hc : C.enc c ≠ none) (s : List α) : Protected C.e c (C.escape s) := by
  induction s with
  | nil => exact .nil
  | cons a s ih =>
    rw [escape_cons, letter]
    cases ha : C.enc a with
    | none => exact .plain (ne_e_of_enc ha) (fun hac => hc (hac ▸ ha)) ih
    | some x => exact .escaped ih

/-- A text that is cut ends between two letters or behind an escape letter. -/
theorem take_escape (s : List α) (n : ℕ) :
    ∃ j, (C.escape s).take n = C.escape (s.take j) ∨
      (C.escape s).take n = C.escape (s.take j) ++ [C.e] := by
  induction s generalizing n with
  | nil => exact ⟨0, .inl take_nil⟩
  | cons a s ih =>
    cases n with
    | zero => exact ⟨0, .inl rfl⟩
    | succ n =>
      rw [escape_cons]
      cases ha : C.enc a with
      | none =>
        have hletter : C.letter a = [a] := by rw [letter, ha, elim_none]
        obtain ⟨j, hj⟩ := ih n
        refine ⟨j + 1, ?_⟩
        rw [take_succ_cons, escape_cons, hletter, singleton_append, take_succ_cons]
        exact hj.imp (congrArg (a :: ·)) (congrArg (a :: ·))
      | some x =>
        have hletter : C.letter a = [C.e, x] := by rw [letter, ha, elim_some]
        rw [hletter]
        cases n with
        | zero => exact ⟨0, .inr rfl⟩
        | succ n =>
          obtain ⟨j, hj⟩ := ih n
          refine ⟨j + 1, ?_⟩
          rw [take_succ_cons, escape_cons, hletter]
          exact hj.imp (congrArg ([C.e, x] ++ ·)) (congrArg ([C.e, x] ++ ·))

theorem take_escape_of_length {j : ℕ} (h : (C.escape (s.take j)).length = n) :
    (C.escape s).take n = C.escape (s.take j) := by
  have hsplit : C.escape s = C.escape (s.take j) ++ C.escape (s.drop j) := by
    rw [← escape_append, take_append_drop]
  rw [hsplit, ← h, take_left]

variable [DecidableEq α]

theorem unescape_cons_of_ne (hb : b ≠ C.e) (s : List α) :
    C.unescape (b :: s) = (C.unescape s).map (b :: ·) := by
  cases s with
  | nil => exact if_neg hb
  | cons x s => exact if_neg hb

theorem unescape_e_cons (x : α) (s : List α) :
    C.unescape (C.e :: x :: s) = (C.dec x).bind fun a => (C.unescape s).map (a :: ·) := if_pos rfl

/-- An escaped text comes back. -/
theorem unescape_append (s r : List α) :
    C.unescape (C.escape s ++ r) = (C.unescape r).map (s ++ ·) := by
  induction s with
  | nil =>
    change C.unescape r = (C.unescape r).map id
    rw [Option.map_id, id]
  | cons a s ih =>
    rw [escape_cons, letter]
    cases ha : C.enc a with
    | none =>
      rw [elim_none, append_assoc, singleton_append,
        unescape_cons_of_ne (ne_e_of_enc ha), ih, Option.map_map]
      rfl
    | some x =>
      rw [elim_some, append_assoc, cons_append, singleton_append,
        unescape_e_cons, C.dec_enc a x ha, bind_some, ih, Option.map_map]
      rfl

theorem unescape_append_e (s : List α) : C.unescape (C.escape s ++ [C.e]) = none := by
  rw [unescape_append, unescape, if_pos rfl, map_none]

theorem unescape_eq_nil (h : C.unescape s = some []) : s = [] := by
  match s with
  | [] => rfl
  | [b] =>
    rw [unescape] at h
    split at h <;> cases h
  | b :: x :: s =>
    rw [unescape] at h
    split at h
    · cases hx : C.dec x with
      | none => rw [hx] at h; cases h
      | some a =>
        rw [hx, bind_some, map_eq_some_iff] at h
        obtain ⟨t, -, ht⟩ := h
        cases ht
    · obtain ⟨t, -, ht⟩ := map_eq_some_iff.mp h
      cases ht

theorem unescape_escape (s : List α) : C.unescape (C.escape s) = some s := by
  have h := C.unescape_append s []
  rwa [append_nil, unescape, map_some, append_nil] at h

end Coding

/-! ## Separators -/

section

variable {e c b x : α} {s t r : List α}

theorem exists_of_modifyHead {f : List α → List α} {l ps : List (List α)}
    (h : l.modifyHead f = t :: ps) : ∃ t', l = t' :: ps ∧ t = f t' := by
  cases l with
  | nil => cases h
  | cons t' ps' =>
    obtain ⟨rfl, rfl⟩ := List.cons.inj h
    exact ⟨t', rfl, rfl⟩

theorem intercalate_modifyHead {l : List (List α)} (hl : l ≠ []) :
    [c].intercalate (l.modifyHead (t ++ ·)) = t ++ [c].intercalate l := by
  cases l with
  | nil => exact absurd rfl hl
  | cons p ps =>
    cases ps with
    | nil => simp
    | cons q ps => simp [intercalate_cons_cons]

theorem protected_append (ht : Protected e c t) (hs : Protected e c s) : Protected e c (t ++ s) := by
  induction ht with
  | nil => exact hs
  | plain hb hbc _ ih => exact .plain hb hbc ih
  | escaped _ ih => exact .escaped ih

theorem protected_of_append (he : e ∉ t) (h : Protected e c (t ++ s)) : Protected e c s := by
  induction t with
  | nil => exact h
  | cons b t ih =>
    rw [mem_cons, not_or] at he
    rw [cons_append] at h
    generalize hu : t ++ s = u at h
    cases h with
    | plain _ _ h => exact ih he.2 (hu ▸ h)
    | escaped h => exact absurd rfl he.1

/-- What is protected is cut behind an escape letter, or it stays protected. -/
theorem protected_take (ht : Protected e c t) (n : ℕ) :
    Protected e c (t.take n) ∨ ∃ z, t.take n = z ++ [e] := by
  induction ht generalizing n with
  | nil => exact .inl (take_nil.symm ▸ .nil)
  | @plain b s hb hbc _ ih =>
    cases n with
    | zero => exact .inl .nil
    | succ n =>
      rw [take_succ_cons]
      exact (ih n).imp (.plain hb hbc) fun ⟨z, hz⟩ => ⟨b :: z, by rw [hz, cons_append]⟩
  | @escaped b s _ ih =>
    match n with
    | 0 => exact .inl .nil
    | 1 => exact .inr ⟨[], rfl⟩
    | n + 2 =>
      rw [take_succ_cons, take_succ_cons]
      exact (ih n).imp .escaped fun ⟨z, hz⟩ => ⟨e :: b :: z, by rw [hz]; rfl⟩

variable [DecidableEq α]

/-- The pieces between the separators that have no escape letter. -/
def split (e c : α) : List α → List (List α)
  | [] => [[]]
  | [b] => if b = c then [[], []] else [[b]]
  | b :: x :: s =>
    if b = c then [] :: split e c (x :: s)
    else if b = e then (split e c s).modifyHead ([b, x] ++ ·)
    else (split e c (x :: s)).modifyHead (b :: ·)

theorem split_sep (c : α) (s : List α) : split e c (c :: s) = [] :: split e c s := by
  cases s with
  | nil => exact if_pos rfl
  | cons x s => exact if_pos rfl

theorem split_cons_of_ne (hb : b ≠ e) (hbc : b ≠ c) (s : List α) :
    split e c (b :: s) = (split e c s).modifyHead (b :: ·) := by
  cases s with
  | nil => exact if_neg hbc
  | cons x s => rw [split, if_neg hbc, if_neg hb]

theorem split_escaped (hec : e ≠ c) (x : α) (s : List α) :
    split e c (e :: x :: s) = (split e c s).modifyHead ([e, x] ++ ·) := by
  rw [split, if_neg hec, if_pos rfl]

theorem split_append (hec : e ≠ c) (ht : Protected e c t) (s : List α) :
    split e c (t ++ s) = (split e c s).modifyHead (t ++ ·) := by
  induction ht with
  | nil =>
    rw [nil_append]
    cases split e c s <;> rfl
  | plain hb hbc _ ih =>
    rw [cons_append, split_cons_of_ne hb hbc, ih, modifyHead_modifyHead]
    rfl
  | escaped _ ih =>
    rw [cons_append, cons_append, split_escaped hec, ih, modifyHead_modifyHead]
    rfl

theorem split_append_sep (hec : e ≠ c) (ht : Protected e c t) (s : List α) :
    split e c (t ++ c :: s) = t :: split e c s := by
  rw [split_append hec ht, split_sep, modifyHead_cons, append_nil]

/-- What is protected, with at most an escape letter behind it, is one piece. -/
theorem split_protected (hec : e ≠ c) (ht : Protected e c t) : split e c t = [t] := by
  have h := split_append hec ht []
  rwa [append_nil, split, modifyHead_cons, append_nil] at h

theorem split_protected_e (hec : e ≠ c) (ht : Protected e c t) :
    split e c (t ++ [e]) = [t ++ [e]] := by
  rw [split_append hec ht, split, if_neg hec, modifyHead_cons]

theorem split_fields (hec : e ≠ c) {fields : List (List α)} (h : ∀ t ∈ fields, Protected e c t)
    (s : List α) : split e c (fields.flatMap (· ++ [c]) ++ s) = fields ++ split e c s := by
  induction fields with
  | nil => rfl
  | cons t fields ih =>
    rw [forall_mem_cons] at h
    rw [flatMap_cons, append_assoc, append_assoc, singleton_append,
      split_append_sep hec h.1, ih h.2, cons_append]

/-- A protected text that is cut. -/
theorem split_take (hec : e ≠ c) (ht : Protected e c t) (n : ℕ) :
    split e c (t.take n) = [t.take n] := by
  induction ht generalizing n with
  | nil => rw [take_nil, split]
  | plain hb hbc _ ih =>
    cases n with
    | zero => rfl
    | succ n => rw [take_succ_cons, split_cons_of_ne hb hbc, ih, modifyHead_cons]
  | escaped _ ih =>
    match n with
    | 0 => rfl
    | 1 => exact if_neg hec
    | n + 2 =>
      rw [take_succ_cons, take_succ_cons, split_escaped hec, ih, modifyHead_cons]
      rfl

/-- The fields with a separator behind each have no more pieces when they are cut. -/
theorem length_split_take (hec : e ≠ c) {fields : List (List α)}
    (h : ∀ t ∈ fields, Protected e c t) {n : ℕ}
    (hn : n < (fields.flatMap (· ++ [c])).length) :
    (split e c ((fields.flatMap (· ++ [c])).take n)).length ≤ fields.length := by
  induction fields generalizing n with
  | nil => cases hn
  | cons t fields ih =>
    rw [forall_mem_cons] at h
    rw [flatMap_cons, append_assoc, length_append, singleton_append, length_cons] at hn
    rw [flatMap_cons, append_assoc, singleton_append, length_cons]
    rcases lt_or_ge t.length n with hlt | hge
    · obtain ⟨m, rfl⟩ := Nat.exists_eq_add_of_lt hlt
      rw [Nat.add_assoc, take_length_add_append, take_succ_cons, split_append_sep hec h.1,
        length_cons]
      exact Nat.succ_le_succ (ih h.2 (by omega))
    · rw [take_append_of_le_length hge, split_take hec h.1]
      exact Nat.succ_le_succ (Nat.zero_le _)

/-- The first piece of several is protected. -/
theorem protected_of_split {p : List α} {ps : List (List α)} (h : split e c s = t :: p :: ps) :
    Protected e c t := by
  fun_induction split e c s generalizing t with
  | case1 => cases h
  | case2 => cases h; exact .nil
  | case3 => cases h
  | case4 =>
    obtain ⟨rfl, -⟩ := List.cons.inj h
    exact .nil
  | case5 _ _ _ ih =>
    obtain ⟨t', hsplit, rfl⟩ := exists_of_modifyHead h
    exact .escaped (ih hsplit)
  | case6 _ _ _ hbc hb ih =>
    obtain ⟨t', hsplit, rfl⟩ := exists_of_modifyHead h
    exact .plain hb hbc (ih hsplit)

theorem split_ne_nil (s : List α) : split e c s ≠ [] := by
  fun_induction split e c s with
  | case1 => exact cons_ne_nil _ _
  | case2 => exact cons_ne_nil _ _
  | case3 => exact cons_ne_nil _ _
  | case4 => exact cons_ne_nil _ _
  | case5 _ _ _ ih => simpa using ih
  | case6 _ _ _ _ _ ih => simpa using ih

theorem intercalate_split (s : List α) : [c].intercalate (split e c s) = s := by
  fun_induction split e c s with
  | case1 => rfl
  | case2 => rfl
  | case3 => rfl
  | case4 x s ih =>
    rw [intercalate_cons_of_ne_nil (split_ne_nil _), ih]
    rfl
  | case5 x s _ ih => rw [intercalate_modifyHead (split_ne_nil s), ih]; rfl
  | case6 b x s _ _ ih =>
    have h := intercalate_modifyHead (c := c) (t := [b]) (split_ne_nil (e := e) (c := c) (x :: s))
    rw [ih] at h
    exact h

end

/-! ## Keys and values -/

/-- Each key has a separator behind it, and its value is escaped. -/
def text (C : Coding α) (c : α) (es : List (List α × List α)) : List α :=
  es.flatMap fun p => p.1 ++ c :: C.escape p.2

/-- The pieces of a text: a value, and the key of the next one. -/
def glue : List α → List (List α × List α) → List (List α)
  | t, [] => [t]
  | t, p :: ps => (t ++ p.1) :: glue p.2 ps

/-- The pieces of the text are these keys with values that mean these ones. -/
def Reads [DecidableEq α] (C : Coding α) (c : α) (s : List α) (es : List (List α × List α)) : Prop :=
  ∃ ps, split C.e c s = glue [] ps ∧ ps.map Prod.fst = es.map Prod.fst ∧
    ps.map (fun p => C.unescape p.2) = es.map fun p => some p.2

/-- The first of the keys, with a part of the last value. A value at the very end may have dots. -/
inductive Shortened (dots : List α) : List (List α × List α) → List (List α × List α) → Prop
  | whole (es) : Shortened dots es es
  | empty (es) : Shortened dots [] es
  | cut (fs k v gs j) : Shortened dots (fs ++ [(k, v.take j)]) (fs ++ (k, v) :: gs)
  | trailed (fs k v j) : Shortened dots (fs ++ [(k, v.take j ++ dots)]) (fs ++ [(k, v)])

/-- The place is behind the text, in front of it, or between two letters of a value. -/
def CutOk (C : Coding α) (c : α) (es : List (List α × List α)) (n : ℕ) : Prop :=
  (text C c es).length ≤ n ∨ n = 0 ∨ ∃ fs k v gs j, es = fs ++ (k, v) :: gs ∧
    (text C c (fs ++ [(k, v.take j)])).length = n

section

variable {C : Coding α} {c : α} {es es' fs gs : List (List α × List α)} {s t k v raw dots : List α}
  {n : ℕ}

theorem text_cons (k v : List α) (es : List (List α × List α)) :
    text C c ((k, v) :: es) = k ++ c :: (C.escape v ++ text C c es) := by
  rw [text, flatMap_cons, ← text, append_assoc, cons_append]

theorem text_append (fs gs : List (List α × List α)) :
    text C c (fs ++ gs) = text C c fs ++ text C c gs := flatMap_append

theorem text_singleton (k v : List α) : text C c [(k, v)] = k ++ c :: C.escape v := by
  rw [text_cons, text, flatMap_nil, append_nil]

theorem length_glue (t : List α) (ps : List (List α × List α)) :
    (glue t ps).length = ps.length + 1 := by
  induction ps generalizing t with
  | nil => rfl
  | cons p ps ih => rw [glue, length_cons, ih, length_cons]

/-- With the keys known, the pieces tell the values. -/
theorem glue_injective {ps qs : List (List α × List α)} (h : glue t ps = glue s qs)
    (hkeys : ps.map Prod.fst = qs.map Prod.fst) : t = s ∧ ps = qs := by
  induction ps generalizing t s qs with
  | nil =>
    cases qs with
    | nil => exact ⟨(List.cons.inj h).1, rfl⟩
    | cons q qs => cases hkeys
  | cons p ps ih =>
    cases qs with
    | nil => cases hkeys
    | cons q qs =>
      obtain ⟨hkey, hkeys⟩ := List.cons.inj hkeys
      obtain ⟨hfirst, hrest⟩ := List.cons.inj h
      obtain ⟨hvalue, rfl⟩ := ih hrest hkeys
      rw [hkey] at hfirst
      exact ⟨append_cancel_right hfirst, congrArg (· :: ps) (Prod.ext hkey hvalue)⟩

/-- A text that is cut ends in a key or in a value. -/
theorem take_text (es : List (List α × List α)) (hn : 0 < n) (hlt : n < (text C c es).length) :
    ∃ fs k v gs, es = fs ++ (k, v) :: gs ∧
      ((∃ m, 0 < m ∧ m ≤ k.length ∧ (text C c es).take n = text C c fs ++ k.take m) ∨
        ∃ m, (text C c es).take n = text C c fs ++ (k ++ c :: (C.escape v).take m)) := by
  induction es generalizing n with
  | nil => cases hlt
  | cons p es ih =>
    obtain ⟨k, v⟩ := p
    rw [text_cons, length_append, length_cons, length_append] at hlt
    rw [text_cons]
    rcases lt_or_ge k.length n with hkey | hkey
    · obtain ⟨m, rfl⟩ := Nat.exists_eq_add_of_lt hkey
      rw [Nat.add_assoc, take_length_add_append, take_succ_cons]
      rcases lt_or_ge (C.escape v).length m with hvalue | hvalue
      · obtain ⟨i, rfl⟩ := Nat.exists_eq_add_of_lt hvalue
        obtain ⟨fs, k', v', gs, rfl, htake⟩ := @ih (i + 1) (Nat.succ_pos i) (by omega)
        refine ⟨(k, v) :: fs, k', v', gs, rfl, ?_⟩
        rw [Nat.add_assoc, take_length_add_append]
        refine htake.imp (fun ⟨m, hm, hle, h⟩ => ⟨m, hm, hle, ?_⟩) fun ⟨m, h⟩ => ⟨m, ?_⟩
        · rw [h, text_cons, append_assoc, cons_append, append_assoc]
        · rw [h, text_cons, append_assoc, cons_append, append_assoc]
      · refine ⟨[], k, v, es, rfl, .inr ⟨m, ?_⟩⟩
        rw [take_append_of_le_length hvalue]
        rfl
    · refine ⟨[], k, v, es, rfl, .inl ⟨n, hn, hkey, ?_⟩⟩
      rw [take_append_of_le_length hkey]
      rfl

theorem isPrefix_keys (fs : List (List α × List α)) (k v : List α) (gs : List (List α × List α)) :
    fs.map Prod.fst ++ [k] <+: (fs ++ (k, v) :: gs).map Prod.fst := by
  rw [map_append]
  exact (prefix_append_right_inj _).mpr ⟨gs.map Prod.fst, rfl⟩

theorem eq_of_maps {ps qs : List (List α × List α)} (hkeys : ps.map Prod.fst = qs.map Prod.fst)
    (hvalues : ps.map (fun p => some p.2) = qs.map fun p => some p.2) : ps = qs := by
  induction ps generalizing qs with
  | nil => exact (map_eq_nil_iff.mp hkeys.symm).symm
  | cons p ps ih =>
    cases qs with
    | nil => cases hkeys
    | cons q qs =>
      obtain ⟨hkey, hkeys⟩ := List.cons.inj hkeys
      obtain ⟨hvalue, hvalues⟩ := List.cons.inj hvalues
      rw [Prod.ext hkey (some.inj hvalue), ih hkeys hvalues]

theorem Shortened.keys (h : Shortened dots es' es) : es'.map Prod.fst <+: es.map Prod.fst := by
  cases h with
  | whole => exact prefix_rfl
  | empty => exact List.nil_prefix
  | cut fs k v gs j =>
    rw [map_append, map_append]
    exact prefix_append_right_inj _ |>.mpr ⟨gs.map Prod.fst, rfl⟩
  | trailed fs k v j =>
    rw [map_append, map_append]
    exact prefix_rfl

theorem Shortened.append (es gs : List (List α × List α)) : Shortened dots es (es ++ gs) := by
  rcases eq_nil_or_concat' es with rfl | ⟨fs, ⟨k, v⟩, rfl⟩
  · exact .empty _
  · have h : Shortened dots (fs ++ [(k, v.take v.length)]) (fs ++ (k, v) :: gs) :=
      .cut fs k v gs v.length
    rw [take_length] at h
    rwa [append_assoc, singleton_append]

/-- The last value of a text that is shortened. -/
theorem Shortened.last {k' v' : List α} (h : Shortened dots (fs ++ [(k', v')]) (es ++ (k, v) :: gs))
    (hlen : fs.length = es.length) :
    (∃ j, v' = v.take j) ∨ gs = [] ∧ ∃ j, v' = v.take j ++ dots := by
  generalize hl : fs ++ [(k', v')] = l at h
  generalize hr : es ++ (k, v) :: gs = r at h
  cases h with
  | whole =>
    obtain ⟨-, hlast⟩ := List.append_inj (hl.trans hr.symm) hlen
    obtain ⟨hpair, -⟩ := List.cons.inj hlast
    refine .inl ⟨v.length, ?_⟩
    rw [take_length, (Prod.mk.inj hpair).2]
  | empty => exact absurd hl (append_ne_nil_of_right_ne_nil _ (cons_ne_nil _ _))
  | cut fs₁ k₁ v₁ gs₁ j =>
    obtain ⟨rfl, hlast⟩ := append_inj' hl rfl
    obtain ⟨-, hrest⟩ := List.append_inj hr hlen.symm
    obtain ⟨-, rfl⟩ := Prod.mk.inj (List.cons.inj hlast).1
    obtain ⟨-, rfl⟩ := Prod.mk.inj (List.cons.inj hrest).1
    exact .inl ⟨j, rfl⟩
  | trailed fs₁ k₁ v₁ j =>
    obtain ⟨rfl, hlast⟩ := append_inj' hl rfl
    obtain ⟨-, hrest⟩ := List.append_inj hr hlen.symm
    obtain ⟨-, rfl⟩ := Prod.mk.inj (List.cons.inj hlast).1
    obtain ⟨hpair, rfl⟩ := List.cons.inj hrest
    cases hpair
    exact .inr ⟨rfl, j, rfl⟩

end

/-! ## Reading -/

section

variable [DecidableEq α] {C : Coding α} {c : α} {es es' fs gs ks : List (List α × List α)}
  {s t k v raw dots : List α} {n : ℕ}

/-- The keys need no escape letters. -/
def KeysOk (C : Coding α) (c : α) (es : List (List α × List α)) : Prop :=
  ∀ p ∈ es, Protected C.e c p.1

theorem split_glue (hec : C.e ≠ c) (hc : C.enc c ≠ none) (hfs : KeysOk C c fs)
    (hk : Protected C.e c k) (hraw : split C.e c raw = [raw]) (ht : Protected C.e c t) :
    split C.e c (t ++ (text C c fs ++ (k ++ c :: raw))) =
      glue t (fs.map (Prod.map id C.escape) ++ [(k, raw)]) := by
  induction fs generalizing t with
  | nil =>
    rw [text, flatMap_nil, nil_append, ← append_assoc,
      split_append_sep hec (protected_append ht hk), hraw]
    rfl
  | cons p fs ih =>
    rw [KeysOk, forall_mem_cons] at hfs
    obtain ⟨k₁, v₁⟩ := p
    rw [text_cons, append_assoc, ← append_assoc t, cons_append,
      split_append_sep hec (protected_append ht hfs.1), append_assoc,
      ih hfs.2 (C.protected_escape hc v₁)]
    rfl

theorem reads_last (hec : C.e ≠ c) (hc : C.enc c ≠ none) (hfs : KeysOk C c fs)
    (hk : Protected C.e c k) (hraw : split C.e c raw = [raw]) (hv : C.unescape raw = some v) :
    Reads C c (text C c fs ++ (k ++ c :: raw)) (fs ++ [(k, v)]) := by
  refine ⟨_, split_glue hec hc hfs hk hraw .nil, ?_, ?_⟩
  · rw [map_append, map_append, List.map_map]
    rfl
  · rw [map_append, map_append, List.map_map, map_singleton, hv]
    congr 1
    refine map_congr_left fun p _ => ?_
    exact C.unescape_escape p.2

theorem reads_text (hec : C.e ≠ c) (hc : C.enc c ≠ none) (hes : KeysOk C c es) :
    Reads C c (text C c es) es := by
  rcases eq_nil_or_concat' es with rfl | ⟨fs, ⟨k, v⟩, rfl⟩
  · exact ⟨[], rfl, rfl, rfl⟩
  · rw [text_append, text_singleton]
    exact reads_last hec hc (fun p hp => hes p (mem_append_left _ hp))
      (hes (k, v) (mem_append_right _ mem_cons_self))
      (split_protected hec (C.protected_escape hc v)) (C.unescape_escape v)

/-- A text is read in one way only, if the keys are the first ones of known keys. -/
theorem of_reads (hec : C.e ≠ c) (hc : C.enc c ≠ none) (hfs : KeysOk C c fs)
    (hk : Protected C.e c k) (hraw : split C.e c raw = [raw]) {keys : List (List α)}
    (hkeys : fs.map Prod.fst ++ [k] <+: keys) (hkeys' : es'.map Prod.fst <+: keys)
    (h : Reads C c (text C c fs ++ (k ++ c :: raw)) es') :
    ∃ v, es' = fs ++ [(k, v)] ∧ C.unescape raw = some v := by
  obtain ⟨ps, hsplit, hfst, hsnd⟩ := h
  have hglue := split_glue hec hc hfs hk hraw .nil
  rw [nil_append, hsplit] at hglue
  have hlen := congrArg List.length hglue
  rw [length_glue, length_glue] at hlen
  have hqs : (fs.map (Prod.map id C.escape) ++ [(k, raw)]).map Prod.fst =
      fs.map Prod.fst ++ [k] := by
    rw [map_append, List.map_map]
    rfl
  have hsame : ps.map Prod.fst = (fs.map (Prod.map id C.escape) ++ [(k, raw)]).map Prod.fst := by
    have hfirst : (ps.map Prod.fst).length = (fs.map Prod.fst ++ [k]).length := by
      rw [length_append, length_map, length_singleton] at hlen
      rw [length_append, length_map, length_map, length_singleton]
      omega
    rw [hqs]
    rw [← hfst] at hkeys'
    exact (prefix_of_prefix_length_le hkeys' hkeys hfirst.le).eq_of_length hfirst
  obtain ⟨-, rfl⟩ := glue_injective hglue hsame
  rw [hqs] at hfst
  have hvalues : es'.map (fun p => some p.2) = fs.map (fun p => some p.2) ++ [C.unescape raw] := by
    rw [← hsnd, map_append, List.map_map]
    congr 1
    exact map_congr_left fun p _ => C.unescape_escape p.2
  obtain ⟨as, bs, rfl, has, hbs⟩ := map_eq_append_iff.mp hvalues
  obtain ⟨⟨k', v'⟩, rfl, hv⟩ := map_eq_singleton_iff.mp hbs
  rw [map_append] at hfst
  obtain ⟨hkeysa, hlast⟩ := append_inj' hfst rfl
  obtain rfl : k = k' := (List.cons.inj hlast).1
  exact ⟨v', by rw [eq_of_maps hkeysa.symm has], hv.symm⟩

/-- A text that is cut inside a key has no reading. -/
theorem not_reads_take_key (hec : C.e ≠ c) (hc : C.enc c ≠ none) (hfs : KeysOk C c fs)
    (hk : Protected C.e c k) {m : ℕ} (hm : 0 < m) (hle : m ≤ k.length)
    (hshort : Shortened dots es' (fs ++ (k, v) :: gs)) :
    ¬Reads C c (text C c fs ++ k.take m) es' := by
  intro h
  have hne : k.take m ≠ [] := by
    rw [← length_pos_iff_ne_nil, length_take_of_le hle]
    exact hm
  rcases eq_nil_or_concat' fs with rfl | ⟨fs, ⟨k', v'⟩, rfl⟩
  · -- a key without a value
    obtain ⟨ps, hsplit, -⟩ := h
    rw [text, flatMap_nil, nil_append, split_take hec hk] at hsplit
    cases ps with
    | nil => exact hne (List.cons.inj hsplit).1
    | cons p ps =>
      have hlen := congrArg List.length (List.cons.inj hsplit).2
      rw [length_glue] at hlen
      exact absurd hlen (Nat.succ_ne_zero _).symm
  · -- the beginning of the key belongs to the value in front of it
    have hfs' : KeysOk C c fs := fun p hp => hfs p (mem_append_left _ hp)
    have hk' : Protected C.e c k' := hfs (k', v') (mem_append_right _ mem_cons_self)
    have hraw : split C.e c (C.escape v' ++ k.take m) = [C.escape v' ++ k.take m] := by
      rw [split_append hec (C.protected_escape hc v'), split_take hec hk, modifyHead_cons]
    rw [text_append, text_singleton, append_assoc, append_assoc, cons_append] at h
    rw [append_assoc, singleton_append] at hshort
    obtain ⟨w, rfl, hw⟩ := of_reads hec hc hfs' hk' hraw (isPrefix_keys fs k' v' _) hshort.keys h
    rw [C.unescape_append, map_eq_some_iff] at hw
    obtain ⟨u, hu, rfl⟩ := hw
    rcases hshort.last rfl with ⟨j, hj⟩ | ⟨hnil, -⟩
    · have hlen := congrArg List.length hj
      rw [length_append, length_take] at hlen
      have hu0 : u = [] := length_eq_zero_iff.mp (by omega)
      rw [hu0] at hu
      exact hne (C.unescape_eq_nil hu)
    · cases hnil

/-- What is not whole, and not cut between two letters of a value, cannot be read. -/
theorem exists_reads_take_iff (hec : C.e ≠ c) (hc : C.enc c ≠ none) (hes : KeysOk C c es) :
    (∃ es', Shortened dots es' es ∧ Reads C c ((text C c es).take n) es') ↔ CutOk C c es n := by
  constructor
  · rintro ⟨es', hshort, hreads⟩
    by_cases hlt : (text C c es).length ≤ n
    · exact .inl hlt
    by_cases hn : n = 0
    · exact .inr (.inl hn)
    obtain ⟨fs, k, v, gs, rfl, htake⟩ := take_text es (Nat.pos_of_ne_zero hn) (not_le.mp hlt)
    have hfs : KeysOk C c fs := fun p hp => hes p (mem_append_left _ hp)
    have hk : Protected C.e c k := hes (k, v) (mem_append_right _ mem_cons_self)
    rcases htake with ⟨m, hm, hle, htake⟩ | ⟨m, htake⟩
    · rw [htake] at hreads
      exact (not_reads_take_key hec hc hfs hk hm hle hshort hreads).elim
    · rw [htake] at hreads
      obtain ⟨j, hj | hj⟩ := C.take_escape v m
      · refine .inr (.inr ⟨fs, k, v, gs, j, rfl, ?_⟩)
        rw [text_append, text_singleton, ← hj, ← htake, length_take]
        omega
      · -- an escape letter is left over
        have hraw : split C.e c ((C.escape v).take m) = [(C.escape v).take m] := by
          rw [hj]
          exact split_protected_e hec (C.protected_escape hc _)
        obtain ⟨v', -, hv'⟩ := of_reads hec hc hfs hk hraw (isPrefix_keys fs k v gs) hshort.keys hreads
        rw [hj, C.unescape_append_e] at hv'
        cases hv'
  · rintro (hle | rfl | ⟨fs, k, v, gs, j, rfl, hlen⟩)
    · rw [take_of_length_le hle]
      exact ⟨es, .whole es, reads_text hec hc hes⟩
    · exact ⟨[], .empty es, [], rfl, rfl, rfl⟩
    · refine ⟨fs ++ [(k, v.take j)], .cut fs k v gs j, ?_⟩
      have hkeys : KeysOk C c (fs ++ [(k, v.take j)]) := by
        intro p hp
        rcases mem_append.mp hp with hp | hp
        · exact hes p (mem_append_left _ hp)
        · rw [mem_singleton.mp hp]
          exact hes (k, v) (mem_append_right _ mem_cons_self)
      have hpre : text C c (fs ++ [(k, v.take j)]) <+: text C c (fs ++ (k, v) :: gs) := by
        have hsplit : C.escape v = C.escape (v.take j) ++ C.escape (v.drop j) := by
          rw [← C.escape_append, take_append_drop]
        refine ⟨C.escape (v.drop j) ++ text C c gs, ?_⟩
        rw [text_append, text_append, text_singleton, text_cons, hsplit]
        simp
      rw [← hlen, ← prefix_iff_eq_take.mp hpre]
      exact reads_text hec hc hkeys

theorem reads_cut (hec : C.e ≠ c) (hc : C.enc c ≠ none) (hfs : KeysOk C c fs)
    (hk : Protected C.e c k) (hdots : Protected C.e c dots) (hself : C.unescape dots = some dots)
    {j : ℕ} (hj : (C.escape (v.take j)).length = n) :
    Reads C c (text C c fs ++ (k ++ c :: ((C.escape v).take n ++ dots)))
      (fs ++ [(k, v.take j ++ dots)]) := by
  rw [C.take_escape_of_length hj]
  apply reads_last hec hc hfs hk
  · rw [split_append hec (C.protected_escape hc _), split_protected hec hdots, modifyHead_cons]
  · rw [C.unescape_append, hself, map_some]

/-- A value that can be read is cut between two letters. -/
theorem exists_of_reads_cut (hec : C.e ≠ c) (hc : C.enc c ≠ none) (hfs : KeysOk C c fs)
    (hk : Protected C.e c k)
    (hsplit : split C.e c (C.e :: dots) = [C.e :: dots])
    (hbad : C.unescape (C.e :: dots) = none) (hn : n ≤ (C.escape v).length) {ds : List α}
    (hshort : Shortened ds es' (fs ++ [(k, v)]))
    (h : Reads C c (text C c fs ++ (k ++ c :: ((C.escape v).take n ++ dots))) es') :
    ∃ j, (C.escape (v.take j)).length = n := by
  obtain ⟨j, hj | hj⟩ := C.take_escape v n
  · exact ⟨j, by rw [← hj, length_take_of_le hn]⟩
  · have hraw : split C.e c ((C.escape v).take n ++ dots) = [(C.escape v).take n ++ dots] := by
      rw [hj, append_assoc, singleton_append, split_append hec (C.protected_escape hc _),
        hsplit, modifyHead_cons]
    obtain ⟨v', -, hv'⟩ := of_reads hec hc hfs hk hraw (isPrefix_keys fs k v []) hshort.keys h
    rw [hj, append_assoc, singleton_append, C.unescape_append, hbad] at hv'
    cases hv'

end

end KeyValue
