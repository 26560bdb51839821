import Mathlib.Data.List.Flatten
import Mathlib.Data.List.Infix
import Mathlib.Data.List.MinMax
import Mathlib.Data.Sum.Basic

/-!
# Substitution by passes over a text

A text with names in it is a list of symbols and of names. Its names are replaced by their values all
at once, or one name after the other in what the earlier passes have left.

- `replaceAll`: one pass;
- `parse`: the names of a text, with `render_parse`;
- `foldl_replaceAll`: the passes are the substitution where no pass finds its name in other text.
-/

open List

namespace Substitution

variable {α κ : Type*}

section

variable [DecidableEq α]

/-- The places of `t` are replaced by `v`, with `n` symbols of a place still to be skipped. -/
def replaceLoop (t v : List α) : ℕ → List α → List α
  | _, [] => []
  | 0, a :: s =>
    if t <+: a :: s then v ++ replaceLoop t v (t.length - 1) s else a :: replaceLoop t v 0 s
  | n + 1, _ :: s => replaceLoop t v n s

/-- The leftmost places of `t` that do not overlap are replaced by `v`. -/
def replaceAll (t v s : List α) : List α := replaceLoop t v 0 s

/-- The longest of the names that the text begins with. -/
def nameAt (name : κ → List α) (names : List κ) (s : List α) : Option κ :=
  (names.filter fun k => name k <+: s).argmax fun k => (name k).length

def parseLoop (name : κ → List α) (names : List κ) : ℕ → List α → List (α ⊕ κ)
  | _, [] => []
  | 0, a :: s =>
    match nameAt name names (a :: s) with
    | some k => Sum.inr k :: parseLoop name names ((name k).length - 1) s
    | none => Sum.inl a :: parseLoop name names 0 s
  | n + 1, _ :: s => parseLoop name names n s

/-- The text as symbols and names. -/
def parse (name : κ → List α) (names : List κ) (s : List α) : List (α ⊕ κ) :=
  parseLoop name names 0 s

end

/-- The text again. -/
def render (name : κ → List α) (ps : List (α ⊕ κ)) : List α :=
  ps.flatMap (Sum.elim (fun a => [a]) name)

/-- The names of `done` are replaced, and the others stay names. -/
def expand [DecidableEq κ] (value : κ → List α) (done : List κ) (ps : List (α ⊕ κ)) :
    List (α ⊕ κ) :=
  ps.flatMap (Sum.elim (fun a => [Sum.inl a])
    fun k => if k ∈ done then (value k).map Sum.inl else [Sum.inr k])

/-- A mark is at the beginning of each name and nowhere else, and no name begins with another one. -/
structure Marked (mark : α) (name : κ → List α) : Prop where
  exists_eq : ∀ k, ∃ w, name k = mark :: w ∧ mark ∉ w
  eq_of_prefix : ∀ i j, name i <+: name j → i = j

/-! ## One pass -/

section

variable [DecidableEq α] {t v s r w : List α} {a mark : α}

theorem replaceAll_cons_of_ne (h : ¬t <+: a :: s) :
    replaceAll t v (a :: s) = a :: replaceAll t v s := if_neg h

theorem replaceLoop_skip (r s : List α) : replaceLoop t v r.length (r ++ s) = replaceAll t v s := by
  induction r with
  | nil => rfl
  | cons b r ih => exact ih

theorem replaceAll_append (ht : t ≠ []) (v s : List α) :
    replaceAll t v (t ++ s) = v ++ replaceAll t v s := by
  obtain ⟨a, w, rfl⟩ := exists_cons_of_ne_nil ht
  have hpre : (a :: w) <+: a :: (w ++ s) := prefix_append (a :: w) s
  rw [cons_append, replaceAll, replaceLoop, if_pos hpre, length_cons,
    Nat.add_sub_cancel, replaceLoop_skip]

theorem mem_of_mem_replaceLoop {n : ℕ} (h : a ∈ replaceLoop t v n s) : a ∈ v ∨ a ∈ s := by
  induction s generalizing n with
  | nil => cases n <;> cases h
  | cons b s ih =>
    cases n with
    | succ n => exact (ih h).imp_right (mem_cons_of_mem b)
    | zero =>
      rw [replaceLoop] at h
      split at h
      · rcases mem_append.mp h with h | h
        · exact .inl h
        · exact (ih h).imp_right (mem_cons_of_mem b)
      · rcases mem_cons.mp h with rfl | h
        · exact .inr mem_cons_self
        · exact (ih h).imp_right (mem_cons_of_mem b)

theorem mem_of_mem_replaceAll (h : a ∈ replaceAll t v s) : a ∈ v ∨ a ∈ s :=
  mem_of_mem_replaceLoop h

theorem replaceAll_append_of_notMem (hmark : mark ∉ r) (s : List α) :
    replaceAll (mark :: w) v (r ++ s) = r ++ replaceAll (mark :: w) v s := by
  induction r with
  | nil => rfl
  | cons b r ih =>
    rw [mem_cons, not_or] at hmark
    have hpre : ¬(mark :: w) <+: b :: (r ++ s) := fun h => hmark.1 (cons_prefix_cons.mp h).1
    rw [cons_append, replaceAll_cons_of_ne hpre, ih hmark.2, cons_append]

end

/-! ## Symbols and names -/

section

variable {name value value' : κ → List α} {done : List κ} {ps : List (α ⊕ κ)} {mark a : α} {k : κ}

@[simp]
theorem render_nil : render name [] = [] := rfl

@[simp]
theorem render_inl (a : α) (ps : List (α ⊕ κ)) :
    render name (Sum.inl a :: ps) = a :: render name ps := rfl

@[simp]
theorem render_inr (k : κ) (ps : List (α ⊕ κ)) :
    render name (Sum.inr k :: ps) = name k ++ render name ps := rfl

theorem render_append (ps qs : List (α ⊕ κ)) :
    render name (ps ++ qs) = render name ps ++ render name qs := flatMap_append

@[simp]
theorem render_map_inl (s : List α) : render name (s.map Sum.inl) = s := by
  induction s with
  | nil => rfl
  | cons a s ih => rw [map_cons, render_inl, ih]

/-- What a text without marks finds in front of it are symbols. -/
theorem map_inl_prefix (hname : Marked mark name) {w : List α} (hw : mark ∉ w)
    (h : w <+: render name ps) : w.map Sum.inl <+: ps := by
  induction w generalizing ps with
  | nil => exact List.nil_prefix
  | cons b w ih =>
    rw [mem_cons, not_or] at hw
    cases ps with
    | nil => exact absurd (prefix_nil.mp h) (cons_ne_nil b w)
    | cons p ps =>
      cases p with
      | inl a =>
        obtain ⟨rfl, hrest⟩ := cons_prefix_cons.mp h
        exact cons_prefix_cons.mpr ⟨rfl, ih hw.2 hrest⟩
      | inr k =>
        obtain ⟨u, hu, -⟩ := hname.exists_eq k
        rw [render_inr, hu] at h
        exact absurd (cons_prefix_cons.mp h).1.symm hw.1

variable [DecidableEq κ]

@[simp]
theorem expand_nil (ps : List (α ⊕ κ)) : expand value [] ps = ps := by
  induction ps with
  | nil => rfl
  | cons p ps ih =>
    rw [expand, flatMap_cons, ← expand, ih]
    cases p with
    | inl a => rfl
    | inr k => rfl

theorem expand_inl (a : α) (ps : List (α ⊕ κ)) :
    expand value done (Sum.inl a :: ps) = Sum.inl a :: expand value done ps := rfl

theorem expand_inr (k : κ) (ps : List (α ⊕ κ)) :
    expand value done (Sum.inr k :: ps) =
      (if k ∈ done then (value k).map Sum.inl else [Sum.inr k]) ++ expand value done ps := rfl

theorem expand_append (ps qs : List (α ⊕ κ)) :
    expand value done (ps ++ qs) = expand value done ps ++ expand value done qs :=
  flatMap_append

theorem expand_map_inl (s : List α) :
    expand value done (s.map Sum.inl : List (α ⊕ κ)) = s.map Sum.inl := by
  induction s with
  | nil => rfl
  | cons a s ih => rw [map_cons, expand_inl, ih]

theorem expand_expand (ps : List (α ⊕ κ)) :
    expand value [k] (expand value done ps) = expand value (done ++ [k]) ps := by
  induction ps with
  | nil => rfl
  | cons p ps ih =>
    cases p with
    | inl a => rw [expand_inl, expand_inl, expand_inl, ih]
    | inr j =>
      rw [expand_inr, expand_inr, expand_append, ih]
      congr 1
      by_cases hdone : j ∈ done
      · rw [if_pos hdone, if_pos (mem_append_left _ hdone), expand_map_inl]
      · have hiff : j ∈ done ++ [k] ↔ j ∈ [k] := mem_append.trans (or_iff_right hdone)
        rw [if_neg hdone, expand_inr, if_congr hiff rfl rfl]
        exact append_nil _

theorem expand_congr (h : ∀ k, Sum.inr k ∈ ps → value k = value' k) :
    expand value done ps = expand value' done ps := by
  induction ps with
  | nil => rfl
  | cons p ps ih =>
    rw [expand, expand, flatMap_cons, flatMap_cons, ← expand, ← expand,
      ih fun k hk => h k (mem_cons_of_mem _ hk)]
    congr 1
    cases p with
    | inl a => rfl
    | inr k => rw [Sum.elim_inr, Sum.elim_inr, h k mem_cons_self]

theorem render_expand_of_forall (h : ∀ k, Sum.inr k ∈ ps → k ∈ done) :
    render name (expand value done ps) = render value ps := by
  induction ps with
  | nil => rfl
  | cons p ps ih =>
    have hrest := ih fun k hk => h k (mem_cons_of_mem _ hk)
    cases p with
    | inl a => rw [expand_inl, render_inl, render_inl, hrest]
    | inr k =>
      rw [expand_inr, if_pos (h k mem_cons_self), render_append, render_map_inl, render_inr, hrest]

end

/-! ## The names of a text -/

section

variable [DecidableEq α] {name : κ → List α} {names : List κ} {s : List α} {k : κ}

theorem isPrefix_of_nameAt (h : nameAt name names s = some k) : name k <+: s := by
  have hmem := argmax_mem h
  rw [mem_filter] at hmem
  exact of_decide_eq_true hmem.2

theorem render_parseLoop (hname : ∀ k, name k ≠ []) (n : ℕ) (s : List α) :
    render name (parseLoop name names n s) = s.drop n := by
  induction s generalizing n with
  | nil => cases n <;> rfl
  | cons a s ih =>
    cases n with
    | succ n => exact ih n
    | zero =>
      rw [parseLoop]
      cases hat : nameAt name names (a :: s) with
      | none => exact congrArg (List.cons a) (ih 0)
      | some k =>
        obtain ⟨b, w, hw⟩ := exists_cons_of_ne_nil (hname k)
        have hpre := isPrefix_of_nameAt hat
        rw [hw] at hpre
        obtain ⟨rfl, r, rfl⟩ := cons_prefix_cons.mp hpre
        rw [render_inr, ih, hw, length_cons, Nat.add_sub_cancel, drop_left]
        rfl

theorem render_parse (hname : ∀ k, name k ≠ []) (s : List α) :
    render name (parse name names s) = s := render_parseLoop hname 0 s

end

/-! ## The passes -/

variable [DecidableEq α] [DecidableEq κ] {name value : κ → List α} {done rest : List κ}
  {ps : List (α ⊕ κ)} {mark : α} {k : κ} {v : List α}

/-- A pass replaces its name, if other text does not make that name. -/
theorem replaceAll_render (hname : Marked mark name) (hk : ¬(name k).map Sum.inl <:+: ps) :
    replaceAll (name k) (value k) (render name ps) = render name (expand value [k] ps) := by
  obtain ⟨w, hw, hmark⟩ := hname.exists_eq k
  have hne : name k ≠ [] := by
    rw [hw]
    exact cons_ne_nil _ _
  induction ps with
  | nil => rfl
  | cons p ps ih =>
    have hrest := ih fun h => hk (infix_cons h)
    cases p with
    | inl a =>
      -- a place that begins here would be made of symbols
      have hpre : ¬name k <+: a :: render name ps := by
        intro h
        rw [hw] at h
        obtain ⟨rfl, htail⟩ := cons_prefix_cons.mp h
        apply hk
        rw [hw]
        exact (cons_prefix_cons.mpr ⟨rfl, map_inl_prefix hname hmark htail⟩).isInfix
      rw [render_inl, replaceAll_cons_of_ne hpre, hrest, expand_inl, render_inl]
    | inr j =>
      rw [render_inr, expand_inr, render_append]
      by_cases hj : j = k
      · subst j
        rw [replaceAll_append hne, hrest, if_pos (mem_singleton.mpr rfl), render_map_inl]
      · -- no place begins at another name, nor inside it
        obtain ⟨u, hu, hmarku⟩ := hname.exists_eq j
        have hpre : ¬name k <+: mark :: (u ++ render name ps) := by
          intro h
          rw [← cons_append, ← hu] at h
          rcases List.prefix_or_prefix_of_prefix h (prefix_append _ _) with h | h
          · exact hj (hname.eq_of_prefix k j h).symm
          · exact hj (hname.eq_of_prefix j k h)
        have hskip : replaceAll (name k) (value k) (u ++ render name ps) =
            u ++ replaceAll (name k) (value k) (render name ps) := by
          rw [hw]
          exact replaceAll_append_of_notMem hmarku _
        rw [if_neg fun h => hj (mem_singleton.mp h), render_inr, render_nil, append_nil,
          hu, cons_append, replaceAll_cons_of_ne hpre, hskip, hrest, cons_append]

/-- The passes do what one substitution does, if no pass finds its name in other text. -/
theorem foldl_replaceAll (hname : Marked mark name)
    (h : ∀ i (hi : i < rest.length),
      ¬(name rest[i]).map Sum.inl <:+: expand value (done ++ rest.take i) ps) :
    rest.foldl (fun s k => replaceAll (name k) (value k) s) (render name (expand value done ps)) =
      render name (expand value (done ++ rest) ps) := by
  induction rest generalizing done with
  | nil => rw [append_nil]; rfl
  | cons k rest ih =>
    have hfirst : ¬(name k).map Sum.inl <:+: expand value done ps := by
      have hzero := h 0 (Nat.succ_pos _)
      rwa [take_zero, append_nil] at hzero
    have hrest := @ih (done ++ [k]) fun i hi => by
      rw [← append_cons]
      exact h (i + 1) (Nat.succ_lt_succ hi)
    rw [foldl_cons, replaceAll_render hname hfirst, expand_expand, hrest, ← append_cons]

end Substitution
