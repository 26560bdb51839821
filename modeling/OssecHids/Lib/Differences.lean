import Mathlib.Data.List.Perm.Basic

/-!
# The differences between two lists

Old entries are compared with new ones. Each old entry is paired with the first new entry that is
the same thing and has not been paired before, so that things that occur several times are paired
one to one; what stays alone has been removed or added.

- `applyAll_differences`: the differences turn the old entries into the new ones;
- `differences_self`: nothing differs from itself.
-/

open List Option

namespace Differences

variable {α : Type*}

/-- One difference. -/
inductive Change (α : Type*) where
  | removed (o : α)
  | added (n : α)
  | modified (o n : α)
deriving DecidableEq

/-- The first new entry with a property that has no pair, and the entries after it has got one. -/
def pairFirst (p : α → Bool) : List (α × Bool) → Option (α × List (α × Bool))
  | [] => none
  | (n, paired) :: news =>
    if paired || !p n then (pairFirst p news).map fun found => (found.1, (n, paired) :: found.2)
    else some (n, (n, true) :: news)

/-- The new entries without a pair. -/
def unpaired (news : List (α × Bool)) : List α := (news.filter fun n => !n.2).map Prod.fst

variable {p : α → Bool} {n : α} {news news' : List (α × Bool)}

@[simp]
theorem unpaired_nil : unpaired ([] : List (α × Bool)) = [] := rfl

@[simp]
theorem unpaired_cons_true (n : α) (news : List (α × Bool)) :
    unpaired ((n, true) :: news) = unpaired news := rfl

@[simp]
theorem unpaired_cons_false (n : α) (news : List (α × Bool)) :
    unpaired ((n, false) :: news) = n :: unpaired news := rfl

theorem unpaired_map_false (ns : List α) : unpaired (ns.map (·, false)) = ns := by
  induction ns with
  | nil => rfl
  | cons n ns ih => rw [map_cons, unpaired_cons_false, ih]

theorem unpaired_map_true (ns : List α) : unpaired (ns.map (·, true)) = [] := by
  induction ns with
  | nil => rfl
  | cons n ns ih => rw [map_cons, unpaired_cons_true, ih]

/-- A pair takes one of the entries that had none. -/
theorem perm_of_pairFirst (h : pairFirst p news = some (n, news')) :
    p n = true ∧ (n :: unpaired news').Perm (unpaired news) := by
  induction news generalizing news' with
  | nil => cases h
  | cons entry news ih =>
    obtain ⟨m, paired⟩ := entry
    rw [pairFirst] at h
    split at h
    case isTrue hskip =>
      obtain ⟨found, hfound, heq⟩ := map_eq_some_iff.mp h
      cases heq
      obtain ⟨hp, hperm⟩ := ih hfound
      refine ⟨hp, ?_⟩
      cases paired with
      | true => exact hperm
      | false =>
        rw [unpaired_cons_false, unpaired_cons_false]
        exact (List.Perm.swap _ _ _).trans (hperm.cons _)
    case isFalse htake =>
      cases h
      cases paired with
      | true => simp at htake
      | false =>
        refine ⟨by simpa using htake, ?_⟩
        rw [unpaired_cons_true, unpaired_cons_false]

theorem pairFirst_append (hp : p n = true) (ns : List α) (news : List (α × Bool)) :
    pairFirst p (ns.map (·, true) ++ (n, false) :: news) =
      some (n, ns.map (·, true) ++ (n, true) :: news) := by
  induction ns with
  | nil => simp [pairFirst, hp]
  | cons m ns ih => simp [pairFirst, ih]

variable [DecidableEq α] (same : α → α → Bool)

/-- What becomes of one old entry. -/
def compareOld (o : α) (news : List (α × Bool)) : List (Change α) × List (α × Bool) :=
  match pairFirst (same o) news with
  | none => ([.removed o], news)
  | some (n, news') => (if o = n then [] else [.modified o n], news')

/-- What becomes of the old entries, one after the other. -/
def compareAll : List α → List (α × Bool) → List (Change α) × List (α × Bool)
  | [], news => ([], news)
  | o :: olds, news =>
    let first := compareOld same o news
    let later := compareAll olds first.2
    (first.1 ++ later.1, later.2)

/-- The differences: first what has become of the old entries, then the new ones without a pair. -/
def differences (olds news : List α) : List (Change α) :=
  let compared := compareAll same olds (news.map (·, false))
  compared.1 ++ (unpaired compared.2).map .added

/-! ## Applying the differences -/

/-- What a difference makes of some entries. The entry that it takes away has to be there. -/
def Change.apply (l : List α) : Change α → Option (List α)
  | .removed o => if o ∈ l then some (l.erase o) else none
  | .added n => some (n :: l)
  | .modified o n => if o ∈ l then some (n :: l.erase o) else none

/-- What differences make of some entries, one after the other. -/
def applyAll (l : List α) (cs : List (Change α)) : Option (List α) := cs.foldlM Change.apply l

variable {o : α} {l r olds : List α}

theorem applyAll_cons (l : List α) (c : Change α) (cs : List (Change α)) :
    applyAll l (c :: cs) = (c.apply l).bind (applyAll · cs) := foldlM_cons

theorem applyAll_append (l : List α) (cs ds : List (Change α)) :
    applyAll l (cs ++ ds) = (applyAll l cs).bind (applyAll · ds) := foldlM_append

theorem applyAll_added (l ns : List α) :
    applyAll l (ns.map .added) = some (ns.reverse ++ l) := by
  induction ns generalizing l with
  | nil => rfl
  | cons n ns ih =>
    rw [map_cons, applyAll_cons, Change.apply, bind_some, ih, reverse_cons,
      append_assoc, singleton_append]

theorem apply_removed (h : l.Perm (o :: r)) :
    ∃ l', (Change.removed o).apply l = some l' ∧ l'.Perm r := by
  refine ⟨l.erase o, if_pos (h.mem_iff.mpr mem_cons_self), ?_⟩
  have herase := h.erase o
  rwa [erase_cons_head] at herase

theorem apply_modified (n : α) (h : l.Perm (o :: r)) :
    ∃ l', (Change.modified o n).apply l = some l' ∧ l'.Perm (n :: r) := by
  obtain ⟨l', happly, hperm⟩ := apply_removed h
  refine ⟨n :: l.erase o, if_pos (h.mem_iff.mpr mem_cons_self), ?_⟩
  rw [Change.apply, if_pos (h.mem_iff.mpr mem_cons_self)] at happly
  rw [some.inj happly]
  exact hperm.cons n

/-- The old entries that have been compared are replaced by their pairs; those that have not, and
what else there is, stay. -/
theorem applyAll_compareAll (news : List (α × Bool)) (hl : l.Perm (olds ++ r)) :
    ∃ l', applyAll l (compareAll same olds news).1 = some l' ∧
      (l' ++ unpaired (compareAll same olds news).2).Perm (r ++ unpaired news) := by
  induction olds generalizing l r news with
  | nil => exact ⟨l, rfl, hl.append_right _⟩
  | cons o olds ih =>
    -- what is left to be compared, with the entry that is looked at behind it
    have hnext : ∀ n, (n :: (olds ++ r)).Perm (olds ++ n :: r) := fun n => perm_middle.symm
    simp only [compareAll, compareOld]
    cases hpair : pairFirst (same o) news with
    | none =>
      obtain ⟨l₁, happly, hl₁⟩ := apply_removed hl
      obtain ⟨l', hall, hperm⟩ := ih news hl₁
      refine ⟨l', ?_, hperm⟩
      rw [singleton_append, applyAll_cons, happly, bind_some, hall]
    | some found =>
      obtain ⟨n, news'⟩ := found
      obtain ⟨-, hunpaired⟩ := perm_of_pairFirst hpair
      -- the pair is among the entries of the end
      have hmove : ((n :: r) ++ unpaired news').Perm (r ++ unpaired news) :=
        perm_middle.symm.trans (hunpaired.append_left r)
      dsimp only
      split
      case isTrue heq =>
        subst heq
        obtain ⟨l', hall, hperm⟩ := ih news' (hl.trans (hnext o))
        exact ⟨l', hall, hperm.trans hmove⟩
      case isFalse =>
        obtain ⟨l₁, happly, hl₁⟩ := apply_modified n hl
        obtain ⟨l', hall, hperm⟩ := ih news' (hl₁.trans (hnext n))
        refine ⟨l', ?_, hperm.trans hmove⟩
        rw [singleton_append, applyAll_cons, happly, bind_some, hall]

theorem applyAll_differences (olds news : List α) :
    ∃ l, applyAll olds (differences same olds news) = some l ∧ l.Perm news := by
  have holds : olds.Perm (olds ++ []) := by rw [append_nil]
  obtain ⟨l', hall, hperm⟩ := applyAll_compareAll same (news.map (·, false)) holds
  rw [differences, applyAll_append, hall, bind_some, applyAll_added]
  refine ⟨_, rfl, ?_⟩
  rw [nil_append, unpaired_map_false] at hperm
  exact ((reverse_perm _).append_right l').trans (perm_append_comm.trans hperm)

theorem perm_of_differences_eq_nil {news : List α} (h : differences same olds news = []) :
    olds.Perm news := by
  obtain ⟨l, hall, hperm⟩ := applyAll_differences same olds news
  rw [h] at hall
  rwa [← some.inj hall] at hperm

/-! ## Nothing differs from itself -/

variable {same}

theorem compareAll_self (hrefl : ∀ a, same a a = true) (ns olds : List α) :
    compareAll same olds (ns.map (·, true) ++ olds.map (·, false)) =
      ([], (ns ++ olds).map (·, true)) := by
  induction olds generalizing ns with
  | nil => simp [compareAll]
  | cons o olds ih =>
    have hnext := ih (ns ++ [o])
    simp only [map_append, map_cons, map_nil, append_assoc, singleton_append] at hnext
    simp only [compareAll, compareOld, map_cons, pairFirst_append (hrefl o), if_true, hnext,
      map_append, nil_append]

theorem differences_self (hrefl : ∀ a, same a a = true) (l : List α) :
    differences same l l = [] := by
  have hself := compareAll_self hrefl [] l
  rw [map_nil, nil_append, nil_append] at hself
  rw [differences, hself, unpaired_map_true]
  rfl

end Differences
