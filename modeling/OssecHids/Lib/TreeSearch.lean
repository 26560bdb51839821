import OssecHids.Lib.SiblingTree

/-!
# Searching a tree for a path

Going down into the nodes that pass a test, for the first node that may be the answer and has no
answer below it.

- `select_eq_find_paths`: the search finds the first path that passes;
- `exists_path_of_mem_tried`: a node is tried only below nodes that passed.
-/

open List

namespace SiblingTree

variable {α β : Type*}

/-- The nodes of the top list, each with its list of children. -/
def subtrees : SiblingTree α → List (α × SiblingTree α)
  | nil => []
  | node a child next => (a, child) :: next.subtrees

/-- The paths down from the top list, in depth-first order; a path stands behind those that it is
the beginning of. -/
def paths : SiblingTree α → List (List α)
  | nil => []
  | node a child next => child.paths.map (a :: ·) ++ [a] :: next.paths

variable (own answer : α → Bool)

/-- The search over the top list. -/
def select : SiblingTree α → Option α
  | nil => none
  | node a child next =>
    (if own a then child.select.or (if answer a then some a else none) else none).or next.select

/-- The nodes that the search tests, in the order of the tests. -/
def tried : SiblingTree α → List α
  | nil => []
  | node a child next =>
    a :: (if own a then child.tried else []) ++
      if (node a child nil).select own answer = none then next.tried else []

/-- A path all of whose nodes pass and that ends in a possible answer. -/
def accepts (p : List α) : Bool := p.all own && p.getLast?.any answer

variable {own answer} {t child next : SiblingTree α} {a b : α}

theorem select_node_nil : (node a child nil).select own answer =
    if own a then (child.select own answer).or (if answer a then some a else none) else none := by
  rw [select, select, Option.or_none]

theorem select_node : (node a child next).select own answer =
    ((node a child nil).select own answer).or (next.select own answer) := by
  rw [select, select_node_nil]

theorem select_eq_findSome : t.select own answer =
    t.subtrees.findSome? fun b => (node b.1 b.2 nil).select own answer := by
  induction t with
  | nil => rfl
  | node a child next _ ih =>
    rw [select_node, subtrees, findSome?_cons, ih]
    cases (node a child nil).select own answer <;> rfl

theorem ne_nil_of_mem_paths {p : List α} (hp : p ∈ t.paths) : p ≠ [] := by
  induction t with
  | nil => cases hp
  | node a child next _ ih =>
    rw [paths, mem_append, mem_map, mem_cons] at hp
    rcases hp with ⟨q, -, rfl⟩ | rfl | hp
    · exact cons_ne_nil a q
    · exact cons_ne_nil a []
    · exact ih hp

theorem accepts_cons {p : List α} (hp : p ≠ []) :
    accepts own answer (a :: p) = (own a && accepts own answer p) := by
  have hlast : (a :: p).getLast? = p.getLast? := by
    rw [getLast?_cons, getLast?_eq_some_getLast hp, Option.getD_some]
  rw [accepts, accepts, hlast, all_cons, Bool.and_assoc]

theorem find_map_cons (own answer : α → Bool) (a : α) {ps : List (List α)} (hps : ∀ p ∈ ps, p ≠ []) :
    ((ps.map (a :: ·)).find? (accepts own answer)).bind List.getLast? =
      if own a then (ps.find? (accepts own answer)).bind List.getLast? else none := by
  induction ps with
  | nil => simp
  | cons p ps ih =>
    have hp : p ≠ [] := hps p mem_cons_self
    rw [map_cons, find?_cons, find?_cons, accepts_cons hp]
    cases ha : own a with
    | false => simpa [ha] using ih fun q hq => hps q (mem_cons_of_mem _ hq)
    | true =>
      cases hacc : accepts own answer p with
      | false => simpa [ha] using ih fun q hq => hps q (mem_cons_of_mem _ hq)
      | true => simp [getLast?_cons, getLast?_eq_some_getLast hp]

/-- The search finds the end of the first path that passes. -/
theorem select_eq_find_paths :
    t.select own answer = (t.paths.find? (accepts own answer)).bind List.getLast? := by
  induction t with
  | nil => rfl
  | node a child next ihc ihn =>
    have hchild := find_map_cons own answer a
      fun p (hp : p ∈ child.paths) => ne_nil_of_mem_paths hp
    rw [← ihc] at hchild
    rw [select, paths, find?_append, find?_cons]
    -- the paths through `a` come before those through its later siblings
    cases hfound : (child.paths.map (a :: ·)).find? (accepts own answer) with
    | some p =>
      have hne : ∃ b, p.getLast? = some b := by
        obtain ⟨q, -, rfl⟩ := mem_map.mp (mem_of_find?_eq_some hfound)
        exact ⟨_, getLast?_cons⟩
      obtain ⟨b, hb⟩ := hne
      rw [hfound] at hchild
      cases ha : own a with
      | false => rw [ha] at hchild; simp [hb] at hchild
      | true =>
        rw [ha] at hchild
        simp only [Option.bind_some, if_true, hb] at hchild
        simp [← hchild, hb]
    | none =>
      rw [hfound] at hchild
      have haccept : accepts own answer [a] = (own a && answer a) := by simp [accepts]
      rw [Option.none_or, haccept]
      cases ha : own a with
      | false => simpa using ihn
      | true =>
        rw [ha, if_pos rfl] at hchild
        rw [if_pos rfl, ← hchild]
        cases answer a with
        | false => simpa using ihn
        | true => simp

/-- A node is tried only below nodes that passed. -/
theorem exists_path_of_mem_tried (h : b ∈ t.tried own answer) :
    ∃ p, p ++ [b] ∈ t.paths ∧ ∀ c ∈ p, own c := by
  induction t with
  | nil => cases h
  | node a child next ihc ihn =>
    rw [tried, mem_append, mem_cons] at h
    rcases h with (rfl | h) | h
    · refine ⟨[], ?_, nofun⟩
      exact mem_append_right _ mem_cons_self
    · split at h
      case isTrue ha =>
        obtain ⟨p, hp, hall⟩ := ihc h
        refine ⟨a :: p, ?_, ?_⟩
        · exact mem_append_left _ (mem_map.mpr ⟨p ++ [b], hp, rfl⟩)
        · intro c hc
          rcases mem_cons.mp hc with rfl | hc
          · exact ha
          · exact hall c hc
      case isFalse => cases h
    · split at h
      case isTrue =>
        obtain ⟨p, hp, hall⟩ := ihn h
        exact ⟨p, mem_append_right _ (mem_cons_of_mem _ hp), hall⟩
      case isFalse => cases h

end SiblingTree
