import OssecHids.Lib.CString
import OssecHids.Lib.LinkedList
import OssecHids.Lib.Transition

/-!
# Hash tables

`hash_op.c`. The rows of a table are chains of nodes in memory; a pointer to the data of a node may
be null.

- `find_eq`: the loop over a row finds the node of a key;
- `add_spec`, `update_spec`, `delete_spec`: what the operations leave;
- `run_eq_map`: whatever the seed, the answers are those of a map.
-/

open CString LinkedList Transition List Option Function

/-! ## Prime numbers -/

/-- The inner loop of `os_getprime`: where the search for a divisor of `val` from `i` on ends. -/
def divisorFrom (val max_i : UInt32) : ℕ → UInt32 → UInt32
  | 0, i => i
  | fuel + 1, i =>
    if i ≤ max_i then
      if val % i = 0 then i else divisorFrom val max_i fuel (i + 2)
    else i

/-- The outer loop of `os_getprime`. -/
def primeFrom : ℕ → UInt32 → UInt32
  | 0, _ => 0
  | fuel + 1, val =>
    if divisorFrom val (val / 2) val.toNat 3 ≥ val / 2 then val
    else if val + 2 = 0 then 0
    else primeFrom fuel (val + 2)

/-- `os_getprime` -/
def osGetprime (val : UInt32) : UInt32 :=
  primeFrom (2 ^ 32) (if val % 2 = 0 then val + 1 else val)

/-- There are rounds enough: the numbers come back to `1`, which passes for a prime. -/
theorem primeFrom_ne_zero {fuel : ℕ} {val : UInt32} (hodd : val.toNat % 2 = 1)
    (hfuel : (2 ^ 32 + 1 - val.toNat) / 2 < fuel ∨ val = 1 ∧ 0 < fuel) :
    primeFrom fuel val ≠ 0 := by
  induction fuel generalizing val with
  | zero => omega
  | succ fuel ih =>
    rw [primeFrom]
    have hval : val ≠ 0 := by
      rintro rfl
      cases hodd
    have hlt := val.toNat_lt
    have hnext : (val + 2).toNat = (val.toNat + 2) % 2 ^ 32 := UInt32.toNat_add val 2
    split_ifs with hprime hzero
    · exact hval
    · have hzero' := congrArg UInt32.toNat hzero
      rw [hnext] at hzero'
      change (val.toNat + 2) % 2 ^ 32 = 0 at hzero'
      omega
    · rcases hfuel with hfuel | ⟨rfl, -⟩
      · apply ih
        · omega
        · by_cases hwrap : val.toNat + 2 < 2 ^ 32
          · left
            omega
          · right
            refine ⟨UInt32.toNat_inj.mp ?_, by omega⟩
            rw [hnext]
            change (val.toNat + 2) % 2 ^ 32 = 1
            omega
      · refine absurd ?_ hprime
        cases fuel <;> decide

theorem osGetprime_ne_zero (val : UInt32) : osGetprime val ≠ 0 := by
  rw [osGetprime]
  have hlt := val.toNat_lt
  split_ifs with heven
  · have heven' := congrArg UInt32.toNat heven
    rw [UInt32.toNat_mod] at heven'
    change val.toNat % 2 = 0 at heven'
    have hnext : (val + 1).toNat = (val.toNat + 1) % 2 ^ 32 := UInt32.toNat_add val 1
    apply primeFrom_ne_zero
    · omega
    · left
      omega
  · have hodd : val.toNat % 2 = 1 := by
      by_contra h
      apply heven
      apply UInt32.toNat_inj.mp
      rw [UInt32.toNat_mod]
      change val.toNat % 2 = 0
      omega
    apply primeFrom_ne_zero hodd
    left
    omega

/-! ## The table -/

/-- `OSHashNode` -/
structure OSHashNode (α : Type) where
  next : Option ℕ
  key : Bytes
  data : Option α

/-- `OSHash`, with the memory that its nodes are in. -/
structure OSHash (α : Type) where
  rows : UInt32
  initial_seed : UInt32
  constant : UInt32
  table : ℕ → Option ℕ
  nodes : ℕ → Option (OSHashNode α)
  /-- The address that the next node gets. -/
  fresh : ℕ

namespace OSHash

variable {α : Type}

/-- `OSHASH_PRIME` -/
def prime : UInt32 := 4294967291

/-- `_os_genseed`, with what the random generator gives, if it gives anything. -/
def osGenseed (self : OSHash α) (secret : Option (UInt32 × UInt32)) : Option (OSHash α) :=
  secret.map fun s =>
    { self with initial_seed := s.1 % prime, constant := 256 + s.2 % (prime - 256) }

/-- `OSHash_Create` -/
def create (secret : Option (UInt32 × UInt32)) : Option (OSHash α) :=
  let rows := osGetprime 1024
  if rows = 0 then none
  else
    osGenseed
      { rows := rows, initial_seed := 0, constant := 0,
        table := fun _ => none, nodes := fun _ => none, fresh := 0 }
      secret

/-- `OSHash_setSize`, without a table when it answers `0`. -/
def setSize (self : OSHash α) (new_size : UInt32) (secret : Option (UInt32 × UInt32)) :
    Option (OSHash α) :=
  if new_size ≤ self.rows then some self
  else
    let rows := osGetprime new_size
    if rows = 0 then none
    else osGenseed { self with rows := rows, table := fun _ => none } secret

/-- `_os_genhash` -/
def osGenhash (self : OSHash α) (key : Bytes) : UInt32 :=
  (key.foldl (fun hash_key b =>
    (hash_key * self.constant.toUInt64 + b.toUInt64) % prime.toUInt64)
    self.initial_seed.toUInt64).toUInt32

/-- The row of a key. -/
def index (self : OSHash α) (key : Bytes) : ℕ := (self.osGenhash key % self.rows).toNat

/-- The loop over a row that stops at the node with the key. -/
def find (self : OSHash α) (key : Bytes) : Option (ℕ × OSHashNode α) :=
  walk self.nodes OSHashNode.next (fun n => n.key == key) self.fresh (self.table (self.index key))

/-- `OSHash_Update` -/
def update (self : OSHash α) (key : Bytes) (data : Option α) : ℕ × OSHash α :=
  match self.find key with
  | some (curr_node, n) =>
    (1, { self with
      nodes := Function.update self.nodes curr_node (some { n with data := data }) })
  | none => (0, self)

/-- `OSHash_Add`, with whether there is memory for the node and for its key. -/
def add (self : OSHash α) (key : Bytes) (data : Option α) (calloc strdup : Bool) :
    ℕ × OSHash α :=
  match self.find key with
  | some _ => (1, self)
  | none =>
    if !calloc then (0, self)
    else if !strdup then (0, self)
    else
      let index := self.index key
      let new_node : OSHashNode α := { next := none, key := key, data := data }
      let new_node :=
        if (self.table index).isNone then new_node
        else { new_node with next := self.table index }
      (2, { self with
        table := Function.update self.table index (some self.fresh)
        nodes := Function.update self.nodes self.fresh (some new_node)
        fresh := self.fresh + 1 })

/-- `OSHash_Get` -/
def get (self : OSHash α) (key : Bytes) : Option α := (self.find key).bind fun c => c.2.data

/-- What `OSHash_Delete` does to the node that it has found, with the address of the node before. -/
def unlink (self : OSHash α) (index curr_node : ℕ) (n : OSHashNode α) : Option ℕ → OSHash α
  | none =>
    { self with
      table := Function.update self.table index n.next
      nodes := Function.update self.nodes curr_node none }
  | some prev_node =>
    { self with
      nodes := Function.update
        (Function.update self.nodes prev_node
          ((self.nodes prev_node).map fun p => { p with next := n.next }))
        curr_node none }

/-- `OSHash_Delete` -/
def delete (self : OSHash α) (key : Bytes) : Option α × OSHash α :=
  let index := self.index key
  match walkFrom self.nodes OSHashNode.next (fun n => n.key == key) self.fresh none
      (self.table index) with
  | none => (none, self)
  | some (prev_node, curr_node, n) => (n.data, self.unlink index curr_node n prev_node)

/-! ## Well-formed tables -/

/-- The nodes of the rows: every node is in the row of its key, and no key is there twice. -/
structure Rows (t : OSHash α) (cells : ℕ → List (ℕ × OSHashNode α)) : Prop where
  chain : ∀ i, Chain t.nodes OSHashNode.next (t.table i) (cells i)
  index : ∀ i, ∀ c ∈ cells i, t.index c.2.key = i
  nodup : ∀ i, ((cells i).map fun c => c.2.key).Nodup
  lt_fresh : ∀ i, ∀ c ∈ cells i, c.1 < t.fresh

/-- The rows hold their nodes. -/
def WellFormed (self : OSHash α) : Prop := ∃ cells, self.Rows cells

/-- The map that a table stands for: a key that is there has its data, or the null pointer. -/
def toMap (self : OSHash α) (key : Bytes) : Option (Option α) :=
  (self.find key).map fun c => c.2.data

/-- The entries of a row. -/
def entries (l : List (ℕ × OSHashNode α)) : List (Bytes × Option α) :=
  l.map fun c => (c.2.key, c.2.data)

theorem entries_append (l₁ l₂ : List (ℕ × OSHashNode α)) :
    entries (l₁ ++ l₂) = entries l₁ ++ entries l₂ := map_append

theorem lookup_entries_eq_none {l : List (ℕ × OSHashNode α)} {key : Bytes}
    (h : ∀ c ∈ l, c.2.key ≠ key) : (entries l).lookup key = none := by
  rw [lookup_eq_none_iff]
  intro e he
  obtain ⟨c, hc, rfl⟩ := mem_map.mp he
  simpa using (h c hc).symm

theorem lookup_entries_eq_find? (l : List (ℕ × OSHashNode α)) (key : Bytes) :
    (entries l).lookup key = (l.find? fun c => c.2.key == key).map fun c => c.2.data := by
  induction l with
  | nil => rfl
  | cons c l ih =>
    rw [entries, map_cons, lookup_cons, find?_cons]
    by_cases hc : c.2.key = key
    · simp [hc]
    · have hkey : (key == c.2.key) = false := by simpa using Ne.symm hc
      have hkey' : (c.2.key == key) = false := by simpa using hc
      rw [hkey, hkey']
      exact ih

section Rows

variable {self : OSHash α} {cells : ℕ → List (ℕ × OSHashNode α)} {key : Bytes}

namespace Rows

theorem length_le (h : self.Rows cells) (i : ℕ) : (cells i).length ≤ self.fresh :=
  (h.chain i).length_le (h.lt_fresh i)

theorem find_eq (h : self.Rows cells) (key : Bytes) :
    self.find key = (cells (self.index key)).find? fun c => c.2.key == key :=
  walk_eq (h.chain _) (h.length_le _)

theorem toMap_eq (h : self.Rows cells) (key : Bytes) :
    self.toMap key = (entries (cells (self.index key))).lookup key := by
  rw [toMap, h.find_eq, lookup_entries_eq_find?]

theorem notMem_of_ne (h : self.Rows cells) {i j : ℕ} {c : ℕ × OSHashNode α} (hc : c ∈ cells i)
    (hij : j ≠ i) : c.1 ∉ (cells j).map Prod.fst := by
  intro hmem
  obtain ⟨c', hc', hcc⟩ := mem_map.mp hmem
  have hcell := (h.chain j).cell c' hc'
  rw [hcc, (h.chain i).cell c hc] at hcell
  have hi := h.index i c hc
  rw [some.inj hcell, h.index j c' hc'] at hi
  exact hij hi

theorem fresh_notMem (h : self.Rows cells) (i : ℕ) : self.fresh ∉ (cells i).map Prod.fst := by
  intro hmem
  obtain ⟨c, hc, heq⟩ := mem_map.mp hmem
  exact absurd (h.lt_fresh i c hc) (by omega)

theorem exists_split (h : self.Rows cells) {c : ℕ × OSHashNode α} (hc : self.find key = some c) :
    ∃ l₁ l₂, cells (self.index key) = l₁ ++ c :: l₂ ∧ c.2.key = key ∧
      (∀ d ∈ l₁, d.2.key ≠ key) ∧ ∀ d ∈ l₂, d.2.key ≠ key := by
  rw [h.find_eq, find?_eq_some_iff_append] at hc
  obtain ⟨hkey, l₁, l₂, hsplit, hl₁⟩ := hc
  have hkey : c.2.key = key := by simpa using hkey
  refine ⟨l₁, l₂, hsplit, hkey, fun d hd => by simpa using hl₁ d hd, fun d hd heq => ?_⟩
  have hnodup := h.nodup (self.index key)
  rw [hsplit, map_append, map_cons] at hnodup
  apply (nodup_cons.mp hnodup.of_append_right).1
  rw [hkey, ← heq]
  exact mem_map_of_mem hd

variable {t' : OSHash α} {row : List (ℕ × OSHashNode α)} {v : Option (Option α)}

/-- A write that only touches the row of one key. -/
theorem replace (h : self.Rows cells) (hindex : t'.index = self.index)
    (htable : ∀ i ≠ self.index key, t'.table i = self.table i)
    (hnodes : ∀ i ≠ self.index key, ∀ c ∈ cells i, t'.nodes c.1 = self.nodes c.1)
    (hchain : Chain t'.nodes OSHashNode.next (t'.table (self.index key)) row)
    (hrow : ∀ c ∈ row, self.index c.2.key = self.index key)
    (hnodup : (row.map fun c => c.2.key).Nodup)
    (hfresh : self.fresh ≤ t'.fresh) (hrow_fresh : ∀ c ∈ row, c.1 < t'.fresh) :
    t'.Rows (Function.update cells (self.index key) row) where
  chain := fun i => by
    by_cases hi : i = self.index key
    · subst hi
      rwa [update_self]
    · rw [update_of_ne hi, htable i hi]
      exact (h.chain i).congr (hnodes i hi)
  index := fun i c hc => by
    rw [hindex]
    by_cases hi : i = self.index key
    · subst hi
      rw [update_self] at hc
      exact hrow c hc
    · rw [update_of_ne hi] at hc
      exact h.index i c hc
  nodup := fun i => by
    by_cases hi : i = self.index key
    · subst hi
      rwa [update_self]
    · rw [update_of_ne hi]
      exact h.nodup i
  lt_fresh := fun i c hc => by
    by_cases hi : i = self.index key
    · subst hi
      rw [update_self] at hc
      exact hrow_fresh c hc
    · rw [update_of_ne hi] at hc
      exact lt_of_lt_of_le (h.lt_fresh i c hc) hfresh

/-- The map changes at the key only, when the other entries of its row stay. -/
theorem toMap_replace (h : self.Rows cells)
    (h' : t'.Rows (Function.update cells (self.index key) row)) (hindex : t'.index = self.index)
    (hrow : ∀ k, (entries row).lookup k =
      if k = key then v else (entries (cells (self.index key))).lookup k) :
    t'.toMap = Function.update self.toMap key v := by
  funext k
  rw [h'.toMap_eq, hindex]
  by_cases hk : k = key
  · subst hk
    rw [update_self, update_self, hrow, if_pos rfl]
  · rw [update_of_ne hk, h.toMap_eq]
    by_cases hi : self.index k = self.index key
    · rw [hi, update_self, hrow, if_neg hk]
    · rw [update_of_ne hi]

end Rows

end Rows

/-! ## The operations -/

/-- `OSHash_Add` on a map: a key that is there keeps its data. -/
def mapAdd (m : Bytes → Option (Option α)) (key : Bytes) (data : Option α) (memory : Bool) :
    ℕ × (Bytes → Option (Option α)) :=
  if (m key).isSome then (1, m)
  else if memory then (2, Function.update m key (some data))
  else (0, m)

/-- `OSHash_Update` on a map. -/
def mapUpdate (m : Bytes → Option (Option α)) (key : Bytes) (data : Option α) :
    ℕ × (Bytes → Option (Option α)) :=
  if (m key).isSome then (1, Function.update m key (some data)) else (0, m)

/-- `OSHash_Get` on a map. -/
def mapGet (m : Bytes → Option (Option α)) (key : Bytes) : Option α := (m key).join

/-- `OSHash_Delete` on a map. -/
def mapDelete (m : Bytes → Option (Option α)) (key : Bytes) :
    Option α × (Bytes → Option (Option α)) :=
  ((m key).join, Function.update m key none)

variable {self : OSHash α} {key : Bytes}

theorem get_eq (self : OSHash α) (key : Bytes) :
    self.get key = mapGet self.toMap key := by
  rw [get, mapGet, toMap]
  cases self.find key <;> rfl

theorem isSome_toMap (self : OSHash α) (key : Bytes) :
    (self.toMap key).isSome = (self.find key).isSome := by
  rw [toMap, isSome_map]

/-- The table after a new node was put in front of its row. -/
theorem Rows.push {cells : ℕ → List (ℕ × OSHashNode α)} {t' : OSHash α}
    (h : self.Rows cells) (habsent : ∀ c ∈ cells (self.index key), c.2.key ≠ key)
    {n : OSHashNode α} (hkey : n.key = key) (hnext : n.next = self.table (self.index key))
    (ht' : t' = { self with
      table := Function.update self.table (self.index key) (some self.fresh)
      nodes := Function.update self.nodes self.fresh (some n)
      fresh := self.fresh + 1 }) :
    t'.WellFormed ∧ t'.toMap = Function.update self.toMap key (some n.data) := by
  have hindex : t'.index = self.index := by rw [ht']; rfl
  have hrows : t'.Rows (Function.update cells (self.index key)
      ((self.fresh, n) :: cells (self.index key))) := by
    apply h.replace hindex
    · intro i hi
      rw [ht']
      exact update_of_ne hi ..
    · intro i _ c hc
      rw [ht']
      exact update_of_ne (Nat.ne_of_lt (h.lt_fresh i c hc)) ..
    · have hrest := (h.chain (self.index key)).update (h.fresh_notMem _) (some n)
      rw [← hnext] at hrest
      rw [ht']
      dsimp only
      rw [update_self]
      exact .cons (update_self ..) hrest
    · intro c hc
      rcases mem_cons.mp hc with rfl | hc
      · rw [hkey]
      · exact h.index _ c hc
    · refine nodup_cons.mpr ⟨fun hmem => ?_, h.nodup _⟩
      obtain ⟨c, hc, heq⟩ := mem_map.mp hmem
      exact habsent c hc (heq.trans hkey)
    · rw [ht']
      exact Nat.le_succ _
    · intro c hc
      rw [ht']
      rcases mem_cons.mp hc with rfl | hc
      · exact Nat.lt_succ_self _
      · exact Nat.lt_succ_of_lt (h.lt_fresh _ c hc)
  refine ⟨⟨_, hrows⟩, h.toMap_replace hrows hindex fun k => ?_⟩
  rw [entries, map_cons, lookup_cons, hkey]
  by_cases hk : k = key
  · simp [hk]
  · have hbeq : (k == key) = false := by simpa using hk
    rw [hbeq, if_neg hk]
    rfl

theorem WellFormed.add_spec (h : self.WellFormed) (key : Bytes) (data : Option α) (calloc strdup : Bool) :
    (self.add key data calloc strdup).2.WellFormed ∧
      ((self.add key data calloc strdup).1, (self.add key data calloc strdup).2.toMap) =
        mapAdd self.toMap key data (calloc && strdup) := by
  obtain ⟨cells, hrows⟩ := h
  rw [mapAdd, isSome_toMap, add]
  cases hfind : self.find key with
  | some c => exact ⟨⟨cells, hrows⟩, rfl⟩
  | none =>
    cases calloc with
    | false => exact ⟨⟨cells, hrows⟩, rfl⟩
    | true =>
      cases strdup with
      | false => exact ⟨⟨cells, hrows⟩, rfl⟩
      | true =>
        have habsent : ∀ c ∈ cells (self.index key), c.2.key ≠ key := by
          rw [hrows.find_eq, find?_eq_none] at hfind
          intro c hc
          simpa using hfind c hc
        -- in an empty row the link of the new node is null, as the head of the row was
        have hnode : ∀ n : OSHashNode α, n.next = none →
            (if (self.table (self.index key)).isNone then n
              else { n with next := self.table (self.index key) }) =
            { n with next := self.table (self.index key) } := by
          rintro ⟨_, _, _⟩ rfl
          cases self.table (self.index key) <;> rfl
        obtain ⟨hwf, hmap⟩ := hrows.push habsent
          (n := { next := self.table (self.index key), key := key, data := data }) rfl rfl rfl
        simp only [Bool.not_true, Bool.false_eq_true, if_false, Bool.and_self, if_true, hnode,
          isSome_none]
        exact ⟨hwf, by rw [hmap]⟩

/-- The table after the data of a node was replaced. -/
theorem Rows.set {cells : ℕ → List (ℕ × OSHashNode α)} {t' : OSHash α} {r : ℕ}
    {n : OSHashNode α} (h : self.Rows cells) (hfind : self.find key = some (r, n))
    (data : Option α)
    (ht' : t' = { self with
      nodes := Function.update self.nodes r (some { n with data := data }) }) :
    t'.WellFormed ∧ t'.toMap = Function.update self.toMap key (some data) := by
  obtain ⟨l₁, l₂, hsplit, hkey, hl₁, -⟩ := h.exists_split hfind
  have hmem : (r, n) ∈ cells (self.index key) := by
    rw [hsplit]
    exact mem_append_right _ mem_cons_self
  have hindex : t'.index = self.index := by rw [ht']; rfl
  have hrow := h.index (self.index key)
  have hnodup := h.nodup (self.index key)
  have hfresh := h.lt_fresh (self.index key)
  rw [hsplit] at hrow hnodup hfresh
  have hrows : t'.Rows (Function.update cells (self.index key)
      (l₁ ++ (r, { n with data := data }) :: l₂)) := by
    apply h.replace hindex
    · intro i _
      rw [ht']
    · intro i hi c hc
      rw [ht']
      apply update_of_ne
      intro heq
      apply h.notMem_of_ne hmem hi
      rw [show (r, n).1 = c.1 from heq.symm]
      exact mem_map_of_mem hc
    · have hchain := h.chain (self.index key)
      rw [hsplit] at hchain
      rw [ht']
      exact hchain.set rfl
    · intro c hc
      rcases mem_append.mp hc with hc | hc
      · exact hrow c (mem_append_left _ hc)
      · rcases mem_cons.mp hc with rfl | hc
        · exact hrow (r, n) (mem_append_right _ mem_cons_self)
        · exact hrow c (mem_append_right _ (mem_cons_of_mem _ hc))
    · simpa using hnodup
    · rw [ht']
    · intro c hc
      rw [ht']
      rcases mem_append.mp hc with hc | hc
      · exact hfresh c (mem_append_left _ hc)
      · rcases mem_cons.mp hc with rfl | hc
        · exact hfresh (r, n) (mem_append_right _ mem_cons_self)
        · exact hfresh c (mem_append_right _ (mem_cons_of_mem _ hc))
  refine ⟨⟨_, hrows⟩, h.toMap_replace hrows hindex fun k => ?_⟩
  dsimp only at hkey
  rw [hsplit, entries_append, entries_append, lookup_append, lookup_append]
  by_cases hk : k = key
  · rw [hk, lookup_entries_eq_none hl₁, if_pos rfl]
    simp [entries, hkey]
  · have hbeq : (k == n.key) = false := by simpa [hkey] using hk
    rw [if_neg hk]
    simp only [entries, map_cons, lookup_cons, hbeq]

/-- The table after a node was taken out of its row. -/
theorem Rows.remove {cells : ℕ → List (ℕ × OSHashNode α)} {t' : OSHash α}
    (l₁ l₁' : List (ℕ × OSHashNode α)) {l₂ : List (ℕ × OSHashNode α)} {c : ℕ × OSHashNode α}
    (h : self.Rows cells) (hsplit : cells (self.index key) = l₁ ++ c :: l₂) (hkey : c.2.key = key)
    (hl₁ : ∀ d ∈ l₁, d.2.key ≠ key)
    (hindex : t'.index = self.index)
    (htable : ∀ i ≠ self.index key, t'.table i = self.table i)
    (hnodes : ∀ i ≠ self.index key, ∀ d ∈ cells i, t'.nodes d.1 = self.nodes d.1)
    (hchain : Chain t'.nodes OSHashNode.next (t'.table (self.index key)) (l₁' ++ l₂))
    (hl₁' : entries l₁' = entries l₁)
    (hfresh : self.fresh ≤ t'.fresh) (hrow_fresh : ∀ d ∈ l₁' ++ l₂, d.1 < t'.fresh) :
    t'.Rows (Function.update cells (self.index key) (l₁' ++ l₂)) ∧
      t'.toMap = Function.update self.toMap key none := by
  have hkeys : l₁'.map (fun d => d.2.key) = l₁.map fun d => d.2.key := by
    have hfst := congrArg (List.map Prod.fst) hl₁'
    rwa [entries, entries, List.map_map, List.map_map] at hfst
  have hrow := h.index (self.index key)
  have hnodup := h.nodup (self.index key)
  rw [hsplit] at hrow hnodup
  rw [map_append, map_cons] at hnodup
  have hrows : t'.Rows (Function.update cells (self.index key) (l₁' ++ l₂)) := by
    refine h.replace hindex htable hnodes hchain ?_ ?_ hfresh hrow_fresh
    · intro d hd
      have hd : d.2.key ∈ (l₁ ++ c :: l₂).map fun d => d.2.key := by
        have hd := mem_map_of_mem (f := fun d => d.2.key) hd
        rw [map_append, hkeys] at hd
        rw [map_append, map_cons]
        rcases mem_append.mp hd with hd | hd
        · exact mem_append_left _ hd
        · exact mem_append_right _ (mem_cons_of_mem _ hd)
      obtain ⟨d', hd', heq⟩ := mem_map.mp hd
      rw [← heq]
      exact hrow d' hd'
    · rw [map_append, hkeys]
      exact hnodup.sublist ((sublist_cons_self ..).append_left _)
  refine ⟨hrows, h.toMap_replace hrows hindex fun k => ?_⟩
  rw [hsplit, entries_append, entries_append, hl₁', lookup_append, lookup_append]
  by_cases hk : k = key
  · -- the key is there once
    have hl₂ : ∀ d ∈ l₂, d.2.key ≠ key := by
      intro d hd heq
      apply (nodup_cons.mp hnodup.of_append_right).1
      rw [hkey, ← heq]
      exact mem_map_of_mem hd
    rw [hk, lookup_entries_eq_none hl₁, lookup_entries_eq_none hl₂, if_pos rfl]
    rfl
  · have hbeq : (k == c.2.key) = false := by simpa [hkey] using hk
    rw [if_neg hk]
    simp only [entries, map_cons, lookup_cons, hbeq]

theorem WellFormed.update_spec (h : self.WellFormed) (key : Bytes) (data : Option α) :
    (self.update key data).2.WellFormed ∧
      ((self.update key data).1, (self.update key data).2.toMap) =
        mapUpdate self.toMap key data := by
  obtain ⟨cells, hrows⟩ := h
  rw [mapUpdate, isSome_toMap, update]
  cases hfind : self.find key with
  | none => exact ⟨⟨cells, hrows⟩, rfl⟩
  | some c =>
    obtain ⟨hwf, hmap⟩ := hrows.set hfind data rfl
    simp only [isSome_some, if_true]
    exact ⟨hwf, by rw [hmap]⟩

/-- The table after a node was taken out, when `l₁` are the nodes of its row before it. -/
theorem Rows.unlink {cells : ℕ → List (ℕ × OSHashNode α)} {l₁ l₂ : List (ℕ × OSHashNode α)}
    {r : ℕ} {n : OSHashNode α} (h : self.Rows cells)
    (hsplit : cells (self.index key) = l₁ ++ (r, n) :: l₂) (hkey : n.key = key)
    (hl₁ : ∀ d ∈ l₁, d.2.key ≠ key) :
    ∃ l₁', (self.unlink (self.index key) r n (l₁.getLast?.map Prod.fst)).Rows
        (Function.update cells (self.index key) (l₁' ++ l₂)) ∧
      (self.unlink (self.index key) r n (l₁.getLast?.map Prod.fst)).toMap =
        Function.update self.toMap key none ∧ entries l₁' = entries l₁ := by
  have hchain := h.chain (self.index key)
  have hfresh := h.lt_fresh (self.index key)
  rw [hsplit] at hchain hfresh
  have hother : ∀ i ≠ self.index key, ∀ d ∈ cells i, ∀ e ∈ l₁ ++ (r, n) :: l₂, d.1 ≠ e.1 := by
    intro i hi d hd e he heq
    rw [← hsplit] at he
    exact h.notMem_of_ne he hi (heq ▸ mem_map_of_mem hd)
  rcases eq_nil_or_concat l₁ with rfl | ⟨l, ⟨s, m⟩, rfl⟩
  · -- the node is the first of its row
    refine ⟨[], and_assoc.mp ⟨?_, rfl⟩⟩
    refine h.remove [] [] hsplit hkey hl₁ ?_ ?_ ?_ ?_ rfl le_rfl ?_
    · rfl
    · intro i hi
      exact update_of_ne hi ..
    · intro i hi d hd
      exact update_of_ne (hother i hi d hd (r, n) (by simp)) ..
    · have hrest := hchain.unlink_head
      rwa [← update_self (self.index key) n.next self.table] at hrest
    · intro d hd
      exact hfresh d (by simp [show d ∈ l₂ from hd])
  · -- the node before it is linked to the next
    simp only [concat_eq_append, append_assoc, singleton_append] at *
    have hcell : self.nodes s = some m := hchain.cell (s, m) (by simp)
    rw [getLast?_append, getLast?_singleton, some_or, map_some]
    have hentries : entries (l ++ [(s, { m with next := n.next })]) = entries (l ++ [(s, m)]) := by
      simp [entries]
    refine ⟨l ++ [(s, { m with next := n.next })], and_assoc.mp ⟨?_, hentries⟩⟩
    refine h.remove (l ++ [(s, m)]) _ (by simpa using hsplit) hkey (by simpa using hl₁)
      ?_ ?_ ?_ ?_ hentries le_rfl ?_
    · rfl
    · intro i _
      rfl
    · intro i hi d hd
      dsimp only [OSHash.unlink]
      rw [update_of_ne (hother i hi d hd (r, n) (by simp)),
        update_of_ne (hother i hi d hd (s, m) (by simp))]
    · rw [append_assoc, singleton_append, OSHash.unlink, hcell, map_some]
      exact hchain.unlink rfl
    · intro d hd
      rw [append_assoc, singleton_append] at hd
      rcases mem_append.mp hd with hd | hd
      · exact hfresh d (by simp [hd])
      · rcases mem_cons.mp hd with rfl | hd
        · exact hfresh (s, m) (by simp)
        · exact hfresh d (by simp [hd])

/-- Deleting the key of a node takes the node out of its row. -/
theorem Rows.delete {cells : ℕ → List (ℕ × OSHashNode α)} {l₁ l₂ : List (ℕ × OSHashNode α)}
    {r : ℕ} {n : OSHashNode α} (h : self.Rows cells)
    (hsplit : cells (self.index key) = l₁ ++ (r, n) :: l₂) (hkey : n.key = key) :
    ∃ l₁', (self.delete key).2.Rows (Function.update cells (self.index key) (l₁' ++ l₂)) ∧
      (self.delete key).2.toMap = Function.update self.toMap key none ∧
      entries l₁' = entries l₁ := by
  have hnodup := h.nodup (self.index key)
  rw [hsplit, map_append, map_cons] at hnodup
  have hl₁ : ∀ d ∈ l₁, d.2.key ≠ key := by
    intro d hd heq
    refine (nodup_append.mp hnodup).2.2 _ (mem_map_of_mem hd) _ mem_cons_self ?_
    exact heq.trans hkey.symm
  rw [OSHash.delete, walkFrom_split (h.chain (self.index key)) (h.length_le _) hsplit (by simpa using hl₁)
    (by simpa using hkey), or_none]
  exact h.unlink hsplit hkey hl₁

theorem WellFormed.delete_spec (h : self.WellFormed) (key : Bytes) :
    (self.delete key).2.WellFormed ∧
      ((self.delete key).1, (self.delete key).2.toMap) = mapDelete self.toMap key := by
  obtain ⟨cells, hrows⟩ := h
  rw [mapDelete, hrows.toMap_eq, delete]
  rcases walkFrom_eq (p := fun n => n.key == key) none
    (hrows.chain (self.index key)) (hrows.length_le _) with
    ⟨hwalk, habsent⟩ | ⟨l₁, r, n, l₂, hsplit, hl₁, hkey, hwalk⟩
  · have hnone : (entries (cells (self.index key))).lookup key = none :=
      lookup_entries_eq_none fun c hc => by simpa using habsent c hc
    rw [hwalk, hnone, ← hnone, ← hrows.toMap_eq, Function.update_eq_self, hrows.toMap_eq, hnone]
    exact ⟨⟨cells, hrows⟩, rfl⟩
  · have hl₁ : ∀ d ∈ l₁, d.2.key ≠ key := fun d hd => by simpa using hl₁ d hd
    have hkey : n.key = key := by simpa using hkey
    have hdata : (entries (cells (self.index key))).lookup key = some n.data := by
      rw [hsplit, entries_append, lookup_append, lookup_entries_eq_none hl₁]
      simp [entries, hkey]
    obtain ⟨l₁', hrows', hmap, -⟩ := hrows.unlink hsplit hkey hl₁
    rw [hwalk, hdata, or_none]
    exact ⟨⟨_, hrows'⟩, by rw [hmap]; rfl⟩

/-! ## Runs -/

/-- The calls on a table. -/
inductive Call (α : Type)
  | add (key : Bytes) (data : Option α) (calloc strdup : Bool)
  | update (key : Bytes) (data : Option α)
  | get (key : Bytes)
  | delete (key : Bytes)

/-- A number, or a pointer to data. -/
inductive Answer (α : Type)
  | num (result : ℕ)
  | ptr (data : Option α)
  deriving DecidableEq

/-- A call on a table. -/
def call (self : OSHash α) : Call α → OSHash α × Answer α
  | .add key data calloc strdup =>
    ((self.add key data calloc strdup).2, .num (self.add key data calloc strdup).1)
  | .update key data => ((self.update key data).2, .num (self.update key data).1)
  | .get key => (self, .ptr (self.get key))
  | .delete key => ((self.delete key).2, .ptr (self.delete key).1)

/-- A call on a map. -/
def mapCall (m : Bytes → Option (Option α)) : Call α → (Bytes → Option (Option α)) × Answer α
  | .add key data calloc strdup =>
    ((mapAdd m key data (calloc && strdup)).2, .num (mapAdd m key data (calloc && strdup)).1)
  | .update key data => ((mapUpdate m key data).2, .num (mapUpdate m key data).1)
  | .get key => (m, .ptr (mapGet m key))
  | .delete key => ((mapDelete m key).2, .ptr (mapDelete m key).1)

/-- A table as it is created, and as its size is set afterwards. -/
inductive Sized : OSHash α → Prop
  | create {secret : Option (UInt32 × UInt32)} {t : OSHash α} : create secret = some t → Sized t
  | setSize {t t' : OSHash α} {new_size : UInt32} {secret : Option (UInt32 × UInt32)} :
      Sized t → t.setSize new_size secret = some t' → Sized t'

theorem isSome_create (s : UInt32 × UInt32) : (create (α := α) (some s)).isSome := by
  unfold OSHash.create
  rw [if_neg (osGetprime_ne_zero 1024)]
  rfl

theorem isSome_setSize (t : OSHash α) (new_size : UInt32) (s : UInt32 × UInt32) :
    (t.setSize new_size (some s)).isSome := by
  unfold OSHash.setSize
  rw [if_neg (osGetprime_ne_zero new_size)]
  split_ifs <;> rfl

theorem osGenseed_table {t t' : OSHash α} {secret : Option (UInt32 × UInt32)}
    (h : osGenseed t secret = some t') : t'.table = t.table := by
  obtain ⟨s, -, rfl⟩ := map_eq_some_iff.mp h
  rfl

theorem Sized.table_eq {t : OSHash α} (h : Sized t) : t.table = fun _ => none := by
  induction h with
  | create h =>
    unfold OSHash.create at h
    dsimp only at h
    split_ifs at h
    exact osGenseed_table h
  | setSize _ h ih =>
    unfold OSHash.setSize at h
    dsimp only at h
    split_ifs at h
    · cases h
      exact ih
    · exact osGenseed_table h

theorem osGenseed_rows {t t' : OSHash α} {secret : Option (UInt32 × UInt32)}
    (h : osGenseed t secret = some t') : t'.rows = t.rows := by
  obtain ⟨s, -, rfl⟩ := map_eq_some_iff.mp h
  rfl

theorem Sized.rows_ne_zero {t : OSHash α} (h : Sized t) : t.rows ≠ 0 := by
  induction h with
  | create h =>
    unfold OSHash.create at h
    dsimp only at h
    split_ifs at h
    rw [osGenseed_rows h]
    dsimp only
    exact osGetprime_ne_zero 1024
  | setSize _ h ih =>
    unfold OSHash.setSize at h
    dsimp only at h
    split_ifs at h
    · cases h
      exact ih
    · rw [osGenseed_rows h]
      exact osGetprime_ne_zero _

theorem wellFormed_of_empty {t : OSHash α} (h : t.table = fun _ => none) :
    t.WellFormed ∧ t.toMap = fun _ => none := by
  have hrows : t.Rows fun _ => [] := {
    chain := fun i => by
      rw [h]
      exact .nil
    index := by simp
    nodup := by simp
    lt_fresh := by simp }
  refine ⟨⟨_, hrows⟩, ?_⟩
  funext key
  rw [hrows.toMap_eq]
  rfl

/-- A table and the map that it stands for answer a call alike. -/
theorem WellFormed.call_spec (h : self.WellFormed) (l : Call α) :
    (self.call l).1.WellFormed ∧
      ((self.call l).1.toMap, (self.call l).2) = mapCall self.toMap l := by
  cases l with
  | add key data calloc strdup =>
    obtain ⟨hwf, heq⟩ := h.add_spec key data calloc strdup
    refine ⟨hwf, ?_⟩
    rw [mapCall, ← heq]
    rfl
  | update key data =>
    obtain ⟨hwf, heq⟩ := h.update_spec key data
    refine ⟨hwf, ?_⟩
    rw [mapCall, ← heq]
    rfl
  | get key =>
    refine ⟨h, ?_⟩
    rw [mapCall, ← get_eq]
    rfl
  | delete key =>
    obtain ⟨hwf, heq⟩ := h.delete_spec key
    refine ⟨hwf, ?_⟩
    rw [mapCall, ← heq]
    rfl

/-- Whatever the seed, and so whichever keys share a row, the answers of a table are those of a
map that is empty at first. -/
theorem run_eq_map (h : Sized self) (calls : List (Call α)) :
    outputs call self calls = outputs mapCall (fun _ => none) calls := by
  obtain ⟨hwf, hmap⟩ := wellFormed_of_empty h.table_eq
  refine outputs_eq (R := fun t m => t.WellFormed ∧ t.toMap = m) ?_ ⟨hwf, hmap⟩ calls
  rintro t m l ⟨ht, rfl⟩
  obtain ⟨hwf, heq⟩ := ht.call_spec l
  exact ⟨⟨hwf, congrArg Prod.fst heq⟩, congrArg Prod.snd heq⟩

/-- Two keys that share a row. -/
theorem run_eq_map_sharedRow :
    ∃ t : OSHash ℕ, Sized t ∧ t.index (lit "a0") = t.index (lit "e7") ∧
      outputs call t [.add (lit "a0") (some 1) true true, .add (lit "e7") (some 2) true true,
        .add (lit "a0") (some 9) true true, .delete (lit "a0"), .get (lit "a0"),
        .get (lit "e7"), .update (lit "e7") (some 3), .get (lit "e7")] =
      [.num 2, .num 2, .num 1, .ptr (some 1), .ptr none, .ptr (some 2), .num 1, .ptr (some 3)] := by
  have hsized : Sized ((create (some (0, 0))).get (isSome_create (α := ℕ) (0, 0))) :=
    .create (some_get _).symm
  refine ⟨_, hsized, by decide +kernel, ?_⟩
  rw [run_eq_map hsized]
  decide +kernel

end OSHash
