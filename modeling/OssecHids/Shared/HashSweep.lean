import OssecHids.Shared.HashOp

/-!
# Loops over a hash table

A loop over all rows that takes the next node of a row before it deletes the key of the one at hand.

- `sweepRow_spec`: what is left of one row;
- `WellFormed.sweep_spec`: what is left of the table.
-/

open CString LinkedList List Function

namespace OSHash

variable {α : Type}

/-- The loop over a row from the node `curr` on. -/
def sweepRow (p : α → Bool) : ℕ → Option ℕ → OSHash α → OSHash α
  | 0, _, self => self
  | _ + 1, none, self => self
  | fuel + 1, some curr, self =>
    match self.nodes curr with
    | none => self
    | some n => sweepRow p fuel n.next (if n.data.any p then (self.delete n.key).2 else self)

/-- The loop over the rows. -/
def sweep (p : α → Bool) (self : OSHash α) : OSHash α :=
  (List.range self.rows.toNat).foldl
    (fun self ti => sweepRow p self.fresh (self.table ti) self) self

/-! ## What an operation leaves as it is -/

/-- Two tables that put every key into the same row. -/
structure SameRows (t t' : OSHash α) : Prop where
  rows : t'.rows = t.rows
  index : t'.index = t.index
  fresh : t.fresh ≤ t'.fresh

theorem SameRows.refl (t : OSHash α) : SameRows t t := ⟨rfl, rfl, le_rfl⟩

theorem SameRows.trans {t t' t'' : OSHash α} (h : SameRows t t') (h' : SameRows t' t'') :
    SameRows t t'' :=
  ⟨h'.rows.trans h.rows, h'.index.trans h.index, h.fresh.trans h'.fresh⟩

variable {self : OSHash α} {p : α → Bool}

theorem sameRows_delete (self : OSHash α) (key : Bytes) : SameRows self (self.delete key).2 := by
  rw [delete]
  split
  · exact .refl self
  · next prev_node _ _ _ => cases prev_node <;> exact ⟨rfl, rfl, le_rfl⟩

theorem sameRows_add (self : OSHash α) (key : Bytes) (data : Option α) (calloc strdup : Bool) :
    SameRows self (self.add key data calloc strdup).2 := by
  rw [add]
  split
  · exact .refl self
  · split_ifs
    · exact .refl self
    · exact .refl self
    · exact ⟨rfl, rfl, Nat.le_succ _⟩

theorem sameRows_update (self : OSHash α) (key : Bytes) (data : Option α) :
    SameRows self (self.update key data).2 := by
  rw [update]
  split
  · exact ⟨rfl, rfl, le_rfl⟩
  · exact .refl self

/-! ## One row -/

variable {cells : ℕ → List (ℕ × OSHashNode α)} {l rest : List (ℕ × OSHashNode α)} {i : ℕ}

/-- What is left of an entry. -/
def swept (p : α → Bool) (v : Option (Option α)) : Option (Option α) :=
  v.filter fun data => !data.any p

theorem swept_entries (h : ∀ c ∈ l, c.2.data.any p = false) (key : Bytes) :
    swept p ((entries l).lookup key) = (entries l).lookup key := by
  rw [lookup_entries_eq_find?]
  cases hfind : l.find? fun c => c.2.key == key with
  | none => rfl
  | some c => simp [swept, h c (mem_of_find?_eq_some hfind)]

theorem mem_entries_of_eq {l l' : List (ℕ × OSHashNode α)} (h : entries l' = entries l)
    (hl : ∀ c ∈ l, c.2.data.any p = false) : ∀ c ∈ l', c.2.data.any p = false := by
  intro c hc
  have hmem : (c.2.key, c.2.data) ∈ entries l := by
    rw [← h]
    exact mem_map_of_mem (f := fun c : ℕ × OSHashNode α => (c.2.key, c.2.data)) hc
  obtain ⟨d, hd, heq⟩ := mem_map.mp hmem
  rw [← (Prod.mk.inj heq).2]
  exact hl d hd

/-- The nodes in front of `curr` stay, the other ones lose those with `p`. -/
theorem sweepRow_spec {q : Option ℕ} {fuel : ℕ} (h : self.Rows cells)
    (hsplit : cells i = l ++ rest) (hq : Chain self.nodes OSHashNode.next q rest)
    (hl : ∀ c ∈ l, c.2.data.any p = false) (hfuel : rest.length ≤ fuel) :
    (sweepRow p fuel q self).WellFormed ∧ SameRows self (sweepRow p fuel q self) ∧
      ∀ key, (sweepRow p fuel q self).toMap key =
        if self.index key = i then swept p (self.toMap key) else self.toMap key := by
  induction rest generalizing self cells l q fuel with
  | nil =>
    obtain rfl : q = none := by
      cases hq
      rfl
    have hend : sweepRow p fuel none self = self := by cases fuel <;> rfl
    rw [hend]
    refine ⟨⟨cells, h⟩, .refl self, fun key => ?_⟩
    split_ifs with hkey
    · rw [append_nil] at hsplit
      rw [h.toMap_eq, hkey, hsplit, swept_entries hl]
    · rfl
  | cons c rest ih =>
    obtain ⟨r, n⟩ := c
    obtain ⟨fuel, rfl⟩ := Nat.exists_eq_add_one.mpr (lt_of_lt_of_le (Nat.succ_pos _) hfuel)
    have hr : self.nodes r = some n := hq.cell (r, n) mem_cons_self
    obtain rfl := hq.head
    rw [sweepRow]
    simp only [hr]
    have hindex : self.index n.key = i := by
      apply h.index i (r, n)
      rw [hsplit]
      exact mem_append_right _ mem_cons_self
    by_cases hp : n.data.any p
    · -- the node is deleted; the next one was taken before
      rw [if_pos hp]
      subst hindex
      obtain ⟨l', hrows, hmap, hentries⟩ := h.delete hsplit rfl
      have hchain := hrows.chain (self.index n.key)
      rw [update_self] at hchain
      obtain ⟨q', hq'⟩ := hchain.drop
      have hsame := sameRows_delete self n.key
      obtain rfl : n.next = q' := hq.tail.pointer_eq hq'
      obtain ⟨hwf, hsame', hspec⟩ := ih hrows (by rw [update_self]) hq'
        (mem_entries_of_eq hentries hl) (Nat.le_of_succ_le_succ hfuel)
      refine ⟨hwf, hsame.trans hsame', fun key => ?_⟩
      rw [hspec, hmap, hsame.index]
      by_cases hkey : key = n.key
      · have hdata : self.toMap n.key = some n.data := by
          rw [h.toMap_eq, hsplit, entries_append, lookup_append, lookup_entries_eq_none]
          · simp [entries]
          · intro d hd heq
            have hnodup := h.nodup (self.index n.key)
            rw [hsplit, map_append, map_cons] at hnodup
            exact (nodup_append.mp hnodup).2.2 _ (mem_map_of_mem hd) _
              mem_cons_self heq
        rw [hkey, update_self, if_pos rfl, if_pos rfl, hdata]
        simp [swept, Option.filter, hp]
      · rw [update_of_ne hkey]
    · rw [if_neg hp]
      refine ih h (l := l ++ [(r, n)]) (by rw [hsplit, append_assoc]; rfl) hq.tail ?_
        (Nat.le_of_succ_le_succ hfuel)
      intro c hc
      rcases mem_append.mp hc with hc | hc
      · exact hl c hc
      · rw [mem_singleton.mp hc]
        exact Bool.eq_false_of_not_eq_true hp

/-! ## All rows -/

theorem sweepRows_spec (h : self.WellFormed) (tis : List ℕ) :
    (tis.foldl (fun self ti => sweepRow p self.fresh (self.table ti) self) self).WellFormed ∧
      SameRows self (tis.foldl (fun self ti => sweepRow p self.fresh (self.table ti) self) self) ∧
      ∀ key, (tis.foldl (fun self ti => sweepRow p self.fresh (self.table ti) self) self).toMap key =
        if self.index key ∈ tis then swept p (self.toMap key) else self.toMap key := by
  induction tis generalizing self with
  | nil => exact ⟨h, .refl self, fun key => by simp⟩
  | cons ti tis ih =>
    obtain ⟨cells, hrows⟩ := h
    obtain ⟨hwf, hsame, hspec⟩ := sweepRow_spec (p := p) (l := []) hrows rfl (hrows.chain ti)
      (by simp) (hrows.length_le ti)
    obtain ⟨hwf', hsame', hspec'⟩ := ih hwf
    refine ⟨hwf', hsame.trans hsame', fun key => ?_⟩
    rw [foldl_cons, hspec', hspec, hsame.index]
    by_cases hkey : self.index key = ti
    · have hself : swept p (swept p (self.toMap key)) = swept p (self.toMap key) := by
        rw [swept, swept, Option.filter_filter]
        simp
      simp [hkey, hself]
    · simp [hkey]

theorem WellFormed.sweep_spec (h : self.WellFormed) (hrows : self.rows ≠ 0) (p : α → Bool) :
    (self.sweep p).WellFormed ∧ SameRows self (self.sweep p) ∧
      ∀ key, (self.sweep p).toMap key = swept p (self.toMap key) := by
  obtain ⟨hwf, hsame, hspec⟩ := sweepRows_spec (p := p) h (List.range self.rows.toNat)
  refine ⟨hwf, hsame, fun key => (hspec key).trans (if_pos ?_)⟩
  have hpos : 0 < self.rows.toNat := by
    rw [Nat.pos_iff_ne_zero]
    exact fun hzero => hrows (UInt32.toNat_inj.mp hzero)
  rw [mem_range, index, UInt32.toNat_mod]
  exact Nat.mod_lt _ hpos

/-! ## Entries after an operation -/

variable {key k : Bytes} {d e : α}

theorem WellFormed.entry_sweep (h : self.WellFormed) (hrows : self.rows ≠ 0)
    (he : (self.sweep p).toMap k = some (some e)) : self.toMap k = some (some e) ∧ p e = false := by
  rw [(h.sweep_spec hrows p).2.2, swept, Option.filter_eq_some_iff] at he
  simpa using he

theorem entry_of_update {m : Bytes → Option (Option α)} {v : Option (Option α)}
    (he : Function.update m key v k = some (some e)) :
    m k = some (some e) ∨ k = key ∧ v = some (some e) := by
  by_cases hk : k = key
  · rw [hk, update_self] at he
    exact .inr ⟨hk, he⟩
  · rw [update_of_ne hk] at he
    exact .inl he

theorem WellFormed.entry_add (h : self.WellFormed) {calloc strdup : Bool}
    (he : (self.add key (some d) calloc strdup).2.toMap k = some (some e)) :
    self.toMap k = some (some e) ∨ k = key ∧ e = d := by
  have hmap := congrArg Prod.snd (h.add_spec key (some d) calloc strdup).2
  dsimp only at hmap
  rw [hmap, mapAdd] at he
  split_ifs at he
  · exact .inl he
  · exact (entry_of_update he).imp_right fun hnew => ⟨hnew.1, by simpa using hnew.2.symm⟩
  · exact .inl he

theorem WellFormed.entry_update (h : self.WellFormed)
    (he : (self.update key (some d)).2.toMap k = some (some e)) :
    self.toMap k = some (some e) ∨ k = key ∧ e = d := by
  have hmap := congrArg Prod.snd (h.update_spec key (some d)).2
  dsimp only at hmap
  rw [hmap, mapUpdate] at he
  split_ifs at he
  · exact (entry_of_update he).imp_right fun hnew => ⟨hnew.1, by simpa using hnew.2.symm⟩
  · exact .inl he

theorem WellFormed.entry_delete (h : self.WellFormed)
    (he : (self.delete key).2.toMap k = some (some e)) : self.toMap k = some (some e) := by
  have hmap := congrArg Prod.snd (h.delete_spec key).2
  dsimp only at hmap
  rw [hmap] at he
  exact (entry_of_update he).resolve_right fun hnew => absurd hnew.2 (by simp)

theorem get_eq_some (h : self.get key = some d) : self.toMap key = some (some d) := by
  rw [get_eq, mapGet] at h
  exact Option.join_eq_some_iff.mp h

end OSHash
