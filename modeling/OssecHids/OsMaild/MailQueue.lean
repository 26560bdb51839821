import OssecHids.Lib.Transition
import OssecHids.OsMaild.MailList

/-!
# Runs of the queue of mails

Calls on the queue, in any order, with the batches that were drained from it and may be put back.

- `Fifo`: the queue that is meant;
- `Meets`: the calls that keep the list like it;
- `mailList_law`: what holds after every run of such calls.
-/

open DoublyLinked Transition List Option

namespace Maild

variable {α : Type}

/-- A call, with the mails that it took from the queue or lost. -/
inductive Label (α : Type)
  | addMailtoList (ml : α) (lost : List α)
  | popLastMail (ml : Option α)
  | drainMailList (mails : List α)
  | requeueMailBatch (mails lost : List α)
  /-- A worker has sent a batch, and frees its nodes. -/
  | free (mails : List α)
  deriving DecidableEq, Repr

/-- The queue, and the batches that were drained from it. -/
structure World (α : Type) where
  list : MailList α
  held : List (List (ℕ × α)) := []

def World.start (maxsize : ℤ) : World α := { list := .create maxsize }

/-- `free` for every node of a batch. -/
def freeAll (heap : Heap ℕ α) (batch : List (ℕ × α)) : Heap ℕ α :=
  fun r => if r ∈ batch.map Prod.fst then none else heap r

theorem frame_freeAll (heap : Heap ℕ α) (batch : List (ℕ × α)) :
    Frame (batch.map Prod.fst) heap (freeAll heap batch) := fun _ hs => if_neg hs

/-- A call. New memory is not in use, and what is put back was drained. A loop that ends does so
whatever number of turns it is given, from some number on. -/
inductive Step : World α → Label α → World α → Prop
  | addMailtoList {w : World α} {list : MailList α} {ml : α} {new_node : ℕ} {lost : List α}
      (hnew : w.list.heap new_node = none)
      (hadd : w.list.addMailtoList ml new_node = some (list, lost)) :
      Step w (.addMailtoList ml lost) ⟨list, w.held⟩
  | popLastMail {w : World α} {list : MailList α} {node : Option ℕ}
      (hpop : w.list.popLastMail = some (list, node)) :
      Step w (.popLastMail ((node.bind list.heap).map Cell.data)) ⟨list, w.held⟩
  | drainMailList {w : World α} {list : MailList α} {batch : List (ℕ × α)} {k : ℕ}
      (hdrain : ∀ fuel > k, w.list.drainMailList fuel = some (list, firstOr batch none))
      (hbatch : Path list.heap batch none) :
      Step w (.drainMailList (batch.map Prod.snd)) ⟨list, batch :: w.held⟩
  | requeueMailBatch {list list' : MailList α} {held₁ held₂ : List (List (ℕ × α))}
      {batch : List (ℕ × α)} {lost : List α} {k : ℕ}
      (hrequeue : ∀ fuel > k,
        list.requeueMailBatch fuel (firstOr batch none) = some (list', lost)) :
      Step ⟨list, held₁ ++ batch :: held₂⟩ (.requeueMailBatch (batch.map Prod.snd) lost)
        ⟨list', held₁ ++ held₂⟩
  | free (list : MailList α) (held₁ held₂ : List (List (ℕ × α))) (batch : List (ℕ × α)) :
      Step ⟨list, held₁ ++ batch :: held₂⟩ (.free (batch.map Prod.snd))
        ⟨{ list with heap := freeAll list.heap batch }, held₁ ++ held₂⟩

/-- The calls that keep the queue as it is meant: nothing is popped from a queue that is not empty,
and nothing is put back into one. -/
def Meets (w : World α) : Label α → Prop
  | .popLastMail _ => w.list.lastnode = none
  | .requeueMailBatch mails _ => mails = [] ∨ w.list.n_node = none
  | _ => True

namespace Fifo

/-- What is left of the mails, oldest first, and what is lost, if there is a maximum. -/
def cap (maxsize : ℕ) (mails : List α) : List α × List α :=
  (mails.drop (mails.length - maxsize), mails.take (mails.length - maxsize))

/-- The calls on the mails of the queue, oldest first. -/
inductive Step (maxsize : ℕ) : List α → Label α → List α → Prop
  | addMailtoList (mails : List α) (ml : α) :
      Step maxsize mails (.addMailtoList ml (cap maxsize (mails ++ [ml])).2)
        (cap maxsize (mails ++ [ml])).1
  | popLastMail (mails : List α) : Step maxsize mails (.popLastMail mails.head?) mails.tail
  | drainMailList (mails : List α) : Step maxsize mails (.drainMailList mails) []
  | requeueMailBatch (batch mails : List α) :
      Step maxsize mails (.requeueMailBatch batch (cap maxsize (batch ++ mails)).2)
        (cap maxsize (batch ++ mails)).1
  | free (batch mails : List α) : Step maxsize mails (.free batch) mails

/-- What comes to the mails of the queue with a call. -/
def arriving (mails : List α) : Label α → List α
  | .addMailtoList ml _ => mails ++ [ml]
  | .requeueMailBatch batch _ => batch ++ mails
  | _ => mails

theorem Step.sublist {maxsize : ℕ} {mails mails' : List α} {label : Label α}
    (h : Step maxsize mails label mails') : mails'.Sublist (arriving mails label) := by
  cases h with
  | addMailtoList => exact drop_sublist ..
  | popLastMail => exact tail_sublist _
  | drainMailList => exact nil_sublist _
  | requeueMailBatch => exact drop_sublist ..
  | free => exact List.Sublist.refl _

theorem Step.drained {maxsize : ℕ} {mails mails' batch : List α}
    (h : Step maxsize mails (.drainMailList batch) mails') : batch = mails := by
  cases h with
  | drainMailList => rfl

end Fifo

/-- The mails that were added, in order. -/
def added (tr : List (Label α)) : List α :=
  tr.filterMap fun
    | .addMailtoList ml _ => some ml
    | _ => none

/-! ### What the calls keep -/

open MailList

variable {w w' : World α} {list : MailList α} {nodes : List (ℕ × α)} {tr : List (Label α)}
  {maxsize : ℤ} {label : Label α}

/-- The nodes of the queue, and those of the batches that are held, are different ones. -/
structure Invariant (maxsize : ℤ) (w : World α) (nodes : List (ℕ × α)) : Prop where
  holds : w.list.Holds nodes
  memorymaxsize : w.list.memorymaxsize = maxsize
  length_le : (nodes.length : ℤ) ≤ maxsize
  held : ∀ batch ∈ w.held, Path w.list.heap batch none
  nodup : ((nodes ++ w.held.flatten).map Prod.fst).Nodup

theorem invariant_start (hmax : 1 ≤ maxsize) :
    Invariant maxsize (World.start maxsize : World α) [] where
  holds := holds_create maxsize
  memorymaxsize := rfl
  length_le := by
    rw [length_nil]
    omega
  held := fun _ h => absurd h not_mem_nil
  nodup := nodup_nil

theorem cap_queue (nodes : List (ℕ × α)) (n : ℕ) :
    Fifo.cap n (queue nodes) =
      (queue (nodes.take n), (queue nodes).take (nodes.length - n)) := by
  rw [Fifo.cap, length_queue, queue_take]

theorem queue_cons (r : ℕ) (ml : α) (nodes : List (ℕ × α)) :
    queue ((r, ml) :: nodes) = queue nodes ++ [ml] := by
  simp [queue]

theorem length_take_le (hmax : 1 ≤ maxsize) (nodes : List (ℕ × α)) :
    ((nodes.take maxsize.toNat).length : ℤ) ≤ maxsize := by
  rw [length_take]
  omega

theorem forall_path_of_frame {heap heap' : Heap ℕ α} {refs : List ℕ}
    {held : List (List (ℕ × α))} (h : ∀ batch ∈ held, Path heap batch none)
    (hframe : Frame refs heap heap') (hdisjoint : ∀ s ∈ held.flatten.map Prod.fst, s ∉ refs) :
    ∀ batch ∈ held, Path heap' batch none := by
  intro batch hbatch
  refine (h batch hbatch).frame hframe fun s hs => hdisjoint s ?_
  obtain ⟨c, hc, rfl⟩ := mem_map.mp hs
  exact mem_map_of_mem (mem_flatten_of_mem hbatch hc)

theorem Invariant.addMailtoList (h : Invariant maxsize w nodes) (hmax : 1 ≤ maxsize) {ml : α}
    {new_node : ℕ} {lost : List α} (hnew : w.list.heap new_node = none)
    (hadd : w.list.addMailtoList ml new_node = some (list, lost)) :
    Invariant maxsize ⟨list, w.held⟩ (((new_node, ml) :: nodes).take maxsize.toNat) ∧
      lost = (queue ((new_node, ml) :: nodes)).take (nodes.length + 1 - maxsize.toNat) := by
  obtain ⟨list', heq, hholds, hmax', hframe⟩ := h.holds.addMailtoList hnew
    (h.memorymaxsize ▸ hmax) (h.memorymaxsize ▸ h.length_le) ml
  obtain ⟨rfl, rfl⟩ := Prod.mk.inj (some.inj (hadd.symm.trans heq))
  have hnodup := h.nodup
  rw [map_append, nodup_append'] at hnodup
  obtain ⟨hnodes, hheld, hdisjoint⟩ := hnodup
  have hnewheld : new_node ∉ w.held.flatten.map Prod.fst := by
    intro hmem
    obtain ⟨c, hc, rfl⟩ := mem_map.mp hmem
    obtain ⟨batch, hbatch, hc⟩ := mem_flatten.mp hc
    exact (h.held batch hbatch).ne_none _ (mem_map_of_mem hc) hnew
  have hrefs : ∀ s ∈ w.held.flatten.map Prod.fst, s ∉ ((new_node, ml) :: nodes).map Prod.fst := by
    intro s hs hs'
    obtain rfl | hs' := mem_cons.mp hs'
    · exact hnewheld hs
    · exact hdisjoint hs' hs
  rw [h.memorymaxsize] at hholds hmax' ⊢
  refine ⟨⟨hholds, hmax', length_take_le hmax _, forall_path_of_frame h.held hframe hrefs, ?_⟩, rfl⟩
  rw [map_append, nodup_append', map_take]
  refine ⟨?_, hheld, fun s hs hs' => hrefs s hs' (mem_of_mem_take hs)⟩
  exact (nodup_cons.mpr ⟨h.holds.notMem hnew, hnodes⟩).sublist (take_sublist ..)

theorem Invariant.drainMailList (h : Invariant maxsize w nodes) {batch : List (ℕ × α)} {k : ℕ}
    (hdrain : ∀ fuel > k, w.list.drainMailList fuel = some (list, firstOr batch none))
    (hbatch : Path list.heap batch none) :
    Invariant maxsize ⟨list, batch :: w.held⟩ [] ∧ batch = nodes.reverse := by
  obtain ⟨list', heq, hholds, hmax, hpath, hframe⟩ := h.holds.drainMailList
  have hfuel := hdrain (max k nodes.length + 1) (by omega)
  obtain ⟨rfl, hfirst⟩ := Prod.mk.inj (some.inj (hfuel.symm.trans (heq _ (by omega))))
  obtain rfl := hbatch.unique hpath hfirst
  have hnodup := h.nodup
  rw [map_append, nodup_append'] at hnodup
  obtain ⟨hnodes, hheld, hdisjoint⟩ := hnodup
  have hlen := h.length_le
  refine ⟨⟨hholds, hmax.trans h.memorymaxsize, ?_, ?_, ?_⟩, rfl⟩
  · rw [length_nil]
    omega
  · refine forall_mem_cons.mpr ⟨hbatch, ?_⟩
    exact forall_path_of_frame h.held hframe fun s hs hs' => hdisjoint hs' hs
  · rw [nil_append, flatten_cons, map_append, nodup_append', map_reverse, nodup_reverse]
    exact ⟨hnodes, hheld, fun s hs hs' => hdisjoint (mem_reverse.mp hs) hs'⟩

theorem Invariant.split {held₁ held₂ : List (List (ℕ × α))} {batch : List (ℕ × α)}
    (h : Invariant maxsize ⟨list, held₁ ++ batch :: held₂⟩ nodes) :
    (batch.map Prod.fst).Nodup ∧ ((nodes ++ (held₁ ++ held₂).flatten).map Prod.fst).Nodup ∧
      ∀ s ∈ (nodes ++ (held₁ ++ held₂).flatten).map Prod.fst, s ∉ batch.map Prod.fst := by
  have hnodup : ((batch ++ (nodes ++ (held₁ ++ held₂).flatten)).map Prod.fst).Nodup := by
    refine (List.Perm.map Prod.fst ?_).nodup_iff.mp h.nodup
    rw [flatten_append, flatten_append, flatten_cons]
    exact (List.Perm.append_left nodes (perm_append_comm_assoc ..)).trans
      (perm_append_comm_assoc ..)
  rw [map_append, nodup_append'] at hnodup
  exact ⟨hnodup.1, hnodup.2.1, fun s hs hs' => hnodup.2.2 hs' hs⟩

theorem Invariant.requeueMailBatch {list' : MailList α} {held₁ held₂ : List (List (ℕ × α))}
    {batch : List (ℕ × α)} {lost : List α} {k : ℕ}
    (h : Invariant maxsize ⟨list, held₁ ++ batch :: held₂⟩ nodes) (hmax : 1 ≤ maxsize)
    (hmeets : batch = [] ∨ list.n_node = none)
    (hrequeue : ∀ fuel > k, list.requeueMailBatch fuel (firstOr batch none) = some (list', lost)) :
    Invariant maxsize ⟨list', held₁ ++ held₂⟩ ((nodes ++ batch.reverse).take maxsize.toNat) ∧
      lost = (batch.map Prod.snd ++ queue nodes).take
        ((nodes ++ batch.reverse).length - maxsize.toNat) := by
  obtain ⟨hbatch, hothers, hdisjoint⟩ := h.split
  have hheld : ∀ batch ∈ held₁ ++ held₂, Path list.heap batch none := fun b hb =>
    h.held b (by simp only [mem_append, mem_cons] at hb ⊢; tauto)
  have hlen := h.length_le
  obtain rfl | hempty := hmeets
  · -- nothing is put back
    have hle : nodes.length ≤ maxsize.toNat := by omega
    have hnone : list.requeueMailBatch (k + 1) (firstOr ([] : List (ℕ × α)) none) =
      some (list, []) := rfl
    obtain ⟨rfl, rfl⟩ := Prod.mk.inj (some.inj ((hrequeue _ (by omega)).symm.trans hnone))
    rw [reverse_nil, append_nil, take_of_length_le hle, Nat.sub_eq_zero_of_le hle]
    exact ⟨⟨h.holds, h.memorymaxsize, hlen, hheld, hothers⟩, rfl⟩
  · obtain rfl := h.holds.eq_nil (.inl hempty)
    have hpath : Path list.heap batch none := h.held batch (by simp)
    obtain ⟨list₁, heq, hholds, hmax', hframe⟩ := h.holds.requeueMailBatch hpath hbatch
    have hfuel := hrequeue (max k batch.length + 1) (by omega)
    obtain ⟨rfl, rfl⟩ := Prod.mk.inj (some.inj (hfuel.symm.trans (heq _ (by omega))))
    have hmaxsize : list.memorymaxsize = maxsize := h.memorymaxsize
    rw [hmaxsize] at hholds hmax' ⊢
    rw [nil_append] at hothers hdisjoint
    rw [nil_append, length_reverse]
    refine ⟨⟨hholds, hmax', length_take_le hmax _, ?_, ?_⟩, by simp [queue]⟩
    · exact forall_path_of_frame hheld hframe hdisjoint
    · rw [map_append, nodup_append', map_take, map_reverse]
      refine ⟨(nodup_reverse.mpr hbatch).sublist (take_sublist ..), hothers,
        fun s hs hs' => hdisjoint s hs' (mem_reverse.mp (mem_of_mem_take hs))⟩

theorem Invariant.free {held₁ held₂ : List (List (ℕ × α))} {batch : List (ℕ × α)}
    (h : Invariant maxsize ⟨list, held₁ ++ batch :: held₂⟩ nodes) :
    Invariant maxsize ⟨{ list with heap := freeAll list.heap batch }, held₁ ++ held₂⟩ nodes := by
  obtain ⟨-, hothers, hdisjoint⟩ := h.split
  have hframe := frame_freeAll list.heap batch
  rw [map_append] at hdisjoint
  have hnodes : ∀ s ∈ nodes.map Prod.fst, s ∉ batch.map Prod.fst := fun s hs =>
    hdisjoint s (mem_append_left _ hs)
  refine ⟨⟨h.holds.linked.frame hframe hnodes, h.holds.n_node, h.holds.lastnode,
    h.holds.memoryused⟩, h.memorymaxsize, h.length_le, ?_, hothers⟩
  refine forall_path_of_frame (fun b hb => h.held b ?_) hframe fun s hs =>
    hdisjoint s (mem_append_right _ hs)
  simp only [mem_append, mem_cons] at hb ⊢
  tauto

theorem queue_append_reverse (nodes batch : List (ℕ × α)) :
    queue (nodes ++ batch.reverse) = batch.map Prod.snd ++ queue nodes := by
  rw [queue, map_append, reverse_append, map_reverse, reverse_reverse, queue]

/-- A call that meets the condition does to the mails what is meant. -/
theorem Invariant.step (h : Invariant maxsize w nodes) (hmax : 1 ≤ maxsize)
    (hstep : Step w label w') (hmeets : Meets w label) :
    ∃ nodes', Invariant maxsize w' nodes' ∧
      Fifo.Step maxsize.toNat (queue nodes) label (queue nodes') := by
  cases hstep with
  | addMailtoList hnew hadd =>
    rename_i list ml new_node lost
    obtain ⟨h', rfl⟩ := h.addMailtoList hmax hnew hadd
    have hfifo : Fifo.Step maxsize.toNat (queue nodes) _ _ := .addMailtoList (queue nodes) ml
    rw [← queue_cons new_node, cap_queue] at hfifo
    exact ⟨_, h', hfifo⟩
  | popLastMail hpop =>
    obtain ⟨rfl, rfl⟩ :=
      Prod.mk.inj (some.inj (hpop.symm.trans (h.holds.popLastMail hmeets)))
    obtain rfl := h.holds.eq_nil (.inr hmeets)
    exact ⟨[], h, .popLastMail []⟩
  | drainMailList hdrain hbatch =>
    obtain ⟨h', rfl⟩ := h.drainMailList hdrain hbatch
    refine ⟨[], h', ?_⟩
    rw [map_reverse]
    exact .drainMailList _
  | requeueMailBatch hrequeue =>
    rename_i list list' held₁ held₂ batch lost k
    have hempty : batch = [] ∨ list.n_node = none := hmeets.imp_left map_eq_nil_iff.mp
    obtain ⟨h', rfl⟩ := h.requeueMailBatch hmax hempty hrequeue
    have hfifo : Fifo.Step maxsize.toNat (queue nodes) _ _ :=
      .requeueMailBatch (batch.map Prod.snd) (queue nodes)
    rw [← queue_append_reverse, cap_queue] at hfifo
    rw [← queue_append_reverse]
    exact ⟨_, h', hfifo⟩
  | free list held₁ held₂ batch => exact ⟨nodes, h.free, .free _ _⟩

/-! ### The order of the mails -/

/-- The batches that are held were drained, and their mails are in the order of their arrival. -/
structure History (maxsize : ℤ) (tr : List (Label α)) (w : World α) (nodes : List (ℕ × α)) :
    Prop extends Invariant maxsize w nodes where
  fifo : Run (Fifo.Step maxsize.toNat) [] tr (queue nodes)
  queue_sublist : (queue nodes).Sublist (added tr)
  held_sublist : ∀ batch ∈ w.held, (batch.map Prod.snd).Sublist (added tr)
  drained_sublist : ∀ mails, .drainMailList mails ∈ tr → mails.Sublist (added tr)

theorem added_append (tr tr' : List (Label α)) : added (tr ++ tr') = added tr ++ added tr' :=
  filterMap_append

theorem History.step (h : History maxsize tr w nodes) (hmax : 1 ≤ maxsize)
    (hstep : Step w label w') (hmeets : Meets w label) :
    ∃ nodes', History maxsize (tr ++ [label]) w' nodes' := by
  obtain ⟨nodes', h', hfifo⟩ := h.toInvariant.step hmax hstep hmeets
  have hgrow : (added tr).Sublist (added (tr ++ [label])) := by
    rw [added_append]
    exact sublist_append_left ..
  have hdrained : ∀ mails, .drainMailList mails ∈ tr ++ [label] →
      mails.Sublist (added (tr ++ [label])) := by
    intro mails hmem
    obtain hmem | hmem := mem_append.mp hmem
    · exact (h.drained_sublist mails hmem).trans hgrow
    · obtain rfl := mem_singleton.mp hmem
      obtain rfl := hfifo.drained
      exact h.queue_sublist.trans hgrow
  have harrived := hfifo.sublist
  have hrun : Run (Fifo.Step maxsize.toNat) [] (tr ++ [label]) (queue nodes') :=
    h.fifo.append (.cons hfifo (.nil _))
  cases hstep with
  | addMailtoList hnew hadd =>
    refine ⟨nodes', h', hrun, harrived.trans ?_, fun b hb => (h.held_sublist b hb).trans hgrow,
      hdrained⟩
    rw [added_append]
    exact h.queue_sublist.append_right _
  | popLastMail hpop =>
    exact ⟨nodes', h', hrun, harrived.trans (h.queue_sublist.trans hgrow),
      fun b hb => (h.held_sublist b hb).trans hgrow, hdrained⟩
  | drainMailList hdrain hbatch =>
    refine ⟨nodes', h', hrun, harrived.trans (h.queue_sublist.trans hgrow), ?_, hdrained⟩
    refine forall_mem_cons.mpr ⟨?_, fun b hb => (h.held_sublist b hb).trans hgrow⟩
    exact hdrained _ (by simp)
  | requeueMailBatch hrequeue =>
    rename_i list list' held₁ held₂ batch lost k
    have hheld : ∀ b ∈ held₁ ++ held₂, (b.map Prod.snd).Sublist (added (tr ++ [_])) := fun b hb =>
      (h.held_sublist b (by simp only [mem_append, mem_cons] at hb ⊢; tauto)).trans hgrow
    refine ⟨nodes', h', hrun, harrived.trans ?_, hheld, hdrained⟩
    obtain hnil | hempty := hmeets
    · have hsame : batch.map Prod.snd ++ queue nodes = queue nodes := by
        rw [hnil, nil_append]
      rw [Fifo.arriving, hsame]
      exact h.queue_sublist.trans hgrow
    · obtain rfl := h.holds.eq_nil (.inl hempty)
      rw [Fifo.arriving, queue, map_nil, reverse_nil, append_nil]
      exact (h.held_sublist batch (by simp)).trans hgrow
  | free list held₁ held₂ batch =>
    have hheld : ∀ b ∈ held₁ ++ held₂, (b.map Prod.snd).Sublist (added (tr ++ [_])) := fun b hb =>
      (h.held_sublist b (by simp only [mem_append, mem_cons] at hb ⊢; tauto)).trans hgrow
    exact ⟨nodes', h', hrun, harrived.trans (h.queue_sublist.trans hgrow), hheld, hdrained⟩

/-- The calls of `mail_list.c` return: none of them follows a pointer to memory that is not in use,
and no loop runs for ever. -/
structure Returns (w : World α) : Prop where
  addMailtoList : ∀ ml new_node, w.list.heap new_node = none →
    ∃ list lost, w.list.addMailtoList ml new_node = some (list, lost)
  drainMailList : ∃ list batch k, Path list.heap batch none ∧
    ∀ fuel > k, w.list.drainMailList fuel = some (list, firstOr batch none)
  requeueMailBatch : ∀ batch ∈ w.held, w.list.n_node = none → ∃ list lost k, ∀ fuel > k,
    w.list.requeueMailBatch fuel (firstOr batch none) = some (list, lost)

theorem Invariant.returns (h : Invariant maxsize w nodes) (hmax : 1 ≤ maxsize) : Returns w where
  addMailtoList := by
    intro ml new_node hnew
    obtain ⟨list, heq, -⟩ := h.holds.addMailtoList hnew (h.memorymaxsize ▸ hmax)
      (h.memorymaxsize ▸ h.length_le) ml
    exact ⟨list, _, heq⟩
  drainMailList := by
    obtain ⟨list, heq, -, -, hpath, -⟩ := h.holds.drainMailList
    exact ⟨list, nodes.reverse, nodes.length, hpath, heq⟩
  requeueMailBatch := by
    intro batch hmem hempty
    obtain ⟨held₁, held₂, hheld⟩ := append_of_mem hmem
    obtain ⟨list, held⟩ := w
    obtain rfl : held = held₁ ++ batch :: held₂ := hheld
    obtain rfl := h.holds.eq_nil (.inl hempty)
    obtain ⟨list', heq, -⟩ := h.holds.requeueMailBatch (h.held batch hmem) h.split.1
    exact ⟨list', _, batch.length, heq⟩

/-- A call that meets the condition. -/
def GoodStep (w : World α) (label : Label α) (w' : World α) : Prop :=
  Step w label w' ∧ Meets w label

/-- **The queue stays one well-formed list, and is the queue that is meant**, in every run whose
calls meet the condition: it is no longer than the maximum, its mails and those of every drained
batch are in the order in which they were added, and the mails lost are the oldest ones of a queue
that is too long. -/
theorem mailList_law (hmax : 1 ≤ maxsize) (h : Run GoodStep (World.start maxsize) tr w) :
    ∃ nodes, w.list.Holds nodes ∧ (nodes.length : ℤ) ≤ maxsize ∧
      Run (Fifo.Step maxsize.toNat) [] tr (queue nodes) ∧ (queue nodes).Sublist (added tr) ∧
      (∀ mails, .drainMailList mails ∈ tr → mails.Sublist (added tr)) ∧ Returns w := by
  have hstart : ∃ nodes, History maxsize [] (World.start maxsize : World α) nodes :=
    ⟨[], invariant_start hmax, .nil _, nil_sublist _, fun _ h => absurd h not_mem_nil,
      fun _ h => absurd h not_mem_nil⟩
  have hstep : ∀ pre (w : World α) label w', (∃ nodes, History maxsize pre w nodes) →
      GoodStep w label w' → ∃ nodes, History maxsize (pre ++ [label]) w' nodes := by
    rintro pre w label w' ⟨nodes, h⟩ ⟨hstep, hmeets⟩
    exact h.step hmax hstep hmeets
  obtain ⟨nodes, h⟩ := h.history hstep hstart
  exact ⟨nodes, h.holds, h.length_le, h.fifo, h.queue_sublist, h.drained_sublist, h.returns hmax⟩

/-- Two mails are added where there is room for one. -/
theorem mailList_law_add :
    ∃ w : World ℕ, Run GoodStep (World.start 1) [.addMailtoList 7 [], .addMailtoList 8 [7]] w ∧
      ∃ nodes, w.list.Holds nodes ∧ (queue nodes).Sublist [7, 8] := by
  obtain ⟨w, hrun⟩ : ∃ w : World ℕ,
      Run GoodStep (World.start 1) [.addMailtoList 7 [], .addMailtoList 8 [7]] w := by
    apply Exists.intro
    apply Run.cons ⟨@Step.addMailtoList _ _ _ 7 0 _ rfl rfl, trivial⟩
    apply Run.cons ⟨@Step.addMailtoList _ _ _ 8 1 _ rfl rfl, trivial⟩
    exact .nil _
  obtain ⟨nodes, hholds, -, -, hsublist, -⟩ := mailList_law (by decide) hrun
  exact ⟨w, hrun, nodes, hholds, hsublist⟩

/-- The last mail is popped: the first node is still pointed to. -/
theorem not_wellFormed_pop :
    ¬ ∀ (maxsize : ℤ) (tr : List (Label ℕ)) (w : World ℕ), 1 ≤ maxsize →
      Run Step (World.start maxsize) tr w → ∃ nodes, w.list.Holds nodes := by
  intro hall
  have hrun := Run.cons (@Step.addMailtoList ℕ (World.start 96) _ 7 0 _ rfl rfl)
    (.cons (.popLastMail rfl) (.nil _))
  obtain ⟨nodes, hholds⟩ := hall 96 _ _ (by decide) hrun
  obtain rfl := hholds.eq_nil (Or.inr rfl)
  cases hholds.n_node

end Maild
