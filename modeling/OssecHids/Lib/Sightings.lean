import Mathlib.Data.List.Nodup

/-!
# First and last sightings

A table of what was seen: one entry for each key, with the times of the first and of the latest
event that had it.

- `firstTime_append`: what was seen first does not change;
- `Faithful.note`: an event is noted in the table.
-/

open List

namespace Sightings

structure Sighting (K T : Type*) where
  key : K
  first : T
  last : T
  deriving DecidableEq

variable {K T : Type*} [DecidableEq K]

/-- A new entry, or a later time in the entry that is there. -/
def note (k : K) (t : T) (table : List (Sighting K T)) : List (Sighting K T) :=
  if k ∈ table.map Sighting.key then
    table.map fun s => if s.key = k then { s with last := t } else s
  else table ++ [⟨k, t, t⟩]

/-- The time of the first event with a key. -/
def firstTime (k : K) (events : List (K × T)) : Option T :=
  (events.find? fun e => decide (e.1 = k)).map Prod.snd

/-- The time of the latest event with a key. -/
def lastTime (k : K) (events : List (K × T)) : Option T := firstTime k events.reverse

/-- The table tells what was seen. -/
structure Faithful (events : List (K × T)) (table : List (Sighting K T)) : Prop where
  nodup : (table.map Sighting.key).Nodup
  mem_iff : ∀ k, k ∈ table.map Sighting.key ↔ k ∈ events.map Prod.fst
  first : ∀ s ∈ table, firstTime s.key events = some s.first
  last : ∀ s ∈ table, lastTime s.key events = some s.last

variable {events : List (K × T)} {table : List (Sighting K T)} {k : K} {t : T}

theorem faithful_nil : Faithful ([] : List (K × T)) [] where
  nodup := nodup_nil
  mem_iff _ := Iff.rfl
  first _ hs := absurd hs not_mem_nil
  last _ hs := absurd hs not_mem_nil

theorem note_of_mem (h : k ∈ table.map Sighting.key) :
    note k t table = table.map fun s => if s.key = k then { s with last := t } else s := if_pos h

theorem note_of_notMem (h : k ∉ table.map Sighting.key) :
    note k t table = table ++ [⟨k, t, t⟩] := if_neg h

/-- With one entry for each key, an event changes the entry of its key only. -/
theorem note_of_split {front back : List (Sighting K T)} {s : Sighting K T}
    (hnodup : ((front ++ s :: back).map Sighting.key).Nodup) (t : T) :
    note s.key t (front ++ s :: back) = front ++ { s with last := t } :: back := by
  rw [map_append, map_cons, nodup_middle, nodup_cons, mem_append, not_or] at hnodup
  obtain ⟨⟨hfront, hback⟩, -⟩ := hnodup
  have hother : ∀ l : List (Sighting K T), s.key ∉ l.map Sighting.key →
      (l.map fun s' => if s'.key = s.key then { s' with last := t } else s') = l := by
    intro l hl
    have hsame : ∀ s' ∈ l, (if s'.key = s.key then { s' with last := t } else s') = id s' := by
      intro s' hs'
      apply if_neg
      intro heq
      exact hl (heq ▸ mem_map_of_mem hs')
    rw [map_congr_left hsame, List.map_id]
  rw [note_of_mem (by simp), map_append, map_cons, hother front hfront,
    hother back hback, if_pos rfl]

theorem map_key_note_of_mem (h : k ∈ table.map Sighting.key) :
    (note k t table).map Sighting.key = table.map Sighting.key := by
  rw [note_of_mem h, List.map_map]
  refine map_congr_left fun s _ => ?_
  rw [Function.comp_apply]
  split <;> rfl

theorem lastTime_concat (k' : K) :
    lastTime k' (events ++ [(k, t)]) = if k = k' then some t else lastTime k' events := by
  rw [lastTime, firstTime, reverse_append, reverse_singleton, singleton_append]
  by_cases hk : k = k'
  · rw [find?_cons_of_pos (by simpa using hk), if_pos hk]
    rfl
  · rw [find?_cons_of_neg (by simpa using hk), if_neg hk]
    rfl

theorem firstTime_append {t' : T} (h : firstTime k events = some t') (events' : List (K × T)) :
    firstTime k (events ++ events') = some t' := by
  obtain ⟨e, he, rfl⟩ := Option.map_eq_some_iff.mp h
  rw [firstTime, find?_append, he]
  rfl

theorem firstTime_concat_of_notMem (h : k ∉ events.map Prod.fst) :
    firstTime k (events ++ [(k, t)]) = some t := by
  have hnone : events.find? (fun e => decide (e.1 = k)) = none := by
    refine find?_eq_none.mpr fun e he => ?_
    rw [decide_eq_true_iff]
    rintro rfl
    exact h (mem_map_of_mem he)
  have hself : List.find? (fun e => decide (e.1 = k)) [(k, t)] = some (k, t) :=
    find?_cons_of_pos (decide_eq_true rfl)
  rw [firstTime, find?_append, hnone, Option.none_or, hself]
  rfl

/-- An event is noted in the table. -/
theorem Faithful.note (h : Faithful events table) (k : K) (t : T) :
    Faithful (events ++ [(k, t)]) (note k t table) := by
  by_cases hk : k ∈ table.map Sighting.key
  case pos =>
    have hkeys := map_key_note_of_mem (t := t) hk
    refine ⟨by rw [hkeys]; exact h.nodup, fun k' => ?_, fun s hs => ?_, fun s hs => ?_⟩
    · rw [hkeys, h.mem_iff, map_append, mem_append, map_singleton, mem_singleton]
      refine ⟨.inl, fun hk' => hk'.elim id ?_⟩
      rintro rfl
      exact (h.mem_iff _).mp hk
    · rw [note_of_mem hk, mem_map] at hs
      obtain ⟨s, hs, rfl⟩ := hs
      split
      · exact firstTime_append (h.first s hs) _
      · exact firstTime_append (h.first s hs) _
    · rw [note_of_mem hk, mem_map] at hs
      obtain ⟨s, hs, rfl⟩ := hs
      rw [lastTime_concat]
      split
      case isTrue heq => rw [if_pos heq.symm]
      case isFalse hne =>
        rw [if_neg (Ne.symm hne)]
        exact h.last s hs
  case neg =>
    have hk' : k ∉ events.map Prod.fst := fun hmem => hk ((h.mem_iff k).mpr hmem)
    rw [note_of_notMem hk]
    refine ⟨?_, fun k' => ?_, fun s hs => ?_, fun s hs => ?_⟩
    · rw [map_append, map_singleton, ← concat_eq_append, nodup_concat]
      exact ⟨hk, h.nodup⟩
    · rw [map_append, mem_append, h.mem_iff, map_append, mem_append]
      rfl
    · rcases mem_append.mp hs with hs | hs
      · exact firstTime_append (h.first s hs) _
      · obtain rfl := mem_singleton.mp hs
        exact firstTime_concat_of_notMem hk'
    · rw [lastTime_concat]
      rcases mem_append.mp hs with hs | hs
      · have hne : k ≠ s.key := fun heq => hk (heq ▸ mem_map_of_mem hs)
        rw [if_neg hne]
        exact h.last s hs
      · obtain rfl := mem_singleton.mp hs
        exact if_pos rfl

end Sightings
