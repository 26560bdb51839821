import Mathlib.Data.List.Basic

/-!
# Streams of frames

A stream in which every frame ends with the letter `c`: the frames that are complete, and the
unfinished one behind them.

- `framesRec`: a stream is an unfinished frame, or a frame and the stream behind it;
- `frames_append`, `rest_append`: what comes later meets the unfinished frame only.
-/

open List

namespace Framing

variable {α β : Type*} [BEq α] [LawfulBEq α] {c : α} {l r s t : List α}

/-- The complete frames of a stream. -/
def frames (c : α) (s : List α) : List (List α) := (s.splitOn c).dropLast

/-- The unfinished frame at the end of a stream. -/
def rest (c : α) (s : List α) : List α := (s.splitOn c).getLastD []

theorem frames_of_notMem (h : c ∉ s) : frames c s = [] := by
  rw [frames, splitOn_eq_singleton h]
  rfl

theorem rest_of_notMem (h : c ∉ s) : rest c s = s := by
  rw [rest, splitOn_eq_singleton h]
  rfl

theorem frames_append_cons (h : c ∉ l) : frames c (l ++ c :: r) = l :: frames c r := by
  rw [frames, splitOn_append_cons_self_of_not_mem h,
    dropLast_cons_of_ne_nil (splitOn_ne_nil c r), frames]

theorem rest_append_cons (h : c ∉ l) : rest c (l ++ c :: r) = rest c r := by
  obtain ⟨f, fs, hr⟩ := exists_cons_of_ne_nil (splitOn_ne_nil c r)
  rw [rest, splitOn_append_cons_self_of_not_mem h, rest, hr]
  rfl

@[elab_as_elim]
theorem framesRec {motive : List α → Prop} (unfinished : ∀ l, c ∉ l → motive l)
    (frame : ∀ l r, c ∉ l → motive r → motive (l ++ c :: r)) (s : List α) : motive s := by
  induction h : s.length using Nat.strongRecOn generalizing s with
  | _ n ih =>
    by_cases hc : c ∈ s
    case neg => exact unfinished s hc
    case pos =>
      obtain ⟨l, r, rfl, hl⟩ := eq_append_cons_of_mem hc
      refine frame l r hl (ih r.length ?_ r rfl)
      rw [← h, length_append, length_cons]
      omega

theorem notMem_rest (s : List α) : c ∉ rest c s := by
  induction s using framesRec (c := c) with
  | unfinished l hl => rwa [rest_of_notMem hl]
  | frame l r hl ih => rwa [rest_append_cons hl]

theorem frames_append (s t : List α) :
    frames c (s ++ t) = frames c s ++ frames c (rest c s ++ t) := by
  induction s using framesRec (c := c) with
  | unfinished l hl => rw [frames_of_notMem hl, rest_of_notMem hl, nil_append]
  | frame l r hl ih =>
    rw [append_assoc, cons_append, frames_append_cons hl, frames_append_cons hl,
      rest_append_cons hl, ih, cons_append]

theorem rest_append (s t : List α) : rest c (s ++ t) = rest c (rest c s ++ t) := by
  induction s using framesRec (c := c) with
  | unfinished l hl => rw [rest_of_notMem hl]
  | frame l r hl ih =>
    rw [append_assoc, cons_append, rest_append_cons hl, rest_append_cons hl, ih]

theorem length_frames (s : List α) : (frames c s).length = s.count c := by
  induction s using framesRec (c := c) with
  | unfinished l hl => rw [frames_of_notMem hl, count_eq_zero_of_not_mem hl, length_nil]
  | frame l r hl ih =>
    rw [frames_append_cons hl, length_cons, ih, count_append, count_cons_self,
      count_eq_zero_of_not_mem hl, Nat.zero_add]

/-- A frame that is still unfinished will be one of the frames, once it ends. -/
theorem exists_frame (hs : c ∈ t) : ∃ l, rest c s ++ l ∈ frames c (s ++ t) := by
  obtain ⟨l, r, rfl, hl⟩ := eq_append_cons_of_mem hs
  have hmem : c ∉ rest c s ++ l := by
    rw [mem_append, not_or]
    exact ⟨notMem_rest s, hl⟩
  refine ⟨l, ?_⟩
  rw [frames_append, ← append_assoc, frames_append_cons hmem]
  exact mem_append_right _ mem_cons_self

variable [BEq β] [LawfulBEq β] {f : α → β} {d : β}

theorem frames_map (hf : ∀ a, f a = d ↔ a = c) (s : List α) :
    frames d (s.map f) = (frames c s).map (List.map f) := by
  have hnot : ∀ l : List α, c ∉ l → d ∉ l.map f := by
    intro l hl h
    obtain ⟨a, ha, hd⟩ := mem_map.mp h
    exact hl ((hf a).mp hd ▸ ha)
  induction s using framesRec (c := c) with
  | unfinished l hl => rw [frames_of_notMem hl, frames_of_notMem (hnot l hl), map_nil]
  | frame l r hl ih =>
    rw [map_append, map_cons, (hf c).mpr rfl, frames_append_cons (hnot l hl),
      frames_append_cons hl, ih, map_cons]

theorem rest_map (hf : ∀ a, f a = d ↔ a = c) (s : List α) :
    rest d (s.map f) = (rest c s).map f := by
  have hnot : ∀ l : List α, c ∉ l → d ∉ l.map f := by
    intro l hl h
    obtain ⟨a, ha, hd⟩ := mem_map.mp h
    exact hl ((hf a).mp hd ▸ ha)
  induction s using framesRec (c := c) with
  | unfinished l hl => rw [rest_of_notMem hl, rest_of_notMem (hnot l hl)]
  | frame l r hl ih =>
    rw [map_append, map_cons, (hf c).mpr rfl, rest_append_cons (hnot l hl), rest_append_cons hl, ih]

end Framing
