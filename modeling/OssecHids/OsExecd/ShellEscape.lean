import OssecHids.Analysisd.Exec
import OssecHids.OsExecd.Request

/-!
# Escaping for a shell

`os_shell_escape`, which looks for a character in an array without a zero byte, and the scanner
`os_shell_escape_strchr` of the other side.

- `strchrReads_le_iff`: the array is enough for the characters that it has;
- `shellEscape_law`: what holds of every text, and what holds of the texts of such characters.
-/

open CString Escape Exec Execd List

namespace ShellEscape

/-- How many bytes `strchr(s, c)` reads. Where an array ends it goes on behind it. -/
def strchrReads (c : UInt8) : Bytes → ℕ
  | [] => 1
  | b :: s => if b = c ∨ b = 0 then 1 else strchrReads c s + 1

/-- `Readable stack s`: what the scanner is promised of an escaped text, with other bytes on the
`stack` behind the array. -/
structure Readable (stack s : Bytes) : Prop where
  /-- Without one backslash in front of each escaped character it is the text again. -/
  unescape_eq : unescape (chr '\\') (osShellEscape stack s) = s
  odd_run : ∀ c ∈ shell_escapes, c ≠ chr '\\' → ∀ l r, osShellEscape stack s = l ++ c :: r →
    run (chr '\\') l % 2 = 1
  none_found : ∀ c ∈ shell_escapes, c ≠ chr '\\' →
    osShellEscapeStrchr c (osShellEscape stack s) = none
  one_found : ∀ c ∈ shell_escapes, c ≠ chr '\\' → ∀ t,
    osShellEscapeStrchr c (osShellEscape stack s ++ c :: t) = some (c :: t)

/-- `Listed stack s`: the characters that are escaped are the ones of the array, and nothing behind
its last element is read to find out. -/
structure Listed (stack s : Bytes) : Prop where
  escaped_iff : ∀ c ∈ s, isShellEscape stack c = true ↔ c ∈ shell_escapes
  reads_le : ∀ c ∈ s, strchrReads c (shell_escapes ++ stack) ≤ shell_escapes.length

variable {stack s t : Bytes} {b c : UInt8}

theorem isShellEscape_of_listed (hc : c ∈ shell_escapes) : isShellEscape stack c = true := by
  rw [isShellEscape, contains_iff_mem]
  exact mem_append_left _ hc

theorem readable (stack s : Bytes) : Readable stack s := by
  have hesc : isShellEscape stack (chr '\\') = true := isShellEscape_of_listed (by decide)
  have hprotected : ∀ c ∈ shell_escapes, Protected (chr '\\') c (osShellEscape stack s) :=
    fun c hc => protected_escape hesc (isShellEscape_of_listed hc) s
  constructor
  · exact unescape_escape hesc s
  · intro c hc hne l r h
    exact (hprotected c hc).odd_run hne h
  · intro c hc _
    exact osShellEscapeStrchr_eq_none (hprotected c hc)
  · intro c hc hne t
    exact osShellEscapeStrchr_append (hprotected c hc) hne

/-- What an array has is found in it; what it does not have is looked for behind it. -/
theorem strchrReads_le_iff (ht : 0 ∉ t) (c : UInt8) (stack : Bytes) :
    strchrReads c (t ++ stack) ≤ t.length ↔ c ∈ t := by
  have hpos : ∀ u, 0 < strchrReads c u := fun u => by
    cases u with
    | nil => exact Nat.one_pos
    | cons b u =>
      rw [strchrReads]
      split
      · exact Nat.one_pos
      · exact Nat.succ_pos _
  induction t with
  | nil =>
    have := hpos stack
    rw [nil_append, length_nil]
    exact iff_of_false (by omega) not_mem_nil
  | cons b t ih =>
    rw [mem_cons, not_or] at ht
    rw [cons_append, strchrReads, length_cons, mem_cons]
    by_cases hb : b = c
    case pos =>
      rw [if_pos (.inl hb)]
      exact iff_of_true (Nat.le_add_left 1 _) (.inl hb.symm)
    case neg =>
      have hcb : ¬c = b := fun h => hb h.symm
      rw [if_neg (not_or.mpr ⟨hb, fun h => ht.1 h.symm⟩), Nat.add_le_add_iff_right]
      exact (ih ht.2).trans ⟨.inr, fun h => h.resolve_left hcb⟩

/-- **When the array decides what is escaped**: of the texts that have no other characters. What
the scanner is promised holds of every text. -/
theorem shellEscape_law (stack s : Bytes) :
    (Readable stack s ∧ Listed stack s ↔ ∀ c ∈ s, c ∈ shell_escapes) ∧ Readable stack s := by
  have hz : 0 ∉ shell_escapes := by decide
  refine ⟨⟨fun h c hc => ?_, fun h => ⟨readable stack s, ?_, ?_⟩⟩, readable stack s⟩
  · exact (strchrReads_le_iff hz c stack).mp (h.2.reads_le c hc)
  · exact fun c hc => iff_of_true (isShellEscape_of_listed (h c hc)) (h c hc)
  · exact fun c hc => (strchrReads_le_iff hz c stack).mpr (h c hc)

/-- The letter of a file name is looked for behind the array, and escaped if it is found there. -/
theorem not_listed :
    ¬Listed [0] (lit "a") ∧ ¬Listed (lit "a") (lit "a") ∧
      osShellEscape (lit "a") (lit "a") = lit "\\a" := by
  refine ⟨fun h => ?_, fun h => ?_, by decide⟩
  · exact absurd (h.reads_le (chr 'a') (by decide)) (by decide)
  · exact absurd ((h.escaped_iff (chr 'a') (by decide)).mp (by decide)) (by decide)

end ShellEscape
