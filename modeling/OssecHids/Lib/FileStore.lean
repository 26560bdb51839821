import OssecHids.Lib.CString

/-!
# A directory of files with inode numbers

The part of a POSIX file system that programs keeping small state files rely on: a directory
that maps paths to files, each with an inode number and its bytes, and streams that stay on
their inode when the path is unlinked or given to another file.

A stream is the inode it is open on, together with the path it was opened by. A write through a
stream whose path now names another inode (or none) goes to a file nobody can open any more, so
it leaves the directory as it is. Inode numbers are never reused.

- `write`: rewrite the start of a file in place, without truncation (`fseek(fp, 0)`, `fprintf`,
  `fflush`);
- `openUpdate`: `fopen(path, "r+")`, and `fopen(path, "w+")` when that fails;
- `stat_write`, `read_write`, `read_write_of_ne`: what a rewrite changes and what it keeps.
-/

open CString

/-- A file of the directory. -/
structure File where
  /-- The inode number. -/
  ino : ℕ
  /-- The bytes of the file. -/
  data : Bytes
  deriving DecidableEq

/-- A directory. Every linked inode number is positive and below `next`. -/
structure FileStore (P : Type) where
  /-- The file a path names, if it names one. -/
  file : P → Option File
  /-- The inode number the next file gets. -/
  next : ℕ
  next_pos : 0 < next
  ino_pos : ∀ p f, file p = some f → 0 < f.ino
  ino_lt : ∀ p f, file p = some f → f.ino < next

namespace FileStore

variable {P : Type} [DecidableEq P]

/-- The directory without files. -/
def empty : FileStore P where
  file := fun _ => none
  next := 1
  next_pos := by decide
  ino_pos := by simp
  ino_lt := by simp

/-- The inode number of a path, `0` if it names no file. -/
def stat (s : FileStore P) (p : P) : ℕ := (s.file p).elim 0 File.ino

/-- The bytes of the file at a path, none if it names no file. -/
def read (s : FileStore P) (p : P) : Bytes := (s.file p).elim [] File.data

/-- Replace the bytes of the file at `p`, if it is still the inode `h`. -/
def modify (s : FileStore P) (p : P) (h : ℕ) (g : Bytes → Bytes) : FileStore P where
  file := fun q => (s.file q).map fun f =>
    if q = p ∧ f.ino = h then { f with data := g f.data } else f
  next := s.next
  next_pos := s.next_pos
  ino_pos := by
    intro q f hf
    obtain ⟨f', hf', rfl⟩ := Option.map_eq_some_iff.mp hf
    have := s.ino_pos q f' hf'
    split_ifs <;> exact this
  ino_lt := by
    intro q f hf
    obtain ⟨f', hf', rfl⟩ := Option.map_eq_some_iff.mp hf
    have := s.ino_lt q f' hf'
    split_ifs <;> exact this

/-- Write `bs` at offset 0 through the stream that `p` opened on the inode `h`. The file is not
truncated, so the rest of a longer content stays behind `bs`. -/
def write (s : FileStore P) (p : P) (h : ℕ) (bs : Bytes) : FileStore P :=
  s.modify p h (overwrite bs)

/-- Truncate the file at `p` in place. -/
def truncate (s : FileStore P) (p : P) : FileStore P := s.modify p (s.stat p) fun _ => []

/-- Remove the directory entry `p`. Streams that are open on its inode keep it. -/
def unlink (s : FileStore P) (p : P) : FileStore P where
  file := Function.update s.file p none
  next := s.next
  next_pos := s.next_pos
  ino_pos := by
    intro q f hf
    by_cases hq : q = p
    · simp [hq] at hf
    · exact s.ino_pos q f (by simpa [hq] using hf)
  ino_lt := by
    intro q f hf
    by_cases hq : q = p
    · simp [hq] at hf
    · exact s.ino_lt q f (by simpa [hq] using hf)

/-- Make `p` name a new empty file. -/
def create (s : FileStore P) (p : P) : FileStore P where
  file := Function.update s.file p (some { ino := s.next, data := [] })
  next := s.next + 1
  next_pos := Nat.succ_pos _
  ino_pos := by
    intro q f hf
    by_cases hq : q = p
    · subst hq
      simp only [Function.update_self, Option.some.injEq] at hf
      rw [← hf]
      exact s.next_pos
    · exact s.ino_pos q f (by simpa [hq] using hf)
  ino_lt := by
    intro q f hf
    by_cases hq : q = p
    · subst hq
      simp only [Function.update_self, Option.some.injEq] at hf
      rw [← hf]
      exact Nat.lt_succ_self _
    · exact Nat.lt_succ_of_lt (s.ino_lt q f (by simpa [hq] using hf))

/-- `fopen(p, "r+")`, and `fopen(p, "w+")` when there is no such file. The stream is the inode
that `p` names in the result. -/
def openUpdate (s : FileStore P) (p : P) : FileStore P :=
  match s.file p with
  | some _ => s
  | none => s.create p

/-! ## What the operations change -/

@[simp]
theorem stat_modify (s : FileStore P) (p q : P) (h : ℕ) (g : Bytes → Bytes) :
    (s.modify p h g).stat q = s.stat q := by
  simp only [stat, modify]
  cases s.file q with
  | none => rfl
  | some f => simp only [Option.map_some, Option.elim_some]; split_ifs <;> rfl

theorem read_modify (s : FileStore P) (p q : P) (h : ℕ) (g : Bytes → Bytes) :
    (s.modify p h g).read q =
      if q = p ∧ s.stat q = h ∧ s.stat q ≠ 0 then g (s.read q) else s.read q := by
  rcases hq : s.file q with _ | f
  · simp [stat, read, modify, hq]
  · have hpos : f.ino ≠ 0 := (s.ino_pos q f hq).ne'
    simp only [stat, read, modify, hq, Option.map_some, Option.elim_some]
    by_cases hc : q = p ∧ f.ino = h
    · rw [if_pos hc, if_pos ⟨hc.1, hc.2, hpos⟩]
    · rw [if_neg hc, if_neg fun h' => hc ⟨h'.1, h'.2.1⟩]

@[simp]
theorem stat_write (s : FileStore P) (p q : P) (h : ℕ) (bs : Bytes) :
    (s.write p h bs).stat q = s.stat q := stat_modify s p q h _

/-- A rewrite through a stream that still is on its path puts `bs` in front of the file. -/
theorem read_write (s : FileStore P) {p : P} {h : ℕ} (hp : s.stat p = h) (hh : h ≠ 0)
    (bs : Bytes) : (s.write p h bs).read p = overwrite bs (s.read p) := by
  rw [write, read_modify, if_pos ⟨rfl, hp, hp ▸ hh⟩]

@[simp]
theorem read_write_of_ne (s : FileStore P) {p q : P} (hq : q ≠ p) (h : ℕ) (bs : Bytes) :
    (s.write p h bs).read q = s.read q := by
  rw [write, read_modify, if_neg fun h' => hq h'.1]

theorem read_truncate (s : FileStore P) (p : P) : (s.truncate p).read p = [] := by
  rw [truncate, read_modify]
  split_ifs with h
  · rfl
  · have hstat : s.stat p = 0 := by
      by_contra hne
      exact h ⟨rfl, rfl, hne⟩
    cases hf : s.file p with
    | none => simp [read, hf]
    | some f => exact absurd hstat (by simpa [stat, hf] using (s.ino_pos p f hf).ne')

@[simp]
theorem read_unlink (s : FileStore P) (p : P) : (s.unlink p).read p = [] := by
  simp [read, unlink]

@[simp]
theorem read_create (s : FileStore P) (p : P) : (s.create p).read p = [] := by
  simp [read, create]

theorem stat_create (s : FileStore P) (p : P) : (s.create p).stat p = s.next := by
  simp [stat, create]

theorem stat_openUpdate_ne_zero (s : FileStore P) (p : P) : (s.openUpdate p).stat p ≠ 0 := by
  rw [openUpdate]
  cases hf : s.file p with
  | none => simpa [stat_create] using s.next_pos.ne'
  | some f => simpa [stat, hf] using (s.ino_pos p f hf).ne'

/-- Opening a file for update keeps its bytes; a file that did not exist is empty. -/
@[simp]
theorem read_openUpdate (s : FileStore P) (p q : P) : (s.openUpdate p).read q = s.read q := by
  rw [openUpdate]
  cases hf : s.file p with
  | some f => rfl
  | none =>
    by_cases hq : q = p
    · subst hq
      change (s.create q).read q = s.read q
      rw [read_create, read, hf]
      rfl
    · simp [read, create, hq]

theorem openUpdate_of_stat_ne_zero (s : FileStore P) {p : P} (h : s.stat p ≠ 0) :
    s.openUpdate p = s := by
  rw [openUpdate]
  cases hf : s.file p with
  | some f => rfl
  | none => exact absurd (by simp [stat, hf]) h

/-- A path that names a file keeps its inode when any path is opened for update. -/
theorem stat_openUpdate_of_ne_zero (s : FileStore P) {p q : P} (h : s.stat q ≠ 0) :
    (s.openUpdate p).stat q = s.stat q := by
  by_cases hq : q = p
  · subst hq
    rw [openUpdate_of_stat_ne_zero s h]
  · rw [openUpdate]
    cases s.file p with
    | some f => rfl
    | none => simp [stat, create, hq]

end FileStore
