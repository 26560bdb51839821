import OssecHids.Lib.Lines

/-!
# Texts that end with a dot

A text is sent line by line, and a line with nothing but a dot ends it. A writer that works byte
by byte stands in the middle of a line most of the time: `linesFrom` are the lines that start at
or behind the place where it stands.

- `splitOn_eq_cons`: the line where a text stands, and the lines behind it;
- `unstuff`: what a reader makes of a text, who takes the first dot off each line;
- `unstuffFrom_dot`, `unstuffFrom_cons`: the same, byte by byte.
-/

open CString List

namespace DotStuffing

/-- What the text has of the line where it stands. -/
def firstLine (s : Bytes) : Bytes := s.takeWhile (· ≠ chr '\n')

/-- The lines behind that one. -/
def nextLines (s : Bytes) : List Bytes := (s.splitOn (chr '\n')).tail

/-- The lines that start in a text; the first one does when the text is at the start of a line. -/
def linesFrom (line_start : Bool) (s : Bytes) : List Bytes :=
  if line_start then s.splitOn (chr '\n') else nextLines s

/-- A line without the dot in front of it. -/
def unstuffLine (line : Bytes) : Bytes :=
  if line.head? = some (chr '.') then line.tail else line

/-- A text whose lines lose the dot in front of them. -/
def unstuff (s : Bytes) : Bytes :=
  [chr '\n'].intercalate ((s.splitOn (chr '\n')).map unstuffLine)

/-- What is left of a text from here on. -/
def unstuffFrom (line_start : Bool) (s : Bytes) : Bytes :=
  (if line_start then unstuffLine (firstLine s) else firstLine s) ++
    (nextLines s).flatMap (chr '\n' :: unstuffLine ·)

variable {b : UInt8} {line s : Bytes} {line_start : Bool}

/-! ## The lines -/

theorem firstLine_newline (s : Bytes) : firstLine (chr '\n' :: s) = [] :=
  takeWhile_cons_of_neg (by simp)

theorem firstLine_cons (hb : b ≠ chr '\n') (s : Bytes) :
    firstLine (b :: s) = b :: firstLine s :=
  takeWhile_cons_of_pos (by simpa using hb)

theorem nextLines_newline (s : Bytes) : nextLines (chr '\n' :: s) = s.splitOn (chr '\n') := by
  rw [nextLines, splitOn_cons_eq_if_modifyHead, if_pos (beq_self_eq_true _)]
  rfl

theorem nextLines_cons (hb : b ≠ chr '\n') (s : Bytes) : nextLines (b :: s) = nextLines s := by
  have hbeq : ¬(b == chr '\n') = true := fun h => hb (eq_of_beq h)
  rw [nextLines, nextLines, splitOn_cons_eq_if_modifyHead, if_neg hbeq]
  cases s.splitOn (chr '\n') with
  | nil => rfl
  | cons line lines => rfl

theorem splitOn_eq_cons (s : Bytes) : s.splitOn (chr '\n') = firstLine s :: nextLines s := by
  induction s with
  | nil => rfl
  | cons b s ih =>
    by_cases hb : b = chr '\n'
    case pos =>
      obtain rfl := hb
      rw [firstLine_newline, nextLines_newline, splitOn_cons_eq_if_modifyHead,
        if_pos (beq_self_eq_true _)]
    case neg =>
      have hbeq : ¬(b == chr '\n') = true := fun h => hb (eq_of_beq h)
      rw [firstLine_cons hb, nextLines_cons hb, splitOn_cons_eq_if_modifyHead, if_neg hbeq, ih]
      rfl

theorem linesFrom_newline (line_start : Bool) (s : Bytes) :
    linesFrom line_start (chr '\n' :: s) =
      (if line_start then [[]] else []) ++ linesFrom true s := by
  cases line_start with
  | true =>
    show (chr '\n' :: s).splitOn (chr '\n') = [] :: s.splitOn (chr '\n')
    rw [splitOn_eq_cons, firstLine_newline, nextLines_newline]
  | false => exact nextLines_newline s

theorem linesFrom_false_cons (hb : b ≠ chr '\n') (s : Bytes) :
    linesFrom false (b :: s) = linesFrom false s :=
  nextLines_cons hb s

theorem linesFrom_true_cons (hb : b ≠ chr '\n') (s : Bytes) :
    linesFrom true (b :: s) = (b :: firstLine s) :: linesFrom false s := by
  show (b :: s).splitOn (chr '\n') = _ :: nextLines s
  rw [splitOn_eq_cons, firstLine_cons hb, nextLines_cons hb]

/-! ## What a reader makes of them -/

theorem intercalate_cons_eq (line : Bytes) (lines : List Bytes) :
    [chr '\n'].intercalate (line :: lines) = line ++ lines.flatMap (chr '\n' :: ·) := by
  induction lines generalizing line with
  | nil => simp
  | cons next lines ih =>
    rw [intercalate_cons_cons, ih, flatMap_cons, append_assoc]
    rfl

theorem unstuff_eq (s : Bytes) : unstuff s = unstuffFrom true s := by
  rw [unstuff, splitOn_eq_cons, map_cons, intercalate_cons_eq, flatMap_map]
  rfl

@[simp]
theorem unstuffFrom_nil (line_start : Bool) : unstuffFrom line_start [] = [] := by
  cases line_start with
  | true => rfl
  | false => rfl

theorem unstuffFrom_newline (line_start : Bool) (s : Bytes) :
    unstuffFrom line_start (chr '\n' :: s) = chr '\n' :: unstuffFrom true s := by
  have hfirst : (if line_start then unstuffLine [] else []) = [] := by
    cases line_start with
    | true => rfl
    | false => rfl
  rw [unstuffFrom, firstLine_newline, nextLines_newline, splitOn_eq_cons, hfirst, flatMap_cons]
  rfl

theorem unstuffFrom_dot (s : Bytes) : unstuffFrom true (chr '.' :: s) = unstuffFrom false s := by
  rw [unstuffFrom, unstuffFrom, firstLine_cons (by decide), nextLines_cons (by decide)]
  rfl

theorem unstuffFrom_cons (hb : b ≠ chr '\n') (hdot : line_start = true → b ≠ chr '.')
    (s : Bytes) : unstuffFrom line_start (b :: s) = b :: unstuffFrom false s := by
  rw [unstuffFrom, unstuffFrom, firstLine_cons hb, nextLines_cons hb]
  cases line_start with
  | false => rfl
  | true =>
    have hne : ¬(b :: firstLine s).head? = some (chr '.') :=
      fun h => hdot rfl (Option.some.inj h)
    rw [if_pos rfl, unstuffLine, if_neg hne]
    rfl

end DotStuffing
