import Assembler65.Text.Lines

/-!
# Sources and positions

A program text with its name, split into rows numbered from one. Rows of blanks are left out when
the text is read but keep their numbers. A position is a row and a column, both counted from one,
and positions are ordered as text is read: by row, then by column.
-/

set_option autoImplicit false

namespace Assembler65

/-- A place in a source. Rows are physical lines, columns are characters. -/
structure Position where
  row : Nat
  column : Nat
  deriving DecidableEq, Repr

namespace Position

/-- Reading order: `p` stands before `q` or at the same place. -/
def le (p q : Position) : Bool :=
  p.row < q.row || (p.row == q.row && p.column ≤ q.column)

theorem le_trans {p q r : Position} (first : p.le q) (second : q.le r) : p.le r := by
  simp only [le, Bool.or_eq_true, decide_eq_true_eq, Bool.and_eq_true, beq_iff_eq] at *
  omega

theorem le_total (p q : Position) : (p.le q || q.le p) = true := by
  simp only [le, Bool.or_eq_true, decide_eq_true_eq, Bool.and_eq_true, beq_iff_eq]
  omega

/-- A position as messages show it. -/
def toText (p : Position) : String :=
  toString p.row ++ ":" ++ toString p.column

end Position

/-- A program text split into rows. -/
structure Source where
  name : String
  rows : List String
  deriving DecidableEq, Repr

namespace Source

/-- The source of a name and a text. -/
def ofText (name text : String) : Source :=
  { name, rows := (Text.lines text.toList).map String.ofList }

/-- A row as it stands in the text. -/
def row? (s : Source) (row : Nat) : Option String :=
  if row == 0 then none else s.rows[row - 1]?

/-- The rows that hold more than blanks, with their numbers. -/
def content (s : Source) : List (Nat × String) :=
  (s.rows.zipIdx 1).filterMap fun (line, row) =>
    if Text.isBlankText line then none else some (row, line)

end Source

end Assembler65
