import Assembler65.Fault.Basic

/-!
# Diagnostics

The coloured report of a fault: its category and message, and for a fault in a known source the
place, the row as it stands and a caret under the column.
-/

set_option autoImplicit false

namespace Assembler65.Fault

open Text

/-- The lines that show where in a source a fault is. -/
def excerpt (source : Source) (pos : Position) : List String :=
  let bar := styled [.blue] "|"
  ["     " ++ styled [.blue] "-->" ++ " " ++
      styled [.underline] (source.name ++ ":" ++ pos.toText),
    "      " ++ bar,
    " " ++ styled [.blue] (alignRight 4 (toString pos.row) ++ " |") ++ " " ++
      (source.row? pos.row).getD "",
    "      " ++ bar ++ " " ++ repeated (pos.column - 1) ' ' ++ styled [.red, .bold] "^"]

/-- The lines of a fault's report. -/
def diagnosticLines (source : Option Source) (f : Fault) : List String :=
  (styled [.red, .bold] ("error[" ++ f.category.name ++ "]") ++ ": " ++ f.message) ::
    match f.position?, source with
    | some pos, some source => excerpt source pos
    | _, _ => []

/-- The report of a fault. -/
def diagnostic (source : Option Source) (f : Fault) : String :=
  String.join ((f.diagnosticLines source).map (· ++ "\n"))

/-- The reports of some faults, one after the other. -/
def diagnostics (source : Option Source) (faults : List Fault) : String :=
  String.join (faults.map (diagnostic source))

end Assembler65.Fault
