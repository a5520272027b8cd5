import Assembler65.Remark
import Assembler65.Statement.Addressing
import Assembler65.Symbol.Labels

/-!
# Records from lines

A line gives a label record for a leading declaration and one record for its statement.
-/

set_option autoImplicit false

namespace Assembler65

/-- The operation of a mnemonic with the tokens behind it. -/
def operationItem (m : Mnemonic) (pos : Position) (operands : List Token) : Except Fault Item := do
  let (mode, operand) ← chooseMode m pos operands
  match encode m mode with
  | some opcode => .ok (.operation ⟨m, mode⟩ opcode operand)
  | none => .error (.inSource pos (.unavailableMode mode m))

namespace Line

/-- The label record of a line that starts with a declaration. -/
def labelRecord? [Folding] (labels : Labels) (l : Line) : Option Record :=
  match l.tokens with
  | ⟨.declaration name, _, pos⟩ :: _ => (labels.index? name).map fun index => ⟨pos, .label index⟩
  | _ => none

/-- The record of a line's statement, if the line has one. -/
def statementRecord? (l : Line) : Option (Except Fault Record) :=
  match l.statement with
  | [] => none
  | ⟨.opcode m, _, pos⟩ :: operands =>
    some ((operationItem m pos operands).map fun item => ⟨pos, item⟩)
  | t :: _ => l.gathered?.map fun item => .ok ⟨t.pos, item⟩

/-- The records of a line. -/
def records [Folding] (labels : Labels) (l : Line) : List Record :=
  (l.labelRecord? labels).toList ++
    match l.statementRecord? with
    | some (.ok record) => [record]
    | _ => []

/-- What is noted when the records of a line are made. -/
def recordRemarks (l : Line) : List Remark :=
  match l.statementRecord? with
  | some (.ok record) => [.recordMade l.row record.item]
  | some (.error fault) => [.faultFound fault]
  | none => []

end Line

end Assembler65
