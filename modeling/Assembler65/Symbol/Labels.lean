import Assembler65.Statement.Directive
import Assembler65.Symbol.Table

/-!
# Labels

A label declaration at the start of a line names the address of the line. Labels are numbered in
the order of their declaration, and references are bound to these numbers once all are known.
-/

set_option autoImplicit false

namespace Assembler65

/-- The labels of a program with the rows of their declarations. -/
abbrev Labels := SymbolTable Nat

/-- A name that is a register or a mnemonic cannot be a label. -/
def isReserved (name : String) : Bool :=
  (Register.parse? name).isSome || (Mnemonic.parse? name).isSome

namespace Labels

variable [Folding]

/-- Add the label that a line declares. -/
def declare (labels : Labels) (l : Line) : Labels × List Fault :=
  match l.tokens with
  | ⟨.declaration name, _, pos⟩ :: _ =>
    if isReserved name then (labels, [.inSource pos (.reservedLabel name)])
    else
      match labels.find? name with
      | some firstRow => (labels, [.inSource pos (.redefinedLabel name firstRow)])
      | none => (labels.insert name l.row, [])
  | _ => (labels, [])

/-- Add the labels that some lines declare, in order. -/
def declareAll (labels : Labels) : List Line → Labels × List Fault
  | [] => (labels, [])
  | l :: rest =>
    let (labels, faults) := labels.declare l
    let (labels, more) := declareAll labels rest
    (labels, faults ++ more)

/-- The meaning of a token once the labels are known. -/
def bindKind (labels : Labels) : TokenKind → TokenKind
  | .reference name =>
    match labels.index? name with
    | some index => .label index
    | none => .reference name
  | kind => kind

/-- A line once the labels are known. -/
def bind (labels : Labels) (l : Line) : Line :=
  { l with tokens := l.tokens.map fun t => { t with kind := labels.bindKind t.kind } }

end Labels

namespace Line

/-- The faults of references to no label. A gathered directive has used up its tokens. -/
def referenceFaults [Folding] (labels : Labels) (l : Line) : List Fault :=
  if l.gathered?.isSome then []
  else
    l.tokens.filterMap fun t =>
      match t.kind with
      | .reference name =>
        if labels.contains name then none else some (.inSource t.pos (.undefinedLabel name))
      | _ => none

end Line

end Assembler65
