import Assembler65.Line.Basic
import Assembler65.Numeral
import Assembler65.Remark
import Assembler65.Symbol.Table

/-!
# Constants

A line `.define NAME NUMBER` names a number. Constants are collected from the whole program before
any is used, so a use may stand above its definition. A broken definition still claims its name,
so that uses of the name are not reported as well.
-/

set_option autoImplicit false

namespace Assembler65

/-- The constants of a program. -/
abbrev Constants := SymbolTable UInt16

namespace Line

/-- Whether a line defines a constant. -/
def isDefinition (l : Line) : Bool :=
  match l.tokens with
  | ⟨.directive .define, _, _⟩ :: _ => true
  | _ => false

/-- The number of a definition and the faults of it. -/
def definedValue (l : Line) : Option UInt16 × List Fault :=
  match l.tokens.drop 2 with
  | ⟨.number n, text, pos⟩ :: _ =>
    match Numeral.word? n with
    | some value => (some value, [])
    | none => (none, [.inSource pos (.constantOverflow text Numeral.wordLimit)])
  | _ => (none, [l.expected 2 "A NUMBER"])

/-- The fault of a definition with more tokens than it takes. -/
def definitionExcess (l : Line) : List Fault :=
  if l.tokens.length > 3 then [l.expected 3 "NEW LINE"] else []

end Line

namespace Constants

variable [Folding]

/-- Add the constant of a definition. -/
def define (constants : Constants) (l : Line) : Constants × List Remark :=
  match l.tokens.drop 1 with
  | ⟨.identifier name, _, pos⟩ :: _ =>
    let (value, faults) := l.definedValue
    let remarks := (faults ++ l.definitionExcess).map Remark.faultFound
    if constants.contains name then
      (constants, remarks ++ [.faultFound (.inSource pos (.redefinedConstant name))])
    else
      (constants.insert name (value.getD 0),
        remarks ++ [.constantDefined (SymbolTable.key name) value])
  | _ => (constants, [.faultFound (l.expected 1 "An IDENTIFIER")])

/-- Add the constants of some definitions, in order. -/
def defineAll (constants : Constants) : List Line → Constants × List Remark
  | [] => (constants, [])
  | l :: rest =>
    let (constants, remarks) := constants.define l
    let (constants, more) := defineAll constants rest
    (constants, remarks ++ more)

/-- The meaning of a token once the constants are known. A name is a number or a reference. -/
def inlineKind (constants : Constants) : TokenKind → TokenKind
  | .identifier name =>
    match constants.find? name with
    | some value => .number value.toNat
    | none => .reference name
  | kind => kind

/-- A line once the constants are known. -/
def inline (constants : Constants) (l : Line) : Line :=
  { l with tokens := l.tokens.map fun t => { t with kind := constants.inlineKind t.kind } }

end Constants

end Assembler65
