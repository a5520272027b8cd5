import Assembler65.Line.Reading
import Assembler65.Statement.Records
import Assembler65.Symbol.Constants

/-!
# Programs

`Program.resolve` turns lexemes into records. Every step looks at the whole program and collects
all of its faults; records are made only if no step before found one. The symbol tables are a value
that goes in and comes out.
-/

set_option autoImplicit false

namespace Assembler65

/-- The symbols of a program. -/
structure Symbols where
  constants : Constants := {}
  labels : Labels := {}

/-- What resolving a program gives. -/
structure Resolution where
  symbols : Symbols
  outcome : Except (List Fault) (List Record)
  remarks : List Remark

namespace Program

variable [Folding]

/-- A program with its symbols known and its names replaced. -/
structure Bound where
  symbols : Symbols
  lines : List Line
  remarks : List Remark

/-- The faults of the lines of a program once its constants are inlined, step by step. -/
def lineFaults (lines : List Line) (labels : Labels) (labelFaults : List Fault) : List Fault :=
  lines.flatMap Line.rangeFaults ++
    lines.flatMap (fun l => l.gatherOrigin.2) ++
    lines.flatMap (fun l => l.gatherData.2) ++
    labelFaults ++
    lines.flatMap (Line.referenceFaults labels) ++
    lines.flatMap Line.headFaults

/-- Find the symbols of a program, replace the names in its lines and note all faults. -/
def bind (symbols : Symbols) (lexemes : List Lexeme) : Bound :=
  let lines := Line.ofLexemes lexemes
  let (constants, defined) := symbols.constants.defineAll (lines.filter Line.isDefinition)
  let inlined := (lines.filter fun l => !l.isDefinition).map constants.inline
  let (labels, labelFaults) := symbols.labels.declareAll inlined
  { symbols := ⟨constants, labels⟩
    lines := inlined.map labels.bind
    remarks :=
      (Line.readingFaults lexemes).map .faultFound ++ defined ++
        (lineFaults inlined labels labelFaults).map .faultFound }

/-- The faults among some remarks. -/
def faultsOf (remarks : List Remark) : List Fault := remarks.filterMap Remark.fault?

/-- Turn lexemes into records. -/
def resolve (symbols : Symbols) (lexemes : List Lexeme) : Resolution :=
  let bound := bind symbols lexemes
  let remarks := bound.remarks ++
    [.symbolsCollected bound.lines.length bound.symbols.constants.size bound.symbols.labels.size]
  match faultsOf bound.remarks with
  | [] =>
    let made := bound.lines.flatMap Line.recordRemarks
    match faultsOf made with
    | [] =>
      let records := bound.lines.flatMap (Line.records bound.symbols.labels)
      ⟨bound.symbols, .ok records, remarks ++ made ++ [.recordsMade records.length]⟩
    | faults => ⟨bound.symbols, .error (Fault.sorted faults), remarks ++ made⟩
  | faults => ⟨bound.symbols, .error (Fault.sorted faults), remarks⟩

end Program

end Assembler65
