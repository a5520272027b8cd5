import Assembler65.Image.Linking
import Assembler65.Lexeme.Scanner
import Assembler65.Program

/-!
# Assembling

From a source to an image: lexemes, records, image. Each stage runs only if the one before found no
fault.
-/

set_option autoImplicit false

namespace Assembler65

/-- The origin of an image unless another is asked for. -/
def defaultOrigin : UInt16 := 0x0600

/-- The address of an origin given as a numeral. -/
def originOfText (s : String) : Except Fault UInt16 :=
  match (Numeral.parse? s).bind Numeral.word? with
  | some origin => .ok origin
  | none => .error (.inArguments (.invalidOrigin s))

namespace Source

/-- The fault of a lexeme that no rule reads. -/
def lexemeFault? (l : Lexeme) : Option Fault :=
  if l.kind == .unexpected then some (.inSource l.pos (.unexpectedText l.text)) else none

/-- The lexemes of a source, if all of them can be read. -/
def lexemes (s : Source) : Except (List Fault) (List Lexeme) :=
  let all := Lexeme.ofSource s
  match all.filterMap lexemeFault? with
  | [] => .ok all
  | faults => .error faults

/-- What is noted when the lexemes of a source are read. -/
def lexemeRemark (s : Source) : Remark :=
  let all := Lexeme.ofSource s
  .lexemesRead all.length (all.filterMap lexemeFault?).length s.name

end Source

/-- Assemble a source into an image. -/
def assemble (source : Source) (origin : UInt16) : Except (List Fault) Image := do
  let lexemes ← source.lexemes
  let resolution := Program.resolve {} lexemes
  let records ← resolution.outcome
  link origin resolution.symbols.labels.names records

/-- What is noted while a source is assembled. -/
def assemblyRemarks (source : Source) (origin : UInt16) : List Remark :=
  source.lexemeRemark ::
    match source.lexemes with
    | .error _ => []
    | .ok lexemes =>
      let resolution := Program.resolve {} lexemes
      resolution.remarks ++
        match resolution.outcome with
        | .error _ => []
        | .ok records => linkRemarks origin resolution.symbols.labels.names records

end Assembler65
