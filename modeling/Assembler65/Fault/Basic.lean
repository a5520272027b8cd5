import Assembler65.Isa.Mnemonic
import Assembler65.Isa.Mode
import Assembler65.Source
import Assembler65.Text.Format

/-!
# Faults

Everything that can be wrong with a program, its arguments or its files. A fault of the program
text has a position; the others have none. Main definitions: the wording `Fault.message`, and
`Fault.sorted`, which puts faults into reading order.
-/

set_option autoImplicit false

namespace Assembler65

/-- What can be wrong at a place in a source. -/
inductive Cause where
  /-- Characters that form no lexeme. -/
  | unexpectedText (text : String)
  | unknownDirective (text : String)
  /-- One thing had to follow and another did. -/
  | expected (wanted found : String)
  | redefinedConstant (name : String)
  /-- A number or a character above the limit of its place. -/
  | constantOverflow (text : String) (limit : Nat)
  | redefinedLabel (name : String) (firstRow : Nat)
  /-- A mnemonic or a register declared as a label. -/
  | reservedLabel (name : String)
  | undefinedLabel (name : String)
  | invalidLineStart (found : String)
  /-- An operand that has the shape of no mode. -/
  | unexpectedMode (mnemonic : Mnemonic)
  /-- An operand of a mode that the mnemonic lacks. -/
  | unavailableMode (mode : Mode) (mnemonic : Mnemonic)
  /-- A branch to a number. -/
  | literalBranchTarget (mnemonic : Mnemonic)
  | branchOutOfRange (label : String) (displacement : Int)
  /-- Output beyond the last address. -/
  | addressOverflow
  deriving DecidableEq, Repr

/-- What can be wrong with the arguments and the files they name. -/
inductive ArgumentCause where
  | wrongExtension (path : String)
  | invalidOrigin (text : String)
  | unreadableFile (path : String)
  | unwritableFile (path : String)
  deriving DecidableEq, Repr

/-- A fault of a program or of a run of the assembler. -/
inductive Fault where
  /-- A fault at a place in the source. -/
  | inSource (pos : Position) (cause : Cause)
  | inArguments (cause : ArgumentCause)
  /-- An operand refers to a label that no record places. -/
  | unresolvedLabel (index : Nat)
  deriving DecidableEq, Repr

/-- Where a fault comes from. -/
inductive Category where
  | lexical | semantic | argument | internal
  deriving DecidableEq, Repr

/-- The name of a category. -/
def Category.name : Category → String
  | lexical => "lexical"
  | semantic => "semantic"
  | argument => "argument"
  | internal => "internal"

/-- The wording of a cause in the source. -/
def Cause.message : Cause → String
  | unexpectedText text => s!"Unexpected token: `{text}`"
  | unknownDirective text => s!"Unknown directive: `{text}`"
  | expected wanted found => s!"{wanted} was expected, but {found} was found"
  | redefinedConstant name => s!"Repeated declaration of macro: `{name}`"
  | constantOverflow text limit => s!"Constant `{text}` is greater than 0x" ++ Text.hex limit
  | redefinedLabel name firstRow =>
    s!"Re-defined label: `{name}` (first declared at line {firstRow})"
  | reservedLabel name => s!"Reserved word can't be a label: `{name}`"
  | undefinedLabel name => s!"Non-existent label: `{name}`"
  | invalidLineStart found =>
    s!"Line can start with DIRECTIVE, LABEL DECLARATION, or OPCODE, but {found} was found"
  | unexpectedMode mnemonic => "Unexpected addressing mode for " ++ mnemonic.name
  | unavailableMode mode mnemonic =>
    "Unavailable addressing mode `" ++ mode.form ++ "` for " ++ mnemonic.name
  | literalBranchTarget mnemonic => "Branch target of " ++ mnemonic.name ++ " must be a label"
  | branchOutOfRange label displacement =>
    s!"Branch to `{label}` is out of range: {displacement} bytes (allowed -128 to 127)"
  | addressOverflow => "Address overflow: output passes $FFFF"

/-- The wording of a cause in the arguments. -/
def ArgumentCause.message : ArgumentCause → String
  | wrongExtension path =>
    s!"Wrong source code file name or extension: `{path}`. Should be [name].asm"
  | invalidOrigin text => s!"Invalid origin: `{text}`"
  | unreadableFile path => s!"Failed to open file: {path}"
  | unwritableFile path => s!"Failed to write file: {path}"

namespace Fault

/-- The wording of a fault. -/
def message : Fault → String
  | inSource _ cause => cause.message
  | inArguments cause => cause.message
  | unresolvedLabel index => s!"Label #{index} has no address"

/-- The category of a fault. -/
def category : Fault → Category
  | inSource _ (.unexpectedText _) => .lexical
  | inSource _ _ => .semantic
  | inArguments _ => .argument
  | unresolvedLabel _ => .internal

/-- The place of a fault, if it has one. -/
def position? : Fault → Option Position
  | inSource pos _ => some pos
  | inArguments _ | unresolvedLabel _ => none

/-- Reading order of faults. Those without a place come first. -/
def le (f g : Fault) : Bool :=
  match f.position?, g.position? with
  | none, _ => true
  | some _, none => false
  | some p, some q => p.le q

/-- Faults in reading order. Faults at one place stay in the order given. -/
def sorted (faults : List Fault) : List Fault := faults.mergeSort le

theorem le_trans (f g h : Fault) (first : f.le g) (second : g.le h) : f.le h := by
  unfold le at *
  cases hf : f.position? with
  | none => rfl
  | some p =>
    cases hg : g.position? with
    | none => simp [hf, hg] at first
    | some q =>
      cases hh : h.position? with
      | none => simp [hg, hh] at second
      | some r =>
        simp only [hf, hg, hh] at first second
        exact Position.le_trans first second

theorem le_total (f g : Fault) : (f.le g || g.le f) = true := by
  unfold le
  cases f.position? with
  | none => rfl
  | some p =>
    cases g.position? with
    | none => rfl
    | some q => exact Position.le_total p q

theorem sorted_perm (faults : List Fault) : (sorted faults).Perm faults :=
  List.mergeSort_perm faults le

/-- Sorted faults stand in reading order. -/
theorem pairwise_sorted (faults : List Fault) : (sorted faults).Pairwise (fun f g => f.le g) :=
  List.pairwise_mergeSort le_trans le_total faults

end Fault

end Assembler65
