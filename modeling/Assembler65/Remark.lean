import Assembler65.Fault.Basic
import Assembler65.Record

/-!
# Remarks

What the assembler notes while it works, as data. `Remark.level` and `Remark.message` give the log
entry of a remark.
-/

set_option autoImplicit false

namespace Assembler65

/-- One entry of the assembler's log. -/
inductive Remark where
  /-- The lexemes of a source have been read. -/
  | lexemesRead (lexemes faults : Nat) (sourceName : String)
  /-- A fault was found while resolving. -/
  | faultFound (fault : Fault)
  /-- A constant was defined. A broken definition has no value. -/
  | constantDefined (name : String) (value : Option UInt16)
  /-- The symbols of a program are known. -/
  | symbolsCollected (lines constants labels : Nat)
  /-- A statement became a record. -/
  | recordMade (row : Nat) (item : Item)
  /-- All statements became records. -/
  | recordsMade (records : Nat)
  /-- A byte below the origin was left out of the image. -/
  | storeDropped (address : UInt16)
  /-- All records have been laid out. -/
  | recordsPlaced (bytes labels patches : Nat)
  deriving DecidableEq, Repr

/-- How detailed a log entry is. -/
inductive LogLevel where
  | debug | trace
  deriving DecidableEq, Repr

/-- The name of a log level. -/
def LogLevel.name : LogLevel → String
  | debug => "DEBUG"
  | trace => "TRACE"

/-! ## Records in log entries -/

/-- An entry with its fields in parentheses. -/
def entryText (name : String) (fields : List String) : String :=
  name ++ "(" ++ ", ".intercalate fields ++ ")"

/-- Values in brackets. -/
def listText (values : List String) : String := "[" ++ ", ".intercalate values ++ "]"

/-- The name of a half. -/
def Half.name : Half → String
  | low => "Low"
  | high => "High"

/-- An operand as log entries show it. -/
def Operand.toText : Operand → String
  | none => "None"
  | byte value => entryText "Byte" [toString value.toNat]
  | word value => entryText "Word" [toString value.toNat]
  | label index => entryText "Label" [toString index]
  | labelHalf index half => entryText "LabelHalf" [toString index, half.name]
  | branch index => entryText "Branch" [toString index]
  | bitBranch zeroPage index => entryText "BitBranch" [toString zeroPage.toNat, toString index]

/-- An item as log entries show it. -/
def Item.toText : Item → String
  | label index => entryText "Label" [toString index]
  | origin address => entryText "Org" [toString address.toNat]
  | bytes values => entryText "Bytes" [listText (values.map fun v => toString v.toNat)]
  | words values => entryText "Words" [listText (values.map fun v => toString v.toNat)]
  | operation instruction opcode operand =>
    "Op \x7b mnemonic: " ++ instruction.mnemonic.name ++ ", mode: " ++ instruction.mode.name ++
      ", opcode: " ++ toString opcode.toNat ++ ", operand: " ++ operand.toText ++ " \x7d"

namespace Remark

/-- The level of a remark. -/
def level : Remark → LogLevel
  | lexemesRead .. | symbolsCollected .. | recordsMade .. | recordsPlaced .. => .debug
  | faultFound .. | constantDefined .. | recordMade .. | storeDropped .. => .trace

/-- The wording of a remark. -/
def message : Remark → String
  | lexemesRead lexemes faults sourceName =>
    s!"lexer: {lexemes} lexemes, {faults} errors in `{sourceName}`"
  | faultFound fault => "resolver: " ++ fault.message
  | constantDefined name (some value) => s!"macro: {name} = Some(" ++ toString value.toNat ++ ")"
  | constantDefined name none => s!"macro: {name} = None"
  | symbolsCollected lines constants labels =>
    s!"resolver: {lines} lines, {constants} macros, {labels} labels"
  | recordMade row item => s!"record {row}: " ++ item.toText
  | recordsMade records => s!"resolver: {records} records"
  | storeDropped address => "linker: dropped write below origin at $" ++ Text.hexWord address
  | recordsPlaced bytes labels patches =>
    s!"linker: pass 1 wrote {bytes} bytes, {labels} labels, {patches} patches"

/-- The fault that a remark reports. -/
def fault? : Remark → Option Fault
  | faultFound fault => some fault
  | _ => none

end Remark

end Assembler65
