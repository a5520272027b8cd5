import Assembler65.Isa.Opcode
import Assembler65.Source

/-!
# Records

What a program lays down in memory, in order: the place of a label, a new location counter, data
or an instruction. Labels are known by their number, so a record fixes everything but the
addresses.
-/

set_option autoImplicit false

namespace Assembler65

/-- Half of a word. -/
inductive Half where
  | low | high
  deriving DecidableEq, Repr

/-- The byte of a word that a half selects. -/
def Half.of : Half → UInt16 → UInt8
  | low, w => w.toUInt8
  | high, w => (w >>> 8).toUInt8

/-- The operand of an instruction. -/
inductive Operand where
  | none
  | byte (value : UInt8)
  | word (value : UInt16)
  /-- The address of a label. -/
  | label (index : Nat)
  /-- One byte of the address of a label. -/
  | labelHalf (index : Nat) (half : Half)
  /-- The displacement from the next instruction to a label. -/
  | branch (index : Nat)
  /-- A zero-page byte, then the displacement to a label. -/
  | bitBranch (zeroPage : UInt8) (index : Nat)
  deriving DecidableEq, Repr

/-- What a record lays down. -/
inductive Item where
  | label (index : Nat)
  | origin (address : UInt16)
  | bytes (values : List UInt8)
  | words (values : List UInt16)
  | operation (instruction : Instruction) (opcode : UInt8) (operand : Operand)
  deriving DecidableEq, Repr

/-- An item with the place of the statement that asked for it. -/
structure Record where
  pos : Position
  item : Item
  deriving DecidableEq, Repr

/-- The number of bytes set aside for an item. -/
def Item.size : Item → Nat
  | label _ | origin _ => 0
  | bytes values => values.length
  | words values => 2 * values.length
  | operation instruction _ _ => 1 + instruction.mode.operandLength

/-- The number of bytes set aside for a record. -/
def Record.size (r : Record) : Nat := r.item.size

end Assembler65
