import Assembler65.Isa.Opcode
import Assembler65.Text.Format

/-!
# Disassembly

The coloured text of one instruction: its mnemonic in small letters in a column of five, then the
operand in the notation of its mode. A branch shows the address it leads to. Addresses are words,
so a branch past either end of memory wraps.
-/

set_option autoImplicit false

namespace Assembler65

/-- The value of two bytes, the low one first. -/
def wordOfBytes (low high : UInt8) : UInt16 :=
  low.toUInt16 + 0x100 * high.toUInt16

/-- A byte as a two's complement displacement, widened to a word. -/
def signExtend (b : UInt8) : UInt16 := b.toInt8.toInt16.toUInt16

/-- The address a branch leads to, from the address after the instruction. -/
def branchTarget (next : UInt16) (displacement : UInt8) : UInt16 :=
  next + signExtend displacement

namespace Instruction

open Text

/-- The operand text of an instruction at an address. Operand bytes not given count as zero. -/
def operandText (mode : Mode) (pc : UInt16) (operand : List UInt8) : String :=
  let first := operand.getD 0 0
  let second := operand.getD 1 0
  let byte := styled [.yellow] ("$" ++ hexByte first)
  let word := styled [.yellow] ("$" ++ hexWord (wordOfBytes first second))
  let target (next : UInt16) (displacement : UInt8) :=
    styled [.green] ("$" ++ hexWord (branchTarget next displacement))
  let register (name : String) := styled [.blue] name
  match mode with
  | .implied | .stack => ""
  | .accumulator => register "A"
  | .immediate => styled [.yellow] ("#$" ++ hexByte first)
  | .zeroPage => byte
  | .zeroPageX => byte ++ "," ++ register "X"
  | .zeroPageY => byte ++ "," ++ register "Y"
  | .zeroPageIndirect => "(" ++ byte ++ ")"
  | .zeroPageIndexedIndirect => "(" ++ byte ++ "," ++ register "X" ++ ")"
  | .zeroPageIndirectIndexed => "(" ++ byte ++ ")," ++ register "Y"
  | .zeroPageRelative => byte ++ "," ++ target (pc + 3) second
  | .absolute => word
  | .absoluteX => word ++ "," ++ register "X"
  | .absoluteY => word ++ "," ++ register "Y"
  | .absoluteIndirect => "(" ++ word ++ ")"
  | .absoluteIndexedIndirect => "(" ++ word ++ "," ++ register "X" ++ ")"
  | .relative => target (pc + 2) first

/-- The disassembled text of an instruction whose opcode stands at `pc`. -/
def disassemble (i : Instruction) (pc : UInt16) (operand : List UInt8) : String :=
  styled [.red] (alignLeft 5 i.mnemonic.name.toLower) ++ operandText i.mode pc operand

end Instruction

end Assembler65
