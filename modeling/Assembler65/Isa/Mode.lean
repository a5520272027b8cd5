/-!
# Addressing modes

The seventeen operand encodings of the 65C02, with the number of operand bytes each one takes.
-/

set_option autoImplicit false

namespace Assembler65

/-- The operand encodings of the 65C02. -/
inductive Mode where
  | implied
  | stack
  | accumulator
  | immediate
  | zeroPage
  | zeroPageX
  | zeroPageY
  | zeroPageIndirect
  | zeroPageIndexedIndirect
  | zeroPageIndirectIndexed
  /-- A zero-page byte, then a branch displacement. -/
  | zeroPageRelative
  | absolute
  | absoluteX
  | absoluteY
  | absoluteIndirect
  | absoluteIndexedIndirect
  | relative
  deriving DecidableEq, Repr

namespace Mode

/-- Every mode, in the order in which the modes of a mnemonic are listed. -/
def all : List Mode :=
  [implied, stack, accumulator, immediate, zeroPage, zeroPageX, zeroPageY, zeroPageIndirect,
    zeroPageIndexedIndirect, zeroPageIndirectIndexed, zeroPageRelative, absolute, absoluteX,
    absoluteY, absoluteIndirect, absoluteIndexedIndirect, relative]

theorem mem_all (m : Mode) : m ∈ all := by
  cases m <;> decide

/-- The full name of a mode. -/
def name : Mode → String
  | implied => "Implied"
  | stack => "Stack"
  | accumulator => "Accumulator"
  | immediate => "Immediate"
  | zeroPage => "ZeroPage"
  | zeroPageX => "ZeroPageX"
  | zeroPageY => "ZeroPageY"
  | zeroPageIndirect => "ZeroPageIndirect"
  | zeroPageIndexedIndirect => "ZeroPageIndexedIndirect"
  | zeroPageIndirectIndexed => "ZeroPageIndirectIndexed"
  | zeroPageRelative => "ZeroPageRelative"
  | absolute => "Absolute"
  | absoluteX => "AbsoluteX"
  | absoluteY => "AbsoluteY"
  | absoluteIndirect => "AbsoluteIndirect"
  | absoluteIndexedIndirect => "AbsoluteIndexedIndirect"
  | relative => "Relative"

/-- The mode of a full name. -/
def ofName? (s : String) : Option Mode :=
  all.find? fun m => m.name == s

/-- How the operand of a mode is written, as messages show it. -/
def form : Mode → String
  | implied => "implied"
  | stack => "stack"
  | accumulator => "A"
  | immediate => "#imm"
  | zeroPage => "zp"
  | zeroPageX => "zp,X"
  | zeroPageY => "zp,Y"
  | zeroPageIndirect => "(zp)"
  | zeroPageIndexedIndirect => "(zp,X)"
  | zeroPageIndirectIndexed => "(zp),Y"
  | zeroPageRelative => "zp,rel"
  | absolute => "abs"
  | absoluteX => "abs,X"
  | absoluteY => "abs,Y"
  | absoluteIndirect => "(abs)"
  | absoluteIndexedIndirect => "(abs,X)"
  | relative => "rel"

/-- The number of operand bytes that follow the opcode. -/
def operandLength : Mode → Nat
  | implied | stack | accumulator => 0
  | immediate | zeroPage | zeroPageX | zeroPageY | zeroPageIndirect | zeroPageIndexedIndirect
  | zeroPageIndirectIndexed | relative => 1
  | zeroPageRelative | absolute | absoluteX | absoluteY | absoluteIndirect
  | absoluteIndexedIndirect => 2

theorem operandLength_le (mode : Mode) : mode.operandLength ≤ 2 := by
  cases mode <;> decide

end Mode

end Assembler65
