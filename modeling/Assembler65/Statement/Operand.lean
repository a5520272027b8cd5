import Assembler65.Line.Basic
import Assembler65.Record

/-!
# Shapes of operands

How the tokens behind a mnemonic can be put together, without regard to the mnemonic.
-/

set_option autoImplicit false

namespace Assembler65

/-- A number or a label in an operand. -/
inductive OperandValue where
  | number (n : Nat)
  | label (index : Nat)
  deriving DecidableEq, Repr

/-- The value that a token stands for. -/
def TokenKind.value? : TokenKind → Option OperandValue
  | .number n => some (.number n)
  | .label index => some (.label index)
  | _ => none

/-- How an operand is put together. -/
inductive OperandShape where
  /-- No operand. -/
  | empty
  /-- `A` -/
  | accumulator
  /-- `v` -/
  | direct (v : OperandValue)
  /-- `v,X` -/
  | indexedX (v : OperandValue)
  /-- `v,Y` -/
  | indexedY (v : OperandValue)
  /-- `n,v` -/
  | pair (n : Nat) (v : OperandValue)
  /-- `#n` -/
  | immediate (n : Nat)
  /-- `#<v` or `#>v` -/
  | immediateHalf (half : Half) (v : OperandValue)
  /-- `(v)` -/
  | indirect (v : OperandValue)
  /-- `(v),Y` -/
  | indirectIndexed (v : OperandValue)
  /-- `(v,X)` -/
  | indexedIndirect (v : OperandValue)
  deriving DecidableEq, Repr

/-- The shape of a token sequence, if it has one. -/
def OperandShape.ofKinds? : List TokenKind → Option OperandShape
  | [] => some .empty
  | [.register .a] => some .accumulator
  | [v] => v.value?.map .direct
  | [v, .comma, .register .x] => v.value?.map .indexedX
  | [v, .comma, .register .y] => v.value?.map .indexedY
  | [.number n, .comma, v] => v.value?.map (.pair n)
  | [.hash, .number n] => some (.immediate n)
  | [.hash, .less, v] => v.value?.map (.immediateHalf .low)
  | [.hash, .greater, v] => v.value?.map (.immediateHalf .high)
  | [.leftParen, v, .rightParen] => v.value?.map .indirect
  | [.leftParen, v, .rightParen, .comma, .register .y] => v.value?.map .indirectIndexed
  | [.leftParen, v, .comma, .register .x, .rightParen] => v.value?.map .indexedIndirect
  | _ => none

end Assembler65
