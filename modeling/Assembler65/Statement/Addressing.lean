import Assembler65.Isa.Opcode
import Assembler65.Numeral
import Assembler65.Statement.Operand

/-!
# The choice of an addressing mode

A shape of operand names some candidate modes in order of preference: zero page before absolute,
absolute before relative. `chooseMode` takes the first one that the mnemonic has.
-/

set_option autoImplicit false

namespace Assembler65

/-- An addressing mode with its operand. -/
abbrev Candidate := Mode × Operand

/-- The candidates of an address given as a number, in a zero-page mode and in the absolute mode of
the same form. The zero-page one needs a number that fits into a byte. -/
def addressCandidates (short long : Mode) (n : Nat) : List Candidate :=
  if n ≤ Numeral.byteLimit then
    [(short, .byte (UInt8.ofNat n)), (long, .word (UInt16.ofNat n))]
  else [(long, .word (UInt16.ofNat n))]

/-- The candidates of an operand shape for a mnemonic. -/
def candidates (m : Mnemonic) : OperandShape → Except Cause (List Candidate)
  | .empty => .ok [(.implied, .none), (.stack, .none), (.accumulator, .none)]
  | .accumulator => .ok [(.accumulator, .none)]
  | .direct (.number n) =>
    if m.supports .relative then .error (.literalBranchTarget m)
    else .ok (addressCandidates .zeroPage .absolute n)
  | .direct (.label index) => .ok [(.absolute, .label index), (.relative, .branch index)]
  | .indexedX (.number n) => .ok (addressCandidates .zeroPageX .absoluteX n)
  | .indexedX (.label index) => .ok [(.absoluteX, .label index)]
  | .indexedY (.number n) => .ok (addressCandidates .zeroPageY .absoluteY n)
  | .indexedY (.label index) => .ok [(.absoluteY, .label index)]
  | .pair n (.label index) =>
    if n ≤ Numeral.byteLimit then
      .ok [(.zeroPageRelative, .bitBranch (UInt8.ofNat n) index)]
    else .error (.unexpectedMode m)
  | .pair _ (.number _) =>
    if m.supports .zeroPageRelative then .error (.literalBranchTarget m)
    else .error (.unexpectedMode m)
  | .immediate n => .ok [(.immediate, .byte (UInt8.ofNat n))]
  | .immediateHalf half (.number n) => .ok [(.immediate, .byte (half.of (UInt16.ofNat n)))]
  | .immediateHalf half (.label index) => .ok [(.immediate, .labelHalf index half)]
  | .indirect (.number n) => .ok (addressCandidates .zeroPageIndirect .absoluteIndirect n)
  | .indirect (.label index) => .ok [(.absoluteIndirect, .label index)]
  | .indirectIndexed (.number n) =>
    if n ≤ Numeral.byteLimit then .ok [(.zeroPageIndirectIndexed, .byte (UInt8.ofNat n))]
    else .error (.unexpectedMode m)
  | .indirectIndexed (.label _) => .error (.unexpectedMode m)
  | .indexedIndirect (.number n) =>
    .ok (addressCandidates .zeroPageIndexedIndirect .absoluteIndexedIndirect n)
  | .indexedIndirect (.label index) => .ok [(.absoluteIndexedIndirect, .label index)]

/-- The first candidate that a mnemonic has. Without one, the first candidate is reported. -/
def firstSupported (m : Mnemonic) (options : List Candidate) : Except Cause Candidate :=
  match options.find? fun c => m.supports c.1 with
  | some c => .ok c
  | none =>
    match options with
    | [] => .error (.unexpectedMode m)
    | c :: _ => .error (.unavailableMode c.1 m)

/-- The fault of an immediate number that does not fit into a byte. It counts before all else. -/
def wideImmediate? : List Token → Option Fault
  | [⟨.hash, _, _⟩, ⟨.number n, text, pos⟩] =>
    if n > Numeral.byteLimit then
      some (.inSource pos (.constantOverflow text Numeral.byteLimit))
    else none
  | _ => none

/-- The addressing mode and the operand of a mnemonic with the tokens behind it. -/
def chooseMode (m : Mnemonic) (pos : Position) (tokens : List Token) : Except Fault Candidate :=
  match wideImmediate? tokens with
  | some fault => .error fault
  | none =>
    match OperandShape.ofKinds? (tokens.map Token.kind) with
    | none => .error (.inSource pos (.unexpectedMode m))
    | some shape => ((candidates m shape).bind (firstSupported m)).mapError (.inSource pos)

end Assembler65
