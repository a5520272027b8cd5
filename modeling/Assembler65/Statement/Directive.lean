import Assembler65.Line.Basic
import Assembler65.Numeral
import Assembler65.Record

/-!
# Operands of directives

`* = NUMBER` moves the location counter; `.byte` and `.word` lay down a list of numbers and strings
divided by commas, a string standing for the codes of its characters. Gathering an operand gives
the item, if there is one, and the faults.
-/

set_option autoImplicit false

namespace Assembler65

/-- The address behind the origin mark, and the faults. Tokens behind the number are a fault but
leave the address as it is. A number beyond a word has no address and is reported elsewhere. -/
def originOperand (finish : Position) : List Token → Option UInt16 × List Fault
  | ⟨.equal, _, _⟩ :: ⟨.number n, _, _⟩ :: rest =>
    (Numeral.word? n, if rest.isEmpty then [] else [expectedFault finish rest "NEW LINE"])
  | ⟨.equal, _, _⟩ :: rest => (none, [expectedFault finish rest "A NUMBER"])
  | rest => (none, [expectedFault finish rest "An EQUAL SIGN"])

/-- The values of a data element, if the token is one. -/
def TokenKind.dataValues? : TokenKind → Option (List Nat)
  | .number n => some [n]
  | .string text => some (text.toList.map Char.toNat)
  | _ => none

/-- The faults of a data element above the limit. Numbers beyond a word are reported elsewhere. -/
def Token.dataFaults (limit : Nat) (t : Token) : List Fault :=
  match t.kind with
  | .number n =>
    if n > limit && n ≤ Numeral.wordLimit then
      [.inSource t.pos (.constantOverflow t.text limit)]
    else []
  | .string text =>
    (text.toList.filter fun c => c.toNat > limit).map fun c =>
      .inSource t.pos (.constantOverflow (String.singleton c) limit)
  | _ => []

/-- The values of a data list, if all of them are there and within the limit, and the faults. -/
def dataList (limit : Nat) (finish : Position) : List Token → Option (List Nat) × List Fault
  | [] => (none, [expectedFault finish [] "A NUMBER or STRING"])
  | t :: rest =>
    match t.kind.dataValues? with
    | none => (none, [expectedFault finish (t :: rest) "A NUMBER or STRING"])
    | some values =>
      let fitting := if values.all (· ≤ limit) then some values else none
      let faults := t.dataFaults limit
      match rest with
      | [] => (fitting, faults)
      | ⟨.comma, _, _⟩ :: rest =>
        let (others, more) := dataList limit finish rest
        (fitting.bind fun values => others.map (values ++ ·), faults ++ more)
      | rest => (none, faults ++ [expectedFault finish rest "A COMMA or NEW LINE"])

namespace Line

/-- The item of an origin directive, and the faults. -/
def gatherOrigin (l : Line) : Option Item × List Fault :=
  match l.statement with
  | ⟨.directive .origin, _, _⟩ :: rest =>
    let (address, faults) := originOperand l.finish rest
    (address.map Item.origin, faults)
  | _ => (none, [])

/-- The item of a data directive, and the faults. -/
def gatherData (l : Line) : Option Item × List Fault :=
  match l.statement with
  | ⟨.directive .bytes, _, _⟩ :: rest =>
    let (values, faults) := dataList Numeral.byteLimit l.finish rest
    (values.map fun vs => .bytes (vs.map UInt8.ofNat), faults)
  | ⟨.directive .words, _, _⟩ :: rest =>
    let (values, faults) := dataList Numeral.wordLimit l.finish rest
    (values.map fun vs => .words (vs.map UInt16.ofNat), faults)
  | _ => (none, [])

/-- The item of a directive. -/
def gathered? (l : Line) : Option Item := l.gatherOrigin.1.or l.gatherData.1

end Line

end Assembler65
