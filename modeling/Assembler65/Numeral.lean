/-!
# Numerals

The numeric syntax of the assembler: `$` marks hexadecimal digits, `%` binary ones, a leading `0`
before more characters octal ones, and all else is decimal. A numeral has a value only below
`0x100000000`.
-/

set_option autoImplicit false

namespace Assembler65.Numeral

/-- The value of a digit in either letter case. -/
def digitValue? (c : Char) : Option Nat :=
  if '0' ≤ c && c ≤ '9' then some (c.toNat - '0'.toNat)
  else if 'a' ≤ c && c ≤ 'f' then some (c.toNat - 'a'.toNat + 10)
  else if 'A' ≤ c && c ≤ 'F' then some (c.toNat - 'A'.toNat + 10)
  else none

/-- A character is a digit of a base when its value is below the base. -/
def isDigitIn (base : Nat) (c : Char) : Bool :=
  match digitValue? c with
  | some d => d < base
  | none => false

/-- The value of a digit sequence, the most significant digit first. -/
def positional (base : Nat) (digits : List Char) : Nat :=
  digits.foldl (fun value c => value * base + (digitValue? c).getD 0) 0

/-- The value of a non-empty digit sequence, if it is below `0x100000000`. -/
def ofDigits? (base : Nat) (digits : List Char) : Option Nat :=
  if digits.isEmpty || !digits.all (isDigitIn base) then none
  else
    let value := positional base digits
    if value < 0x100000000 then some value else none

/-- The value of a numeral. A lone `0` is decimal. -/
def parse? (s : String) : Option Nat :=
  match s.toList with
  | '$' :: digits => ofDigits? 16 digits
  | '%' :: digits => ofDigits? 2 digits
  | '0' :: d :: digits => ofDigits? 8 (d :: digits)
  | digits => ofDigits? 10 digits

/-- The largest value of a byte. -/
def byteLimit : Nat := 0xFF

/-- The largest value of a word. -/
def wordLimit : Nat := 0xFFFF

/-- A number as a word, if it fits. -/
def word? (n : Nat) : Option UInt16 :=
  if n ≤ wordLimit then some (UInt16.ofNat n) else none

end Assembler65.Numeral
