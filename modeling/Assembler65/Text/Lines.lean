/-!
# Blanks and lines of a text

Blanks are the characters of the Unicode property `White_Space`. A line feed ends a line, together
with one carriage return in front of it; what follows the last line feed is a line only if it holds
a character.
-/

set_option autoImplicit false

namespace Assembler65.Text

/-- A character with the Unicode property `White_Space`. -/
def isBlank (c : Char) : Bool :=
  let n := c.toNat
  (0x09 ≤ n && n ≤ 0x0D) || n == 0x20 || n == 0x85 || n == 0xA0 || n == 0x1680 ||
    (0x2000 ≤ n && n ≤ 0x200A) || n == 0x2028 || n == 0x2029 || n == 0x202F || n == 0x205F ||
    n == 0x3000

/-- Characters without the blanks at either end. -/
def stripBlanks (cs : List Char) : List Char :=
  ((cs.dropWhile isBlank).reverse.dropWhile isBlank).reverse

/-- A text without the blanks at either end. -/
def trim (s : String) : String := String.ofList (stripBlanks s.toList)

/-- A text that holds nothing but blanks. -/
def isBlankText (s : String) : Bool := s.toList.all isBlank

/-- The stretches between line feeds, the one after the last line feed included. -/
def segments (cs : List Char) : List (List Char) :=
  cs.foldr
    (fun c acc =>
      if c == '\n' then [] :: acc
      else
        match acc with
        | [] => [[c]]
        | line :: rest => (c :: line) :: rest)
    [[]]

/-- A line without the carriage return at its end. -/
def dropReturn (line : List Char) : List Char :=
  if line.getLast? == some '\r' then line.dropLast else line

/-- The lines of a text. Only a line that a line feed ended loses a carriage return. -/
def lines (cs : List Char) : List (List Char) :=
  let parts := segments cs
  parts.dropLast.map dropReturn ++
    match parts.getLast? with
    | none | some [] => []
    | some last => [last]

end Assembler65.Text
