/-!
# Numbers, columns and styles in text

Capital hexadecimal digits with a least width, texts filled up with spaces to a column, and escape
sequences that switch a colour or a weight on and off again around a text. A width never cuts a
text: what is longer stands in full.
-/

set_option autoImplicit false

namespace Assembler65.Text

/-- A text with fill characters in front, up to a width. -/
def fillLeft (fill : Char) (width : Nat) (s : String) : String :=
  String.ofList (List.replicate (width - s.length) fill) ++ s

/-- A text moved to the right end of a column. -/
def alignRight (width : Nat) (s : String) : String := fillLeft ' ' width s

/-- A text moved to the left end of a column. -/
def alignLeft (width : Nat) (s : String) : String :=
  s ++ String.ofList (List.replicate (width - s.length) ' ')

/-- A number in capital hexadecimal digits. -/
def hex (n : Nat) : String :=
  String.ofList ((Nat.toDigits 16 n).map Char.toUpper)

/-- A number in capital hexadecimal digits with zeros in front, up to a width. -/
def hexPadded (width n : Nat) : String := fillLeft '0' width (hex n)

/-- A byte in two hexadecimal digits. -/
def hexByte (b : UInt8) : String := hexPadded 2 b.toNat

/-- A word in four hexadecimal digits. -/
def hexWord (w : UInt16) : String := hexPadded 4 w.toNat

/-- A character repeated. -/
def repeated (n : Nat) (c : Char) : String := String.ofList (List.replicate n c)

/-! ## Styles -/

/-- The styles a terminal text may have. -/
inductive Style where
  | red | green | yellow | blue | cyan
  | bold
  | underline
  deriving DecidableEq, Repr

namespace Style

/-- The sequence that switches a style on. -/
def start : Style → String
  | red => "\x1b[31m"
  | green => "\x1b[32m"
  | yellow => "\x1b[33m"
  | blue => "\x1b[34m"
  | cyan => "\x1b[36m"
  | bold => "\x1b[1m"
  | underline => "\x1b[4m"

/-- The sequence that switches a style off. All colours share one. -/
def stop : Style → String
  | red | green | yellow | blue | cyan => "\x1b[39m"
  | bold => "\x1b[22m"
  | underline => "\x1b[24m"

end Style

/-- A text in some styles, switched on and off in the order given. -/
def styled (styles : List Style) (s : String) : String :=
  String.join (styles.map Style.start) ++ s ++ String.join (styles.map Style.stop)

end Assembler65.Text
