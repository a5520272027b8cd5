import Assembler65.Lexeme.Basic

/-!
# Reading lexemes

`Lexeme.ofRow` splits a row into lexemes. Blanks divide lexemes and are dropped. A lexeme other
than a mark or a comment has to be followed by a blank, a comment, the end of the row or one of a
few closing characters; where no rule applies, everything up to the next blank is one unexpected
lexeme. Every row ends with one `lineEnd`.
-/

set_option autoImplicit false

namespace Assembler65.Lexeme

open Text

/-! ## Character classes -/

/-- A character that may start a name. -/
def startsName (c : Char) : Bool := c.isAlpha || c == '_'

/-- A character of a name. -/
def inName (c : Char) : Bool := c.isAlphanum || c == '_'

/-- An octal digit. -/
def isOctal (c : Char) : Bool := '0' ≤ c && c ≤ '7'

/-- A hexadecimal digit. -/
def isHexadecimal (c : Char) : Bool :=
  c.isDigit || ('a' ≤ c && c ≤ 'f') || ('A' ≤ c && c ≤ 'F')

/-- A binary digit. -/
def isBinary (c : Char) : Bool := c == '0' || c == '1'

/-- A lexeme may end before `rest`: at the end of the row, before a blank or a comment, or before
one of the closing characters. -/
def endsBefore (closing : List Char) (rest : List Char) : Bool :=
  match rest with
  | [] => true
  | c :: _ => isBlank c || c == ';' || closing.contains c

/-- The characters that may follow a name or a number directly. -/
def operandClosing : List Char := [',', ')']

/-! ## One rule per kind of lexeme

Each rule gets the row from the lexeme's first character on, and gives the kind and the text. -/

/-- A name, or a label declaration when a colon follows. Underscores alone are no name. -/
def name? (cs : List Char) : Option (LexemeKind × List Char) :=
  let name := cs.takeWhile inName
  if name.all (· == '_') then none
  else
    match cs.dropWhile inName with
    | ':' :: rest => if endsBefore [] rest then some (.declaration, name) else none
    | rest => if endsBefore operandClosing rest then some (.identifier, name) else none

/-- A run of digits as a number of some kind. -/
def digits? (kind : LexemeKind) (isDigit : Char → Bool) (cs : List Char) :
    Option (LexemeKind × List Char) :=
  if endsBefore operandClosing (cs.dropWhile isDigit) then some (kind, cs.takeWhile isDigit)
  else none

/-- A mark followed by at least one digit. The mark belongs to the text. -/
def marked? (kind : LexemeKind) (mark : Char) (isDigit : Char → Bool) (cs : List Char) :
    Option (LexemeKind × List Char) :=
  let digits := cs.takeWhile isDigit
  if digits.isEmpty then none
  else if endsBefore operandClosing (cs.dropWhile isDigit) then some (kind, mark :: digits)
  else none

/-- The name of a directive, from behind the point on. -/
def directive? (cs : List Char) : Option (LexemeKind × List Char) :=
  let name := cs.takeWhile inName
  if name.all (· == '_') then none
  else if endsBefore [] (cs.dropWhile inName) then some (.directive, name)
  else none

/-- The text of a string, from behind the opening quotation mark on. A string of nothing but
spaces and underscores is refused. -/
def string? (cs : List Char) : Option (LexemeKind × List Char) :=
  let text := cs.takeWhile (· != '"')
  match cs.dropWhile (· != '"') with
  | [] => none
  | _ :: rest =>
    if text.all (fun c => c == ' ' || c == '_') then none
    else if endsBefore [','] rest then some (.string, text)
    else none

/-- The lexeme at the start of a row's rest, if a rule reads it. -/
def read? : List Char → Option (LexemeKind × List Char)
  | [] => none
  | c :: cs =>
    match LexemeKind.ofMark? c with
    | some kind => some (kind, [c])
    | none =>
      if startsName c then name? (c :: cs)
      else if c == '0' then digits? .octal isOctal (c :: cs)
      else if c.isDigit then digits? .decimal Char.isDigit (c :: cs)
      else if c == ';' then some (.comment, cs)
      else if c == '.' then directive? cs
      else if c == '"' then string? cs
      else if c == '$' then marked? .hexadecimal '$' isHexadecimal cs
      else if c == '%' then marked? .binary '%' isBinary cs
      else none

/-- The lexeme at the start of a row's rest. What no rule reads extends to the next blank. -/
def read (cs : List Char) : LexemeKind × List Char :=
  (read? cs).getD (.unexpected, cs.takeWhile fun c => !isBlank c)

/-! ## Rows and sources -/

/-- The lexemes of a row's rest that starts at a column. The first `skip` characters belong to a
lexeme read before. -/
def scan (row : Nat) : (skip column : Nat) → List Char → List Lexeme
  | _, column, [] => [⟨.lineEnd, "", ⟨row, column⟩⟩]
  | skip + 1, column, _ :: cs => scan row skip (column + 1) cs
  | 0, column, c :: cs =>
    if isBlank c then scan row 0 (column + 1) cs
    else
      let (kind, text) := read (c :: cs)
      ⟨kind, String.ofList text, ⟨row, column⟩⟩ ::
        scan row ((kind.spelling text).length - 1) (column + 1) cs

/-- The lexemes of a row. -/
def ofRow (row : Nat) (line : String) : List Lexeme := scan row 0 1 line.toList

/-- The lexemes of all rows with content. -/
def ofSource (s : Source) : List Lexeme :=
  s.content.flatMap fun (row, line) => ofRow row line

end Assembler65.Lexeme
