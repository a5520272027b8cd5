import Assembler65.Source

/-!
# Lexemes

The smallest units of a source row, each with its kind, its text and its position. The text of a
directive, a label declaration, a string or a comment leaves out the marks around it;
`Lexeme.spelling` puts them back and gives the characters that the lexeme stands for in the row.
-/

set_option autoImplicit false

namespace Assembler65

/-- What a lexeme is. -/
inductive LexemeKind where
  | identifier
  /-- A name behind a point. -/
  | directive
  /-- A text between quotation marks. -/
  | string
  | hexadecimal
  | binary
  | octal
  | decimal
  /-- A name before a colon. -/
  | declaration
  /-- A semicolon and the rest of the row. -/
  | comment
  | comma
  | hash
  | leftParen
  | rightParen
  | less
  | greater
  | star
  | equal
  | lineEnd
  /-- A run of characters that no rule reads. -/
  | unexpected
  deriving DecidableEq, Repr

namespace LexemeKind

/-- Every kind. -/
def all : List LexemeKind :=
  [identifier, directive, string, hexadecimal, binary, octal, decimal, declaration, comment,
    comma, hash, leftParen, rightParen, less, greater, star, equal, lineEnd, unexpected]

/-- What a kind is called in messages. -/
def description : LexemeKind → String
  | identifier => "IDENTIFIER"
  | directive => "DIRECTIVE"
  | string => "STRING"
  | hexadecimal => "HEX CONSTANT"
  | binary => "BIN CONSTANT"
  | octal => "OCT CONSTANT"
  | decimal => "DEC CONSTANT"
  | declaration => "LABEL DECLARATION"
  | comment => "COMMENT"
  | comma => "COMMA"
  | hash => "HASH"
  | leftParen => "LEFT PARENTHESIS"
  | rightParen => "RIGHT PARENTHESIS"
  | less => "LESS"
  | greater => "GREATER"
  | star => "STAR"
  | equal => "EQUAL"
  | lineEnd => "NEW LINE"
  | unexpected => "UNEXPECTED"

/-- The kind of a character that is a lexeme by itself. -/
def ofMark? : Char → Option LexemeKind
  | ',' => some comma
  | '#' => some hash
  | '(' => some leftParen
  | ')' => some rightParen
  | '<' => some less
  | '>' => some greater
  | '*' => some star
  | '=' => some equal
  | _ => none

/-- The characters that a kind and a text stand for in a row. -/
def spelling (kind : LexemeKind) (text : List Char) : List Char :=
  match kind with
  | directive => '.' :: text
  | string => '"' :: text ++ ['"']
  | declaration => text ++ [':']
  | comment => ';' :: text
  | _ => text

end LexemeKind

/-- One unit of a source row. -/
structure Lexeme where
  kind : LexemeKind
  text : String
  pos : Position
  deriving DecidableEq, Repr

namespace Lexeme

/-- The characters that a lexeme stands for in its row. -/
def spelling (l : Lexeme) : List Char := l.kind.spelling l.text.toList

end Lexeme

end Assembler65
