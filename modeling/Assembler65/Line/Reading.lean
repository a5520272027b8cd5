import Assembler65.Lexeme.Basic
import Assembler65.Line.Basic
import Assembler65.Numeral

/-!
# Lines from lexemes

Lexemes of one row become one line. Comments are left out. A lexeme that cannot be read is a fault
and cuts its line off: neither the tokens behind it nor the end of the row are seen.
-/

set_option autoImplicit false

namespace Assembler65

/-- The value of a numeral that is too large to have one. It is above every limit. -/
def hugeNumber : Nat := 0xFFFFFFFF

/-- The directive of a name, ASCII letters in either case. -/
def Directive.parse? (name : String) : Option Directive :=
  match name.toLower with
  | "byte" => some .bytes
  | "word" => some .words
  | "define" => some .define
  | _ => none

/-- The meaning of a name: a mnemonic, a register, or something to be found out. -/
def TokenKind.ofName (name : String) : TokenKind :=
  match Mnemonic.parse? name with
  | some m => .opcode m
  | none =>
    match Register.parse? name with
    | some r => .register r
    | none => .identifier name

/-- What a lexeme adds to its line. -/
inductive Contribution where
  | token (kind : TokenKind)
  /-- The place where the line finishes. -/
  | finish
  | nothing
  | fault (cause : Cause)
  deriving DecidableEq, Repr

namespace Lexeme

/-- What a lexeme adds to its line. -/
def contribution (l : Lexeme) : Contribution :=
  match l.kind with
  | .hexadecimal | .binary | .octal | .decimal =>
    .token (.number ((Numeral.parse? l.text).getD hugeNumber))
  | .identifier => .token (.ofName l.text)
  | .directive =>
    match Directive.parse? l.text with
    | some d => .token (.directive d)
    | none => .fault (.unknownDirective ("." ++ l.text))
  | .star => .token (.directive .origin)
  | .string => .token (.string l.text)
  | .declaration => .token (.declaration l.text)
  | .comma => .token .comma
  | .hash => .token .hash
  | .leftParen => .token .leftParen
  | .rightParen => .token .rightParen
  | .less => .token .less
  | .greater => .token .greater
  | .equal => .token .equal
  | .unexpected => .fault (.unexpectedText l.text)
  | .lineEnd => .finish
  | .comment => .nothing

/-- Whether two lexemes stand in one row. -/
def sameRow (l m : Lexeme) : Bool := l.pos.row == m.pos.row

/-- Lexemes without the comments, one list for each run of lexemes in one row. -/
def rows (lexemes : List Lexeme) : List (List Lexeme) :=
  (lexemes.filter fun l => l.kind != .comment).splitBy sameRow

end Lexeme

/-- What has been read of a row. -/
structure RowReading where
  tokens : List Token
  finish : Position
  fault : Option Fault
  deriving DecidableEq, Repr

/-- Read a row up to its first fault. The line finishes at `finish` unless the row says where. -/
def readRow (finish : Position) : List Lexeme → RowReading
  | [] => ⟨[], finish, none⟩
  | l :: rest =>
    match l.contribution with
    | .token kind =>
      let reading := readRow finish rest
      { reading with tokens := ⟨kind, l.text, l.pos⟩ :: reading.tokens }
    | .finish => readRow l.pos rest
    | .nothing => readRow finish rest
    | .fault cause => ⟨[], finish, some (.inSource l.pos cause)⟩

namespace Line

/-- What has been read of a row, with the number of the row. A row that does not say where it
finishes does so at its first column. -/
def reading (lexemes : List Lexeme) : Nat × RowReading :=
  let row := (lexemes.head?.map fun l => l.pos.row).getD 0
  (row, readRow ⟨row, 1⟩ lexemes)

/-- The line of a row, if the row has tokens. -/
def ofRow? (lexemes : List Lexeme) : Option Line :=
  let (row, reading) := reading lexemes
  if reading.tokens.isEmpty then none else some ⟨row, reading.tokens, reading.finish⟩

/-- The lines of a lexeme sequence. -/
def ofLexemes (lexemes : List Lexeme) : List Line :=
  (Lexeme.rows lexemes).filterMap ofRow?

/-- The faults of reading a lexeme sequence, at most one for each row. -/
def readingFaults (lexemes : List Lexeme) : List Fault :=
  (Lexeme.rows lexemes).filterMap fun row => (reading row).2.fault

end Line

end Assembler65
