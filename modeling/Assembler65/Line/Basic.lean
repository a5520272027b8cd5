import Assembler65.Fault.Basic
import Assembler65.Numeral

/-!
# Tokens and lines

A line is a source row as the assembler understands it: a sequence of tokens and the place where
the row finishes. A token knows its meaning, its text in the source and its position. Whatever the
statement of a line, its numbers fit into words, and it starts with a label declaration, a directive
or an opcode.
-/

set_option autoImplicit false

namespace Assembler65

/-- What a directive asks for. -/
inductive Directive where
  /-- Give a name to a number. -/
  | define
  /-- Move the location counter. -/
  | origin
  | bytes
  | words
  deriving DecidableEq, Repr

/-- The meaning of a token. -/
inductive TokenKind where
  | number (value : Nat)
  | string (text : String)
  | opcode (mnemonic : Mnemonic)
  | register (register : Register)
  | directive (directive : Directive)
  | declaration (name : String)
  /-- A name of which nothing is known yet. -/
  | identifier (name : String)
  /-- A name that is no constant. -/
  | reference (name : String)
  /-- A name that is known to be a label. -/
  | label (index : Nat)
  | comma
  | hash
  | leftParen
  | rightParen
  | less
  | greater
  | equal
  deriving DecidableEq, Repr

/-- What a kind of token is called in messages. -/
def TokenKind.description : TokenKind → String
  | number _ => "NUMBER"
  | string _ => "STRING"
  | opcode _ => "OPCODE"
  | register _ => "REGISTER"
  | directive _ => "DIRECTIVE"
  | declaration _ => "LABEL DECLARATION"
  | identifier _ => "IDENTIFIER"
  | reference _ | label _ => "LABEL CALL"
  | comma => "COMMA"
  | hash => "HASH"
  | leftParen => "LEFT PARENTHESIS"
  | rightParen => "RIGHT PARENTHESIS"
  | less => "LESS"
  | greater => "GREATER"
  | equal => "EQUAL"

/-- One word of a line. -/
structure Token where
  kind : TokenKind
  /-- The spelling in the source, as messages quote it. -/
  text : String
  pos : Position
  deriving DecidableEq, Repr

/-- The tokens of one source row. -/
structure Line where
  row : Nat
  tokens : List Token
  /-- Where the row finishes. -/
  finish : Position
  deriving DecidableEq, Repr

/-- The place and the name of what comes next: a token, or the end of the line. -/
def upcoming (finish : Position) : List Token → Position × String
  | [] => (finish, "NEW LINE")
  | t :: _ => (t.pos, t.kind.description)

/-- The fault that something else was wanted than what comes next. -/
def expectedFault (finish : Position) (rest : List Token) (wanted : String) : Fault :=
  let (pos, found) := upcoming finish rest
  .inSource pos (.expected wanted found)

namespace Line

/-- The number of tokens before the statement: one for a leading label declaration. -/
def head (l : Line) : Nat :=
  match l.tokens with
  | ⟨.declaration _, _, _⟩ :: _ => 1
  | _ => 0

/-- The tokens of the statement. -/
def statement (l : Line) : List Token := l.tokens.drop l.head

/-- The place and the name of the token at an index, or of the end of the line. -/
def found (l : Line) (index : Nat) : Position × String :=
  upcoming l.finish (l.tokens.drop index)

/-- The fault that something else was wanted at an index. -/
def expected (l : Line) (index : Nat) (wanted : String) : Fault :=
  expectedFault l.finish (l.tokens.drop index) wanted

/-- The faults of numbers that do not fit into a word. -/
def rangeFaults (l : Line) : List Fault :=
  l.tokens.filterMap fun t =>
    match t.kind with
    | .number n =>
      if n > Numeral.wordLimit then
        some (.inSource t.pos (.constantOverflow t.text Numeral.wordLimit))
      else none
    | _ => none

/-- The faults of what a line starts with, and of what follows a leading label declaration. -/
def headFaults (l : Line) : List Fault :=
  match l.tokens with
  | [] => []
  | t :: rest =>
    match t.kind with
    | .declaration _ =>
      match rest with
      | [] | ⟨.opcode _, _, _⟩ :: _ => []
      | ⟨.directive d, _, _⟩ :: _ =>
        if d == .define then [l.expected 1 "An OPCODE or DIRECTIVE"] else []
      | _ => [l.expected 1 "An OPCODE or DIRECTIVE"]
    | .directive _ | .opcode _ => []
    | kind => [.inSource t.pos (.invalidLineStart kind.description)]

end Line

end Assembler65
