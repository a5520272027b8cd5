import Assembler65.Proofs.Numerals
import Assembler65.Proofs.Rows

/-!
# The source language

What the rows of a program may look like and what they stand for, said of their words alone.
`WellFormed` gathers the rules of the language: the form of every row, the names that may be chosen
and used, and the ranges of numbers. `StatementItem` gives the item of a statement.
-/

set_option autoImplicit false

namespace Assembler65

variable [Folding]

/-! ## Words -/

namespace Lexeme

/-- A name that is neither a mnemonic nor a register. -/
def isName (l : Lexeme) : Bool := l.kind == .identifier && !isReserved l.text

/-- The mnemonic that a word is. -/
def asMnemonic? (l : Lexeme) : Option Mnemonic :=
  if l.kind = .identifier then Mnemonic.parse? l.text else none

/-- The directive that a word is. -/
def asDirective? (l : Lexeme) : Option Directive :=
  match l.kind with
  | .star => some .origin
  | .directive => Directive.parse? l.text
  | _ => none

/-- The largest value behind a data directive. -/
def dataLimit? (l : Lexeme) : Option Nat :=
  match l.asDirective? with
  | some .bytes => some Numeral.byteLimit
  | some .words => some Numeral.wordLimit
  | _ => none

/-- A numeral, or a name for a number. -/
def isNumber (constants : Constants) (l : Lexeme) : Bool :=
  l.isNumeral || (l.isName && constants.contains l.text)

/-- The number that a word stands for. -/
def number? (constants : Constants) (l : Lexeme) : Option Nat :=
  if l.isNumeral then Numeral.number? l.text
  else if l.isName then (constants.find? l.text).map UInt16.toNat
  else none

/-- An element of a data list: a string or a number. -/
def isElement (constants : Constants) (l : Lexeme) : Bool :=
  l.kind == .string || l.isNumber constants

/-- The values of a data element, a string standing for the codes of its characters. -/
def dataValues (constants : Constants) (l : Lexeme) : List Nat :=
  if l.kind = .string then l.text.toList.map Char.toNat else (l.number? constants).toList

/-- The name of a label that a word refers to: any name that is no constant. -/
def labelName? (constants : Constants) (l : Lexeme) : Option String :=
  if l.isName && !constants.contains l.text then some (SymbolTable.key l.text) else none

end Lexeme

/-- The meaning of a token in an operand, if all that it names is known. -/
def TokenKind.known? (symbols : Symbols) : TokenKind → Option TokenKind
  | .identifier name =>
    match symbols.constants.find? name with
    | some value => some (.number value.toNat)
    | none => (symbols.labels.index? name).map .label
  | kind => some kind

/-- The token of a word in an operand, if all that it names is known. -/
def Lexeme.operand? (symbols : Symbols) (l : Lexeme) : Option Token :=
  l.token?.bind fun t => (t.kind.known? symbols).map fun kind => { t with kind }

/-! ## The symbols of a program -/

/-- The key and the value of the constant that a row defines. -/
def definition? : List Lexeme → Option (String × UInt16)
  | [directive, name, numeral] =>
    if directive.asDirective? = some .define ∧ name.isName = true ∧ numeral.isNumeral = true then
      ((Numeral.number? numeral.text).bind Numeral.word?).map (SymbolTable.key name.text, ·)
    else none
  | _ => none

/-- The word that declares a label at the start of a row. -/
def declaration? : List Lexeme → Option Lexeme
  | word :: _ => if word.kind = .declaration then some word else none
  | [] => none

/-- The words of a row behind its leading label declaration. -/
def statementWords : List Lexeme → List Lexeme
  | word :: rest => if word.kind = .declaration then rest else word :: rest
  | [] => []

/-- The constants and the labels of a program, in the order of its rows. -/
def symbolsOf (rows : List (List Lexeme)) : Symbols where
  constants := ⟨rows.filterMap definition?⟩
  labels := ⟨(rows.filterMap declaration?).map fun word =>
    (SymbolTable.key word.text, word.pos.row)⟩

/-! ## The form of rows -/

/-- Data elements with one comma between each two. -/
inductive DataForm (constants : Constants) : List Lexeme → Prop
  | last {element : Lexeme} (helement : element.isElement constants = true) :
      DataForm constants [element]
  | more {element comma : Lexeme} {rest : List Lexeme}
      (helement : element.isElement constants = true) (hcomma : comma.kind = .comma)
      (hrest : DataForm constants rest) :
      DataForm constants (element :: comma :: rest)

/-- The words of a statement. -/
inductive StatementForm (symbols : Symbols) : List Lexeme → Prop
  | origin {mark sign number : Lexeme} (hmark : mark.kind = .star) (hsign : sign.kind = .equal)
      (hnumber : number.isNumber symbols.constants = true) :
      StatementForm symbols [mark, sign, number]
  | data {directive : Lexeme} {elements : List Lexeme} {limit : Nat}
      (hdirective : directive.dataLimit? = some limit)
      (helements : DataForm symbols.constants elements) :
      StatementForm symbols (directive :: elements)
  | operation {opcode : Lexeme} {operands : List Lexeme} {tokens : List Token} {m : Mnemonic}
      {choice : Candidate} (hopcode : opcode.asMnemonic? = some m)
      (hoperands : List.Forall₂ (fun word t => word.operand? symbols = some t) operands tokens)
      (hchoice : chooseMode m opcode.pos tokens = .ok choice) :
      StatementForm symbols (opcode :: operands)

/-- The words of a row: a definition, a label declaration, a statement, or a label declaration with
a statement. -/
inductive RowForm (symbols : Symbols) : List Lexeme → Prop
  | definition {directive name numeral : Lexeme}
      (hdirective : directive.asDirective? = some .define) (hname : name.isName = true)
      (hnumeral : numeral.isNumeral = true) :
      RowForm symbols [directive, name, numeral]
  | declaration {label : Lexeme} (hlabel : label.kind = .declaration) : RowForm symbols [label]
  | statement {words : List Lexeme} (hwords : StatementForm symbols words) :
      RowForm symbols words
  | labelled {label : Lexeme} {words : List Lexeme} (hlabel : label.kind = .declaration)
      (hwords : StatementForm symbols words) :
      RowForm symbols (label :: words)

/-- The names among some words are those of constants and labels. -/
def NamesKnown (symbols : Symbols) (words : List Lexeme) : Prop :=
  ∀ word ∈ words, word.isName = true →
    symbols.constants.contains word.text = true ∨ symbols.labels.contains word.text = true

/-- A word that is a numeral only of a number that fits into a word of the machine. -/
def Lexeme.NumeralFits (l : Lexeme) : Prop :=
  l.isNumeral = true → ∃ kind n, Numeral.Form kind l.text.toList n ∧ n ≤ Numeral.wordLimit

/-- The numerals among some words fit into words of the machine. -/
def NumeralsFit (words : List Lexeme) : Prop := ∀ word ∈ words, word.NumeralFits

/-- The values behind a data directive are within its limit. -/
def DataFits (constants : Constants) (words : List Lexeme) : Prop :=
  ∀ directive elements limit, words = directive :: elements → directive.dataLimit? = some limit →
    ∀ element ∈ elements, ∀ n ∈ element.dataValues constants, n ≤ limit

/-- The rules of the source language. -/
structure WellFormed (rows : List (List Lexeme)) : Prop where
  forms : ∀ row ∈ rows, RowForm (symbolsOf rows) row
  /-- No constant is defined twice, whatever the letter case. -/
  constants_distinct : (symbolsOf rows).constants.names.Nodup
  /-- No label is declared twice, whatever the letter case. -/
  labels_distinct : (symbolsOf rows).labels.names.Nodup
  labels_unreserved : ∀ word ∈ rows.filterMap declaration?, isReserved word.text = false
  names_known : ∀ row ∈ rows, NamesKnown (symbolsOf rows) row
  numerals_fit : ∀ row ∈ rows, NumeralsFit row
  data_fits : ∀ row ∈ rows, DataFits (symbolsOf rows).constants (statementWords row)

/-! ## The items of statements -/

/-- The labels in an operand. -/
def Operand.labels : Operand → List Nat
  | .label index | .labelHalf index _ | .branch index | .bitBranch _ index => [index]
  | .none | .byte _ | .word _ => []

/-- The item that a statement stands for. Numbers are in it with their values, and the labels of an
operation are those that its operands name. -/
inductive StatementItem (symbols : Symbols) : List Lexeme → Item → Prop
  | origin {mark sign number : Lexeme} {address : UInt16} (hmark : mark.kind = .star)
      (hsign : sign.kind = .equal)
      (hnumber : number.number? symbols.constants = some address.toNat) :
      StatementItem symbols [mark, sign, number] (.origin address)
  | bytes {directive : Lexeme} {elements : List Lexeme} {values : List UInt8}
      (hdirective : directive.asDirective? = some .bytes)
      (helements : DataForm symbols.constants elements)
      (hvalues : elements.flatMap (Lexeme.dataValues symbols.constants) =
        values.map UInt8.toNat) :
      StatementItem symbols (directive :: elements) (.bytes values)
  | words {directive : Lexeme} {elements : List Lexeme} {values : List UInt16}
      (hdirective : directive.asDirective? = some .words)
      (helements : DataForm symbols.constants elements)
      (hvalues : elements.flatMap (Lexeme.dataValues symbols.constants) =
        values.map UInt16.toNat) :
      StatementItem symbols (directive :: elements) (.words values)
  | operation {opcode : Lexeme} {operands : List Lexeme} {tokens : List Token} {m : Mnemonic}
      {mode : Mode} {operand : Operand} {code : UInt8} (hopcode : opcode.asMnemonic? = some m)
      (hoperands : List.Forall₂ (fun word t => word.operand? symbols = some t) operands tokens)
      (hchoice : chooseMode m opcode.pos tokens = .ok (mode, operand))
      (hcode : encode m mode = some code)
      (hlabels : operand.labels.map (fun index => symbols.labels.names[index]?) =
        (operands.filterMap (Lexeme.labelName? symbols.constants)).map some) :
      StatementItem symbols (opcode :: operands) (.operation ⟨m, mode⟩ code operand)

end Assembler65
