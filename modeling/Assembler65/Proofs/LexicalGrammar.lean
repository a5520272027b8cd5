import Assembler65.Proofs.LexemeForms

/-!
# The grammar of rows

A row is put together from blanks and spellings of lexemes. `LexemeKind.Admits` says character by
character which texts a kind of lexeme has, `LexemeKind.Closes` what may follow it, and a `Piece` is
a blank or a lexeme of a row. Scanning any row at all divides it into pieces
(`Piece.exists_scansTo`), of which some may be unreadable. Main statement:
`ofRow_reads_grammar`, a row is read without an unexpected lexeme exactly if it is divided in
accordance with the grammar, there is one such division only, and its lexemes are those read.
-/

set_option autoImplicit false

namespace Assembler65

open Text

/-! ## Texts of lexemes -/

/-- A letter in either case. -/
def IsLetter (c : Char) : Prop := 'A' ≤ c ∧ c ≤ 'Z' ∨ 'a' ≤ c ∧ c ≤ 'z'

/-- A digit below a base of at most ten, told by the last of these digits. -/
def IsDigitTo (last c : Char) : Prop := '0' ≤ c ∧ c ≤ last

/-- Letters, digits and underscores, and not underscores alone. -/
structure IsNameText (text : List Char) : Prop where
  characters : ∀ c ∈ text, IsLetter c ∨ IsDigitTo '9' c ∨ c = '_'
  notUnderscores : ∃ c ∈ text, c ≠ '_'

namespace LexemeKind

/-- The texts that a kind of lexeme may have. -/
def Admits (kind : LexemeKind) (text : List Char) : Prop :=
  match kind with
  | identifier | declaration =>
    IsNameText text ∧ ∃ c rest, text = c :: rest ∧ (IsLetter c ∨ c = '_')
  | directive => IsNameText text
  | decimal =>
    ∃ c digits, text = c :: digits ∧ ('1' ≤ c ∧ c ≤ '9') ∧ ∀ d ∈ digits, IsDigitTo '9' d
  | octal => ∃ digits, text = '0' :: digits ∧ ∀ d ∈ digits, IsDigitTo '7' d
  | hexadecimal =>
    ∃ digits, text = '$' :: digits ∧ digits ≠ [] ∧
      ∀ d ∈ digits, IsDigitTo '9' d ∨ 'A' ≤ d ∧ d ≤ 'F' ∨ 'a' ≤ d ∧ d ≤ 'f'
  | binary => ∃ digits, text = '%' :: digits ∧ digits ≠ [] ∧ ∀ d ∈ digits, IsDigitTo '1' d
  | string => (∀ c ∈ text, c ≠ '"') ∧ ∃ c ∈ text, c ≠ ' ' ∧ c ≠ '_'
  | comment => True
  | comma => text = [',']
  | hash => text = ['#']
  | leftParen => text = ['(']
  | rightParen => text = [')']
  | less => text = ['<']
  | greater => text = ['>']
  | star => text = ['*']
  | equal => text = ['=']
  | lineEnd | unexpected => False

/-- The characters that may follow a lexeme of a kind besides blanks and a semicolon. -/
def closers : LexemeKind → List Char
  | identifier | hexadecimal | binary | octal | decimal => [',', ')']
  | string => [',']
  | _ => []

/-- A lexeme of a kind may stand before the rest of a row. A comment takes all of the row, and
marks may stand before anything. -/
def Closes (kind : LexemeKind) (rest : List Char) : Prop :=
  match kind with
  | identifier | declaration | directive | hexadecimal | binary | octal | decimal | string =>
    ∀ c ∈ rest.head?, isBlank c = true ∨ c = ';' ∨ c ∈ kind.closers
  | comment => rest = []
  | _ => True

end LexemeKind

/-! ### The same classes as the rules of reading have -/

theorem isDigitTo_iff (last : Char) {c : Char} :
    IsDigitTo last c ↔ 48 ≤ c.toNat ∧ c.toNat ≤ last.toNat := by
  rw [IsDigitTo, char_le_iff, char_le_iff]
  rfl

theorem isLetter_iff {c : Char} :
    IsLetter c ↔ 65 ≤ c.toNat ∧ c.toNat ≤ 90 ∨ 97 ≤ c.toNat ∧ c.toNat ≤ 122 := by
  rw [IsLetter, char_le_iff, char_le_iff, char_le_iff, char_le_iff]
  rfl

theorem startsName_iff_isLetter {c : Char} :
    Lexeme.startsName c = true ↔ IsLetter c ∨ c = '_' := by
  rw [Lexeme.startsName_iff, isLetter_iff, or_assoc]

theorem inName_iff_isLetter {c : Char} :
    Lexeme.inName c = true ↔ IsLetter c ∨ IsDigitTo '9' c ∨ c = '_' := by
  rw [Lexeme.inName_iff, isLetter_iff, isDigitTo_iff, or_assoc]
  rfl

theorem isDigit_iff_isDigitTo {c : Char} : c.isDigit = true ↔ IsDigitTo '9' c :=
  isDigit_iff.trans (isDigitTo_iff '9').symm

theorem isOctal_iff_isDigitTo {c : Char} : Lexeme.isOctal c = true ↔ IsDigitTo '7' c :=
  Lexeme.isOctal_iff.trans (isDigitTo_iff '7').symm

theorem isBinary_iff_isDigitTo {c : Char} : Lexeme.isBinary c = true ↔ IsDigitTo '1' c :=
  Lexeme.isBinary_iff.trans (isDigitTo_iff '1').symm

theorem isHexadecimal_iff_isDigitTo {c : Char} :
    Lexeme.isHexadecimal c = true ↔
      IsDigitTo '9' c ∨ 'A' ≤ c ∧ c ≤ 'F' ∨ 'a' ≤ c ∧ c ≤ 'f' := by
  rw [Lexeme.isHexadecimal_iff, isDigitTo_iff]
  simp only [char_le_iff, Char.reduceToNat]
  tauto

theorem isNameText_iff {text : List Char} :
    IsNameText text ↔ (∀ c ∈ text, Lexeme.inName c = true) ∧ ∃ c ∈ text, c ≠ '_' := by
  simp only [inName_iff_isLetter]
  exact ⟨fun h => ⟨h.1, h.2⟩, fun h => ⟨h.1, h.2⟩⟩

/-- A digit that is not zero. -/
theorem isDigit_and_ne_zero_iff {c : Char} :
    c ≠ '0' ∧ c.isDigit = true ↔ '1' ≤ c ∧ c ≤ '9' := by
  rw [isDigit_iff, char_le_iff, char_le_iff, ne_eq, ← Char.toNat_inj]
  simp only [Char.reduceToNat]
  omega

namespace LexemeKind

theorem lexemeForm_of_admits {kind : LexemeKind} {text : List Char} (h : kind.Admits text) :
    LexemeForm kind text := by
  cases kind with
  | identifier =>
    obtain ⟨hname, c, rest, rfl, hstart⟩ := h
    obtain ⟨hname, hletter⟩ := isNameText_iff.1 hname
    exact .identifier (startsName_iff_isLetter.2 hstart) hname hletter
  | declaration =>
    obtain ⟨hname, c, rest, rfl, hstart⟩ := h
    obtain ⟨hname, hletter⟩ := isNameText_iff.1 hname
    exact .declaration (startsName_iff_isLetter.2 hstart) hname hletter
  | directive =>
    obtain ⟨hname, hletter⟩ := isNameText_iff.1 h
    exact .directive hname hletter
  | decimal =>
    obtain ⟨c, digits, rfl, hfirst, hdigits⟩ := h
    obtain ⟨hzero, hdigit⟩ := isDigit_and_ne_zero_iff.2 hfirst
    refine .decimal hzero (List.forall_mem_cons.2 ⟨hdigit, ?_⟩)
    exact fun d hd => isDigit_iff_isDigitTo.2 (hdigits d hd)
  | octal =>
    obtain ⟨digits, rfl, hdigits⟩ := h
    exact .octal fun d hd => isOctal_iff_isDigitTo.2 (hdigits d hd)
  | hexadecimal =>
    obtain ⟨digits, rfl, hne, hdigits⟩ := h
    exact .hexadecimal hne fun d hd => isHexadecimal_iff_isDigitTo.2 (hdigits d hd)
  | binary =>
    obtain ⟨digits, rfl, hne, hdigits⟩ := h
    exact .binary hne fun d hd => isBinary_iff_isDigitTo.2 (hdigits d hd)
  | string => exact .string h.1 h.2
  | comment => exact .comment text
  | lineEnd => exact h.elim
  | unexpected => exact h.elim
  | _ =>
    -- The marks, one character each.
    cases h
    exact .mark rfl

theorem admits_of_lexemeForm {kind : LexemeKind} {text : List Char} (h : LexemeForm kind text) :
    kind.Admits text := by
  cases h with
  | mark hmark =>
    unfold ofMark? at hmark
    split at hmark <;> cases hmark <;> rfl
  | identifier hstart hname hletter =>
    exact ⟨isNameText_iff.2 ⟨hname, hletter⟩, _, _, rfl, startsName_iff_isLetter.1 hstart⟩
  | declaration hstart hname hletter =>
    exact ⟨isNameText_iff.2 ⟨hname, hletter⟩, _, _, rfl, startsName_iff_isLetter.1 hstart⟩
  | directive hname hletter => exact isNameText_iff.2 ⟨hname, hletter⟩
  | octal hdigits => exact ⟨_, rfl, fun d hd => isOctal_iff_isDigitTo.1 (hdigits d hd)⟩
  | decimal hzero hdigits =>
    rw [List.forall_mem_cons] at hdigits
    refine ⟨_, _, rfl, isDigit_and_ne_zero_iff.1 ⟨hzero, hdigits.1⟩, ?_⟩
    exact fun d hd => isDigit_iff_isDigitTo.1 (hdigits.2 d hd)
  | hexadecimal hne hdigits =>
    exact ⟨_, rfl, hne, fun d hd => isHexadecimal_iff_isDigitTo.1 (hdigits d hd)⟩
  | binary hne hdigits =>
    exact ⟨_, rfl, hne, fun d hd => isBinary_iff_isDigitTo.1 (hdigits d hd)⟩
  | string hquote hcontent => exact ⟨hquote, hcontent⟩
  | comment text => trivial

/-- The texts of a kind are those that the rules of reading give it. -/
theorem admits_iff {kind : LexemeKind} {text : List Char} :
    kind.Admits text ↔ LexemeForm kind text :=
  ⟨lexemeForm_of_admits, admits_of_lexemeForm⟩

theorem endsBefore_iff {closing rest : List Char} :
    Lexeme.endsBefore closing rest = true ↔
      ∀ c ∈ rest.head?, isBlank c = true ∨ c = ';' ∨ c ∈ closing := by
  cases rest with
  | nil => simp [Lexeme.endsBefore]
  | cons c rest => simp [Lexeme.endsBefore, or_assoc]

theorem closes_iff {kind : LexemeKind} {rest : List Char} :
    kind.Closes rest ↔ kind.endsBefore rest = true := by
  cases kind with
  | comment => exact List.isEmpty_iff.symm
  | identifier => exact endsBefore_iff.symm
  | declaration => exact endsBefore_iff.symm
  | directive => exact endsBefore_iff.symm
  | hexadecimal => exact endsBefore_iff.symm
  | binary => exact endsBefore_iff.symm
  | octal => exact endsBefore_iff.symm
  | decimal => exact endsBefore_iff.symm
  | string => exact endsBefore_iff.symm
  | _ => exact iff_of_true trivial rfl

/-- A text of a kind is one that is read back where nothing follows. -/
theorem admits_iff_read? {kind : LexemeKind} {text : List Char} :
    kind.Admits text ↔ Lexeme.read? (kind.spelling text) = some (kind, text) := by
  rw [admits_iff]
  constructor
  · intro hform
    have hread : Lexeme.read? (kind.spelling text ++ []) = some (kind, text) :=
      Lexeme.read?_spelling_append hform (by cases kind <;> rfl)
    rwa [List.append_nil] at hread
  · exact fun hread => (Lexeme.read?_eq_some_iff.1 hread).1

instance (kind : LexemeKind) (text : List Char) : Decidable (kind.Admits text) :=
  decidable_of_iff _ admits_iff_read?.symm

instance (kind : LexemeKind) (rest : List Char) : Decidable (kind.Closes rest) :=
  decidable_of_iff _ closes_iff.symm

end LexemeKind

/-! ## Pieces of rows -/

/-- A piece of a row: a blank, or a lexeme with its text. -/
inductive Piece where
  | blank (c : Char)
  | lexeme (kind : LexemeKind) (text : List Char)
  deriving DecidableEq, Repr

namespace Piece

/-- The characters of a piece. -/
def spelling : Piece → List Char
  | blank c => [c]
  | lexeme kind text => kind.spelling text

/-- The characters of some pieces, one piece after the other. -/
def join (pieces : List Piece) : List Char := pieces.flatMap spelling

/-- The lexemes of some pieces from a column of a row on. A piece takes as many columns as it has
characters, and the row ends behind the last one. -/
def lexemes (row : Nat) : (column : Nat) → List Piece → List Lexeme
  | column, [] => [⟨.lineEnd, "", ⟨row, column⟩⟩]
  | column, blank _ :: rest => lexemes row (column + 1) rest
  | column, lexeme kind text :: rest =>
    ⟨kind, String.ofList text, ⟨row, column⟩⟩ ::
      lexemes row (column + (kind.spelling text).length) rest

/-- A piece before the rest of a row is in accordance with the grammar. -/
def Regular (rest : List Char) : Piece → Prop
  | blank c => isBlank c = true
  | lexeme kind text => kind.Admits text ∧ kind.Closes rest

/-- A piece before the rest of a row is an unexpected run of characters up to the next blank. -/
def Unreadable (rest : List Char) : Piece → Prop
  | blank _ => False
  | lexeme kind text =>
    kind = .unexpected ∧ text ≠ [] ∧ (∀ c ∈ text, isBlank c = false) ∧
      ∀ c ∈ rest.head?, isBlank c = true

/-- Every piece stands rightly before the pieces that follow it. -/
def Chained (fits : List Char → Piece → Prop) : List Piece → Prop
  | [] => True
  | piece :: rest => fits (join rest) piece ∧ Chained fits rest

/-- Pieces in accordance with the grammar. -/
def Grammatical (pieces : List Piece) : Prop := Chained Regular pieces

/-- Pieces of which each is in accordance with the grammar or unreadable. -/
def Scanned (pieces : List Piece) : Prop :=
  Chained (fun rest piece => piece.Regular rest ∨ piece.Unreadable rest) pieces

instance (rest : List Char) : (piece : Piece) → Decidable (piece.Regular rest)
  | blank c => inferInstanceAs (Decidable (isBlank c = true))
  | lexeme kind text => inferInstanceAs (Decidable (kind.Admits text ∧ kind.Closes rest))

instance decidableChained (fits : List Char → Piece → Prop)
    [∀ rest piece, Decidable (fits rest piece)] :
    (pieces : List Piece) → Decidable (Chained fits pieces)
  | [] => inferInstanceAs (Decidable True)
  | piece :: rest =>
    have := decidableChained fits rest
    inferInstanceAs (Decidable (fits (join rest) piece ∧ Chained fits rest))

instance (pieces : List Piece) : Decidable (Grammatical pieces) :=
  inferInstanceAs (Decidable (Chained Regular pieces))

theorem join_cons (piece : Piece) (rest : List Piece) :
    join (piece :: rest) = piece.spelling ++ join rest := List.flatMap_cons

theorem join_append (before after : List Piece) :
    join (before ++ after) = join before ++ join after := List.flatMap_append

/-- Each piece of a chain stands rightly before those behind it. -/
theorem Chained.fits {fits : List Char → Piece → Prop} {before after : List Piece} {piece : Piece}
    (h : Chained fits (before ++ piece :: after)) : fits (join after) piece := by
  induction before with
  | nil => exact h.1
  | cons _ before ih => exact ih h.2

/-- A lexeme of some pieces is one of them, behind the characters of all pieces before it, or the
end of the row. -/
theorem exists_piece_of_mem_lexemes {row column : Nat} {pieces : List Piece} {l : Lexeme}
    (h : l ∈ lexemes row column pieces) :
    (∃ before kind text after, pieces = before ++ lexeme kind text :: after ∧
      l = ⟨kind, String.ofList text, ⟨row, column + (join before).length⟩⟩) ∨
      l = ⟨.lineEnd, "", ⟨row, column + (join pieces).length⟩⟩ := by
  induction pieces generalizing column with
  | nil => exact .inr (List.mem_singleton.1 h)
  | cons piece rest ih =>
    -- The columns of all that follows are counted from behind the first piece.
    have hcount : ∀ more : List Piece, column + (join (piece :: more)).length =
        column + piece.spelling.length + (join more).length := by
      intro more
      rw [join_cons, List.length_append, Nat.add_assoc]
    have hrest : l ∈ lexemes row (column + piece.spelling.length) rest →
        (∃ before kind text after, piece :: rest = before ++ lexeme kind text :: after ∧
          l = ⟨kind, String.ofList text, ⟨row, column + (join before).length⟩⟩) ∨
          l = ⟨.lineEnd, "", ⟨row, column + (join (piece :: rest)).length⟩⟩ := by
      intro hl
      rcases ih hl with ⟨before, kind, text, after, rfl, rfl⟩ | rfl
      · exact .inl ⟨piece :: before, kind, text, after, rfl, by rw [hcount]⟩
      · exact .inr (by rw [hcount])
    cases piece with
    | blank c => exact hrest h
    | lexeme kind text =>
      rcases List.mem_cons.1 h with rfl | h
      · exact .inl ⟨[], kind, text, rest, rfl, rfl⟩
      · exact hrest h

theorem exists_mem_lexemes_of_mem {row column : Nat} {pieces : List Piece} {kind : LexemeKind}
    {text : List Char} (h : lexeme kind text ∈ pieces) :
    ∃ l ∈ lexemes row column pieces, l.kind = kind := by
  induction pieces generalizing column with
  | nil => cases h
  | cons piece rest ih =>
    rcases List.mem_cons.1 h with rfl | hrest
    · exact ⟨_, List.mem_cons_self, rfl⟩
    · cases piece with
      | blank c => exact ih hrest
      | lexeme kind' text' =>
        obtain ⟨l, hl, hkind⟩ := ih hrest
        exact ⟨l, List.mem_cons_of_mem _ hl, hkind⟩

/-! ## Scanning divides rows into pieces -/

theorem Regular.spelling_eq_cons {rest : List Char} {piece : Piece} (h : piece.Regular rest) :
    ∃ c more, piece.spelling = c :: more := by
  cases piece with
  | blank c => exact ⟨c, [], rfl⟩
  | lexeme kind text =>
    obtain ⟨c, more, hspelling, -⟩ := Lexeme.spelling_eq_cons (LexemeKind.admits_iff.1 h.1)
    exact ⟨c, more, hspelling⟩

/-- What a row starts with settles its first piece. -/
theorem Regular.unique {rest rest' : List Char} {piece other : Piece} (h : piece.Regular rest)
    (h' : other.Regular rest') (heq : piece.spelling ++ rest = other.spelling ++ rest') :
    piece = other := by
  -- A lexeme does not start with a blank, so a blank and a lexeme cannot begin alike.
  have hdiffer : ∀ {c : Char} {kind : LexemeKind} {text tail tail' : List Char},
      isBlank c = true → kind.Admits text → c :: tail ≠ kind.spelling text ++ tail' := by
    intro c kind text tail tail' hblank hadmits heq
    obtain ⟨d, more, hspelling, hfirst⟩ := Lexeme.spelling_eq_cons (LexemeKind.admits_iff.1 hadmits)
    rw [hspelling] at heq
    rw [(List.cons.inj heq).1, hfirst] at hblank
    cases hblank
  cases piece with
  | blank c =>
    cases other with
    | blank d => rw [(List.cons.inj heq).1]
    | lexeme kind text => exact absurd heq (hdiffer h h'.1)
  | lexeme kind text =>
    cases other with
    | blank d => exact absurd heq.symm (hdiffer h' h.1)
    | lexeme kind' text' =>
      have hread := Lexeme.read?_spelling_append (LexemeKind.admits_iff.1 h.1)
        (LexemeKind.closes_iff.1 h.2)
      have hread' := Lexeme.read?_spelling_append (LexemeKind.admits_iff.1 h'.1)
        (LexemeKind.closes_iff.1 h'.2)
      have hsame : kind.spelling text ++ rest = kind'.spelling text' ++ rest' := heq
      rw [hsame, hread'] at hread
      cases hread
      rfl

/-- A row is divided in accordance with the grammar in one way at most. -/
theorem Grammatical.unique {pieces others : List Piece} (h : Grammatical pieces)
    (h' : Grammatical others) (heq : join pieces = join others) : pieces = others := by
  induction pieces generalizing others with
  | nil =>
    cases others with
    | nil => rfl
    | cons other others =>
      obtain ⟨c, more, hspelling⟩ := h'.1.spelling_eq_cons
      rw [join_cons, hspelling] at heq
      cases heq
  | cons piece pieces ih =>
    cases others with
    | nil =>
      obtain ⟨c, more, hspelling⟩ := h.1.spelling_eq_cons
      rw [join_cons, hspelling] at heq
      cases heq
    | cons other others =>
      rw [join_cons, join_cons] at heq
      obtain rfl := h.1.unique h'.1 heq
      rw [ih h.2 h'.2 (List.append_cancel_left heq)]

/-- Scanning a row divides it into some pieces. -/
structure ScansTo (cs : List Char) (pieces : List Piece) : Prop where
  scanned : Scanned pieces
  join_eq : join pieces = cs
  scan_eq : ∀ row column, Lexeme.scan row 0 column cs = lexemes row column pieces

theorem ScansTo.blank {c : Char} {cs : List Char} {pieces : List Piece} (hblank : isBlank c = true)
    (h : ScansTo cs pieces) : ScansTo (c :: cs) (.blank c :: pieces) := by
  refine ⟨⟨.inl hblank, h.scanned⟩, ?_, ?_⟩
  · rw [join_cons, h.join_eq]
    rfl
  · intro row column
    exact (Lexeme.scan_blank hblank).trans (h.scan_eq row _)

theorem ScansTo.lexeme {kind : LexemeKind} {c : Char} {text spelling rest : List Char}
    {pieces : List Piece} (hspelling : kind.spelling text = c :: spelling)
    (hblank : isBlank c = false) (hread : Lexeme.read (kind.spelling text ++ rest) = (kind, text))
    (hfits : (lexeme kind text).Regular rest ∨ (lexeme kind text).Unreadable rest)
    (h : ScansTo rest pieces) :
    ScansTo (kind.spelling text ++ rest) (.lexeme kind text :: pieces) := by
  obtain ⟨hscanned, rfl, hscan⟩ := h
  refine ⟨⟨hfits, hscanned⟩, rfl, ?_⟩
  intro row column
  rw [Lexeme.scan_read_append hspelling hblank hread, hscan]
  rfl

/-- Scanning finds the pieces that a row is put together from. -/
theorem Grammatical.scansTo {pieces : List Piece} (h : Grammatical pieces) :
    ScansTo (join pieces) pieces := by
  induction pieces with
  | nil => exact ⟨trivial, rfl, fun _ _ => rfl⟩
  | cons piece pieces ih =>
    cases piece with
    | blank c => exact (ih h.2).blank h.1
    | lexeme kind text =>
      obtain ⟨⟨hadmits, hcloses⟩, hrest⟩ := h
      have hform := LexemeKind.admits_iff.1 hadmits
      obtain ⟨c, spelling, hspelling, hblank⟩ := Lexeme.spelling_eq_cons hform
      have hread : Lexeme.read (kind.spelling text ++ join pieces) = (kind, text) := by
        rw [Lexeme.read, Lexeme.read?_spelling_append hform (LexemeKind.closes_iff.1 hcloses),
          Option.getD_some]
      exact (ih hrest).lexeme hspelling hblank hread (.inl ⟨hadmits, hcloses⟩)

/-- What is read where no blank stands is the first piece of the row. -/
theorem exists_read {c : Char} {cs : List Char} (hblank : isBlank c = false) :
    ∃ kind text spelling rest, c :: cs = kind.spelling text ++ rest ∧
      kind.spelling text = c :: spelling ∧ Lexeme.read (c :: cs) = (kind, text) ∧
      ((lexeme kind text).Regular rest ∨ (lexeme kind text).Unreadable rest) := by
  cases hrule : Lexeme.read? (c :: cs) with
  | some lexeme =>
    obtain ⟨kind, text⟩ := lexeme
    obtain ⟨hform, rest, heq, hends⟩ := Lexeme.read?_eq_some_iff.1 hrule
    obtain ⟨d, spelling, hspelling, -⟩ := Lexeme.spelling_eq_cons hform
    have hfirst : c = d := by
      rw [hspelling] at heq
      exact (List.cons.inj heq).1
    refine ⟨kind, text, spelling, rest, heq, hfirst ▸ hspelling, ?_, .inl ?_⟩
    · rw [Lexeme.read, hrule, Option.getD_some]
    · exact ⟨LexemeKind.admits_iff.2 hform, LexemeKind.closes_iff.2 hends⟩
  | none =>
    have htake : (c :: cs).takeWhile (fun d => !isBlank d) =
        c :: cs.takeWhile fun d => !isBlank d :=
      List.takeWhile_cons_of_pos (by rw [hblank]; rfl)
    have hsplit : c :: cs = (c :: cs).takeWhile (fun d => !isBlank d) ++
        (c :: cs).dropWhile fun d => !isBlank d :=
      List.takeWhile_append_dropWhile.symm
    refine ⟨.unexpected, (c :: cs).takeWhile fun d => !isBlank d, _,
      (c :: cs).dropWhile fun d => !isBlank d, hsplit, htake, ?_, .inr ⟨rfl, ?_, ?_, ?_⟩⟩
    · rw [Lexeme.read, hrule, Option.getD_none]
    · rw [htake]
      exact List.cons_ne_nil _ _
    · have hrun : ∀ d ∈ (c :: cs).takeWhile (fun d => !isBlank d), (!isBlank d) = true :=
        fun _ => List.mem_takeWhile_imp
      simpa using hrun
    · intro d hd
      have hstop := List.head?_dropWhile_not (fun d => !isBlank d) (c :: cs)
      rw [Option.mem_def.1 hd] at hstop
      simpa using hstop

/-- Scanning divides every row into pieces, whatever it holds. -/
theorem exists_scansTo (cs : List Char) : ∃ pieces, ScansTo cs pieces := by
  -- What follows the first piece is shorter than the row.
  induction hlength : cs.length using Nat.strongRecOn generalizing cs with
  | _ length ih =>
    cases cs with
    | nil => exact ⟨[], trivial, rfl, fun _ _ => rfl⟩
    | cons c cs =>
      cases hblank : isBlank c with
      | true =>
        obtain ⟨pieces, hpieces⟩ := ih cs.length (by simp [← hlength]) cs rfl
        exact ⟨_, hpieces.blank hblank⟩
      | false =>
        obtain ⟨kind, text, spelling, rest, heq, hspelling, hread, hfits⟩ := exists_read hblank
        rw [heq] at hlength hread ⊢
        have hshorter : rest.length < length := by
          rw [← hlength, hspelling, List.length_append, List.length_cons]
          omega
        obtain ⟨pieces, hpieces⟩ := ih rest.length hshorter rest rfl
        exact ⟨_, hpieces.lexeme hspelling hblank hread hfits⟩

/-- Pieces without an unexpected one are in accordance with the grammar. -/
theorem Scanned.grammatical {pieces : List Piece} (h : Scanned pieces)
    (hread : ∀ text, lexeme .unexpected text ∉ pieces) : Grammatical pieces := by
  induction pieces with
  | nil => trivial
  | cons piece pieces ih =>
    refine ⟨h.1.resolve_right ?_, ih h.2 fun text hmem => hread text (List.mem_cons_of_mem _ hmem)⟩
    intro hunreadable
    cases piece with
    | blank c => exact hunreadable
    | lexeme kind text =>
      obtain ⟨rfl, -⟩ := hunreadable
      exact hread text List.mem_cons_self

theorem Grammatical.kind_ne_unexpected {pieces : List Piece} (h : Grammatical pieces)
    {row column : Nat} : ∀ l ∈ lexemes row column pieces, l.kind ≠ .unexpected := by
  intro l hl
  rcases exists_piece_of_mem_lexemes hl with ⟨before, kind, text, after, rfl, rfl⟩ | rfl
  · rintro rfl
    exact (Chained.fits h).1
  · exact nofun

end Piece

/-- Reading a row that is put together in accordance with the grammar gives its lexemes, with their
kinds, texts and columns, and the end of the row. The rows that are read without an unexpected
lexeme are these and no others, and each is put together in one way only. -/
theorem ofRow_reads_grammar (row : Nat) (line : String) :
    (∀ pieces, Piece.Grammatical pieces → Piece.join pieces = line.toList →
      Lexeme.ofRow row line = Piece.lexemes row 1 pieces) ∧
      ((∀ l ∈ Lexeme.ofRow row line, l.kind ≠ .unexpected) ↔
        ∃! pieces, Piece.Grammatical pieces ∧ Piece.join pieces = line.toList) := by
  have hreads : ∀ pieces, Piece.Grammatical pieces → Piece.join pieces = line.toList →
      Lexeme.ofRow row line = Piece.lexemes row 1 pieces := by
    intro pieces hgrammatical hjoin
    rw [Lexeme.ofRow, ← hjoin]
    exact hgrammatical.scansTo.scan_eq row 1
  refine ⟨hreads, ?_, ?_⟩
  · intro hexpected
    obtain ⟨pieces, hscanned, hjoin, hscan⟩ := Piece.exists_scansTo line.toList
    have hgrammatical : Piece.Grammatical pieces := by
      apply hscanned.grammatical
      intro text hmem
      obtain ⟨l, hl, hkind⟩ := Piece.exists_mem_lexemes_of_mem hmem
      rw [← hscan row 1] at hl
      exact hexpected l hl hkind
    refine ⟨pieces, ⟨hgrammatical, hjoin⟩, ?_⟩
    rintro others ⟨hothers, hjoin'⟩
    exact hothers.unique hgrammatical (hjoin'.trans hjoin.symm)
  · rintro ⟨pieces, ⟨hgrammatical, hjoin⟩, -⟩
    rw [hreads pieces hgrammatical hjoin]
    exact hgrammatical.kind_ne_unexpected

/-- The pieces of `lp: .byte "é ",$1F,0; "`. -/
def dataPieces : List Piece :=
  [.lexeme .declaration ['l', 'p'], .blank ' ', .lexeme .directive ['b', 'y', 't', 'e'], .blank ' ',
    .lexeme .string ['é', ' '], .lexeme .comma [','], .lexeme .hexadecimal ['$', '1', 'F'],
    .lexeme .comma [','], .lexeme .octal ['0'], .lexeme .comment [' ', '"']]

theorem ofRow_dataPieces :
    Piece.Grammatical dataPieces ∧
      Lexeme.ofRow 7 "lp: .byte \"é \",$1F,0; \"" =
        [⟨.declaration, "lp", ⟨7, 1⟩⟩, ⟨.directive, "byte", ⟨7, 5⟩⟩, ⟨.string, "é ", ⟨7, 11⟩⟩,
          ⟨.comma, ",", ⟨7, 15⟩⟩, ⟨.hexadecimal, "$1F", ⟨7, 16⟩⟩, ⟨.comma, ",", ⟨7, 19⟩⟩,
          ⟨.octal, "0", ⟨7, 20⟩⟩, ⟨.comment, " \"", ⟨7, 21⟩⟩, ⟨.lineEnd, "", ⟨7, 24⟩⟩] := by
  have hgrammatical : Piece.Grammatical dataPieces := by decide +kernel
  refine ⟨hgrammatical, ?_⟩
  exact (ofRow_reads_grammar 7 _).1 dataPieces hgrammatical (by decide +kernel)

end Assembler65
