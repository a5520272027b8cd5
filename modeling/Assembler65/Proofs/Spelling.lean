import Assembler65.Proofs.Numerals
import Assembler65.Proofs.Rows

/-!
# Spelling

A name can be written in capitals or in small letters, a number in any base, and a word can stand in
any column of its row. Words that differ in nothing else are `Lexeme.Respelled`. What is left of a
token, a line or a fault without spelling is its `unspelled`: names in small letters, no texts, and
rows in the place of positions. Sources whose words are respelled have the same lines and the same
faults of reading without spelling (`Source.Respelled.map_meaning_words`).
-/

set_option autoImplicit false

namespace Assembler65

/-! ## Respelled words -/

namespace Lexeme

/-- A lexeme whose letters may be capitals or small ones. -/
def isCaseless (l : Lexeme) : Bool :=
  l.kind == .identifier || l.kind == .declaration || l.kind == .directive

/-- Words of one row with one meaning: the same word, a name in other letters, or a numeral of the
same value. -/
structure Respelled (l l' : Lexeme) : Prop where
  row : l.pos.row = l'.pos.row
  meaning :
    l.kind = l'.kind ∧ l.text = l'.text ∨
      l.kind = l'.kind ∧ l.isCaseless = true ∧ l.text.toLower = l'.text.toLower ∨
      l.isNumeral = true ∧ l'.isNumeral = true ∧ Numeral.value l.text = Numeral.value l'.text

-- Letters are compared one by one: the kernel is slow to compare strings that are not literals.
instance (l l' : Lexeme) : Decidable (l.Respelled l') :=
  decidable_of_iff
    (l.pos.row = l'.pos.row ∧
      (l.kind = l'.kind ∧ l.text = l'.text ∨
        l.kind = l'.kind ∧ l.isCaseless = true ∧
          l.text.toLower.toList = l'.text.toLower.toList ∨
        l.isNumeral = true ∧ l'.isNumeral = true ∧ Numeral.value l.text = Numeral.value l'.text))
    (by rw [String.toList_inj]; exact ⟨fun h => ⟨h.1, h.2⟩, fun h => ⟨h.row, h.meaning⟩⟩)

end Lexeme

/-! ## What is left without spelling -/

/-- A position without its column. -/
def Position.rowOnly (p : Position) : Position := ⟨p.row, 0⟩

namespace TokenKind

/-- A kind of token with its name in small letters. -/
def unspelled : TokenKind → TokenKind
  | declaration name => declaration (SymbolTable.key name)
  | identifier name => identifier (SymbolTable.key name)
  | reference name => reference (SymbolTable.key name)
  | kind => kind

end TokenKind

/-- A token without its text and its column, and with its name in small letters. -/
def Token.unspelled (t : Token) : Token := ⟨t.kind.unspelled, "", t.pos.rowOnly⟩

/-- A line without the spelling of its tokens. -/
def Line.unspelled (l : Line) : Line :=
  ⟨l.row, l.tokens.map Token.unspelled, l.finish.rowOnly⟩

/-- A cause with its name in small letters and without the text of a number. -/
def Cause.unspelled : Cause → Cause
  | unknownDirective text => unknownDirective text.toLower
  | redefinedConstant name => redefinedConstant (SymbolTable.key name)
  | constantOverflow _ limit => constantOverflow "" limit
  | redefinedLabel name firstRow => redefinedLabel (SymbolTable.key name) firstRow
  | reservedLabel name => reservedLabel (SymbolTable.key name)
  | undefinedLabel name => undefinedLabel (SymbolTable.key name)
  | cause => cause

/-- A fault without the spelling of what it quotes and without its column. Its kind and its row are
kept. -/
def Fault.unspelled : Fault → Fault
  | inSource pos cause => inSource pos.rowOnly cause.unspelled
  | fault => fault

/-- What a lexeme adds to its line, without spelling. -/
def Contribution.unspelled : Contribution → Contribution
  | token kind => token kind.unspelled
  | fault cause => fault cause.unspelled
  | contribution => contribution

/-! ## Letters -/

theorem toLower_toLower (s : String) : s.toLower.toLower = s.toLower := by
  show (s.map Char.toLower).map Char.toLower = s.map Char.toLower
  rw [String.map_map]
  congr 1
  exact funext toLower_toLower_char

theorem toUpper_toLower (s : String) : s.toLower.toUpper = s.toUpper := by
  show (s.map Char.toLower).map Char.toUpper = s.map Char.toUpper
  rw [String.map_map]
  congr 1
  exact funext toUpper_toLower_char

theorem toLower_append (s t : String) : (s ++ t).toLower = s.toLower ++ t.toLower := by
  apply String.toList_injective
  show ((s ++ t).map Char.toLower).toList = (s.map Char.toLower ++ t.map Char.toLower).toList
  simp

theorem SymbolTable.key_eq_toLower (name : String) : key name = name.toLower := by
  apply String.toList_injective
  show (String.ofList (name.toList.map Char.toLower)).toList = (name.map Char.toLower).toList
  rw [String.toList_ofList, String.toList_map]

@[simp] theorem SymbolTable.key_key (name : String) : key (key name) = key name := by
  rw [key_eq_toLower, key_eq_toLower, toLower_toLower]

@[simp] theorem Mnemonic.parse?_key (name : String) :
    parse? (SymbolTable.key name) = parse? name := by
  rw [parse?, parse?, SymbolTable.key_eq_toLower, toUpper_toLower]

@[simp] theorem Register.parse?_key (name : String) :
    parse? (SymbolTable.key name) = parse? name := by
  rw [parse?, parse?, SymbolTable.key_eq_toLower, toUpper_toLower]

@[simp] theorem Directive.parse?_key (name : String) :
    parse? (SymbolTable.key name) = parse? name := by
  rw [parse?, parse?, SymbolTable.key_eq_toLower, toLower_toLower]

theorem TokenKind.unspelled_ofName (name : String) :
    (ofName name).unspelled = ofName (SymbolTable.key name) := by
  rw [ofName, ofName, Mnemonic.parse?_key, Register.parse?_key]
  cases Mnemonic.parse? name with
  | some m => rfl
  | none =>
    cases Register.parse? name with
    | some r => rfl
    | none => rfl

/-! ## Respelled words have one meaning -/

namespace Lexeme

variable {l l' : Lexeme}

/-- A numeral stands for its value, or for a huge number if that is too large. -/
theorem contribution_of_isNumeral (hnumeral : l.isNumeral = true)
    (hvalid : Numeral.Valid l.text.toList) :
    l.contribution = .token (.number
      ((if Numeral.value l.text < 0x100000000 then some (Numeral.value l.text) else none).getD
        hugeNumber)) := by
  rw [← Numeral.parse?_of_valid hvalid]
  rw [isNumeral] at hnumeral
  rw [contribution]
  cases hkind : l.kind <;> simp [hkind] at hnumeral ⊢

/-- A word with letters means what it means in small letters. -/
theorem unspelled_contribution_of_isCaseless (hkind : l.kind = l'.kind)
    (hcaseless : l.isCaseless = true) (htext : l.text.toLower = l'.text.toLower) :
    l.contribution.unspelled = l'.contribution.unspelled := by
  have hkey : SymbolTable.key l.text = SymbolTable.key l'.text := by
    rw [SymbolTable.key_eq_toLower, SymbolTable.key_eq_toLower, htext]
  rw [isCaseless] at hcaseless
  rw [contribution, contribution, ← hkind]
  cases hl : l.kind with
  | identifier =>
    simp only [Contribution.unspelled, TokenKind.unspelled_ofName, hkey]
  | declaration => simp only [Contribution.unspelled, TokenKind.unspelled, hkey]
  | directive =>
    have hmark : ("." ++ l.text).toLower = ("." ++ l'.text).toLower := by
      rw [toLower_append, toLower_append, htext]
    simp only [← Directive.parse?_key l.text, ← Directive.parse?_key l'.text, hkey]
    cases Directive.parse? (SymbolTable.key l'.text) with
    | some d => rfl
    | none => simp only [Contribution.unspelled, Cause.unspelled, hmark]
  | _ => cases hl ▸ hcaseless

/-- Respelled words add the same to their lines, without spelling. -/
theorem Respelled.unspelled_contribution (h : l.Respelled l')
    (hvalid : l.isNumeral = true → Numeral.Valid l.text.toList)
    (hvalid' : l'.isNumeral = true → Numeral.Valid l'.text.toList) :
    l.contribution.unspelled = l'.contribution.unspelled := by
  rcases h.meaning with ⟨hkind, htext⟩ | ⟨hkind, hcaseless, htext⟩ | ⟨hnum, hnum', hvalue⟩
  · rw [contribution, contribution, hkind, htext]
  · exact unspelled_contribution_of_isCaseless hkind hcaseless htext
  · rw [contribution_of_isNumeral hnum (hvalid hnum),
      contribution_of_isNumeral hnum' (hvalid' hnum'), hvalue]

/-- What a word means: its row, and what it adds to its line without spelling. -/
def meaning (l : Lexeme) : Nat × Contribution := (l.pos.row, l.contribution.unspelled)

theorem map_meaning_of_respelled {words words' : List Lexeme}
    (h : List.Forall₂ Respelled words words')
    (hvalid : ∀ l ∈ words, l.isNumeral = true → Numeral.Valid l.text.toList)
    (hvalid' : ∀ l ∈ words', l.isNumeral = true → Numeral.Valid l.text.toList) :
    words.map meaning = words'.map meaning := by
  induction h with
  | nil => rfl
  | cons hhead _ ih =>
    rw [List.forall_mem_cons] at hvalid hvalid'
    rw [List.map_cons, List.map_cons, ih hvalid.2 hvalid'.2, meaning, meaning, hhead.row,
      hhead.unspelled_contribution hvalid.1 hvalid'.1]

end Lexeme

/-! ## Reading respelled words -/

/-- What has been read of a row without spelling: its tokens and its fault. -/
def RowReading.unspelled (reading : RowReading) : List Token × Option Fault :=
  (reading.tokens.map Token.unspelled, reading.fault.map Fault.unspelled)

/-- The tokens of some meanings up to the first fault, and the fault. -/
def readMeanings : List (Nat × Contribution) → List Token × Option Fault
  | [] => ([], none)
  | (row, contribution) :: rest =>
    match contribution with
    | .token kind => (⟨kind, "", ⟨row, 0⟩⟩ :: (readMeanings rest).1, (readMeanings rest).2)
    | .fault cause => ([], some (.inSource ⟨row, 0⟩ cause))
    | .finish | .nothing => readMeanings rest

/-- Without spelling, reading is a matter of meanings. -/
theorem unspelled_readRow (finish : Position) (lexemes : List Lexeme) :
    (readRow finish lexemes).unspelled = readMeanings (lexemes.map Lexeme.meaning) := by
  induction lexemes generalizing finish with
  | nil => rfl
  | cons l rest ih =>
    rw [readRow, List.map_cons, Lexeme.meaning]
    cases l.contribution with
    | token kind =>
      have hrest := ih finish
      rw [RowReading.unspelled] at hrest
      simp only [RowReading.unspelled, readMeanings, Contribution.unspelled, List.map_cons,
        ← hrest]
      rfl
    | finish => exact ih l.pos
    | nothing => exact ih finish
    | fault cause => rfl

/-- Comments and the end of a row mean nothing. -/
theorem readMeanings_filter_isWord (lexemes : List Lexeme) :
    readMeanings ((lexemes.filter Lexeme.isWord).map Lexeme.meaning) =
      readMeanings (lexemes.map Lexeme.meaning) := by
  induction lexemes with
  | nil => rfl
  | cons l rest ih =>
    have hword := l.isWord_eq
    have hmeaning : l.meaning = (l.pos.row, l.contribution.unspelled) := rfl
    rw [List.map_cons, hmeaning]
    cases hc : l.contribution with
    | token kind =>
      rw [hc] at hword hmeaning
      rw [List.filter_cons_of_pos hword, List.map_cons, hmeaning, Contribution.unspelled,
        readMeanings, readMeanings, ih]
    | finish =>
      rw [hc] at hword
      rw [List.filter_cons_of_neg (by simp [hword]), ih]
      rfl
    | nothing =>
      rw [hc] at hword
      rw [List.filter_cons_of_neg (by simp [hword]), ih]
      rfl
    | fault cause =>
      rw [hc] at hword hmeaning
      rw [List.filter_cons_of_pos hword, List.map_cons, hmeaning]
      rfl

theorem row_finish_readRow {row : Nat} {finish : Position} {lexemes : List Lexeme}
    (h : ∀ l ∈ lexemes, l.pos.row = row) (hfinish : finish.row = row) :
    (readRow finish lexemes).finish.row = row := by
  induction lexemes generalizing finish with
  | nil => exact hfinish
  | cons l rest ih =>
    rw [List.forall_mem_cons] at h
    rw [readRow]
    cases l.contribution with
    | token kind => exact ih h.2 hfinish
    | finish => exact ih h.2 h.1
    | nothing => exact ih h.2 hfinish
    | fault cause => exact hfinish

/-! ## Lines of respelled words -/

namespace Line

/-- What a row gives without spelling: its line, if it has tokens, and its fault. -/
def meaning (lexemes : List Lexeme) : Option Line × Option Fault :=
  ((ofRow? lexemes).map Line.unspelled, (reading lexemes).2.fault.map Fault.unspelled)

/-- What some tokens of a row give, with the fault behind them. -/
def ofTokens (row : Nat) (read : List Token × Option Fault) : Option Line × Option Fault :=
  (if read.1.isEmpty then none else some ⟨row, read.1, ⟨row, 0⟩⟩, read.2)

theorem meaning_eq_ofTokens {row : Nat} {lexemes : List Lexeme}
    (h : ∀ l ∈ lexemes, l.pos.row = row) :
    meaning lexemes = ofTokens row (readMeanings (lexemes.map Lexeme.meaning)) := by
  cases lexemes with
  | nil => rfl
  | cons l rest =>
    -- The row of a line is that of its first lexeme, and its end stands in the same row.
    have hrow : (l :: rest).head?.map (fun l => l.pos.row) = some row := by
      rw [List.head?_cons, Option.map_some, h l List.mem_cons_self]
    have hfinish : (readRow ⟨row, 1⟩ (l :: rest)).finish.row = row := row_finish_readRow h rfl
    rw [meaning, ofRow?, reading, hrow, ofTokens, ← unspelled_readRow ⟨row, 1⟩]
    simp only [Option.getD_some, RowReading.unspelled, List.isEmpty_map]
    refine Prod.ext ?_ rfl
    split
    · rfl
    · rw [Option.map_some, unspelled, Position.rowOnly, hfinish]

/-- Rows of words with the same meanings give the same. -/
theorem meaning_of_map_meaning {row : Nat} {words words' : List Lexeme}
    (h : ∀ l ∈ words, l.pos.row = row)
    (hmeaning : words.map Lexeme.meaning = words'.map Lexeme.meaning) :
    meaning words = meaning words' := by
  have h' : ∀ l ∈ words', l.pos.row = row := by
    intro l hl
    have hmem : l.meaning ∈ words.map Lexeme.meaning := hmeaning ▸ List.mem_map_of_mem hl
    obtain ⟨k, hk, hsame⟩ := List.mem_map.1 hmem
    exact (congrArg Prod.fst hsame).symm.trans (h k hk)
  rw [meaning_eq_ofTokens h, meaning_eq_ofTokens h', hmeaning]

theorem meaning_filter_isWord {row : Nat} {lexemes : List Lexeme}
    (h : ∀ l ∈ lexemes, l.pos.row = row) :
    meaning (lexemes.filter Lexeme.isWord) = meaning lexemes := by
  rw [meaning_eq_ofTokens h, meaning_eq_ofTokens fun l hl => h l (List.mem_of_mem_filter hl),
    readMeanings_filter_isWord]

/-- The rows with words give all the lines and faults there are. -/
theorem filterMap_wordRows {α : Type} (lexemes : List Lexeme)
    (part : Option Line × Option Fault → Option α) (hnothing : part (none, none) = none) :
    (Lexeme.wordRows lexemes).filterMap (part ∘ meaning) =
      (Lexeme.rows lexemes).filterMap (part ∘ meaning) := by
  rw [Lexeme.wordRows, List.filterMap_filter, List.filterMap_map]
  apply List.filterMap_congr
  intro row hrow
  have hsame := meaning_filter_isWord fun l hl => row_of_mem_rows hrow hl
  simp only [Function.comp_apply]
  split
  · rw [hsame]
  · rename_i hempty
    have hnil : row.filter Lexeme.isWord = [] := by simpa using hempty
    rw [← hsame, hnil]
    exact hnothing.symm

theorem map_unspelled_ofLexemes (lexemes : List Lexeme) :
    (ofLexemes lexemes).map unspelled =
      ((Lexeme.wordRows lexemes).map meaning).filterMap Prod.fst := by
  rw [ofLexemes, List.map_filterMap, List.filterMap_map, filterMap_wordRows _ _ rfl]
  rfl

theorem map_unspelled_readingFaults (lexemes : List Lexeme) :
    (readingFaults lexemes).map Fault.unspelled =
      ((Lexeme.wordRows lexemes).map meaning).filterMap Prod.snd := by
  rw [readingFaults, List.map_filterMap, List.filterMap_map, filterMap_wordRows _ _ rfl]
  rfl

end Line

/-! ## Respelled sources -/

/-- Sources whose rows hold the same words up to spelling. Comments, and rows without words, do not
count. -/
def Source.Respelled (s s' : Source) : Prop :=
  List.Forall₂ (List.Forall₂ Lexeme.Respelled) s.words s'.words

instance (s s' : Source) : Decidable (s.Respelled s') :=
  inferInstanceAs (Decidable (List.Forall₂ _ _ _))

theorem Source.exists_content_of_mem_words {s : Source} {row : List Lexeme} (h : row ∈ s.words) :
    ∃ c ∈ s.content, row = (Lexeme.ofRow c.1 c.2).filter Lexeme.isWord := by
  obtain ⟨c, hc, rfl⟩ := List.mem_map.1 (List.mem_of_mem_filter h)
  exact ⟨c, hc, rfl⟩

theorem Source.valid_of_mem_words {s : Source} {row : List Lexeme} (h : row ∈ s.words) :
    ∀ l ∈ row, l.isNumeral = true → Numeral.Valid l.text.toList := by
  obtain ⟨c, hc, rfl⟩ := exists_content_of_mem_words h
  intro l hl
  exact Numeral.valid_of_mem_ofSource (List.mem_flatMap.2 ⟨c, hc, List.mem_of_mem_filter hl⟩)

/-- Rows of respelled sources give the same lines and faults, without spelling. -/
theorem Source.Respelled.map_meaning_words {s s' : Source} (h : s.Respelled s') :
    s.words.map Line.meaning = s'.words.map Line.meaning := by
  have hrow : ∀ row ∈ s.words, ∃ number, ∀ l ∈ row, l.pos.row = number := by
    intro row hrow
    obtain ⟨c, -, rfl⟩ := exists_content_of_mem_words hrow
    exact ⟨c.1, fun l hl => Lexeme.row_of_mem_scan (List.mem_of_mem_filter hl)⟩
  have hvalid : ∀ row ∈ s.words, ∀ l ∈ row, l.isNumeral = true → Numeral.Valid l.text.toList :=
    fun _ => valid_of_mem_words
  have hvalid' : ∀ row ∈ s'.words, ∀ l ∈ row, l.isNumeral = true → Numeral.Valid l.text.toList :=
    fun _ => valid_of_mem_words
  rw [Source.Respelled] at h
  generalize s.words = rows, s'.words = rows' at *
  induction h with
  | nil => rfl
  | cons hhead _ ih =>
    rw [List.forall_mem_cons] at hrow hvalid hvalid'
    obtain ⟨number, hnumber⟩ := hrow.1
    have hmeaning := Lexeme.map_meaning_of_respelled hhead hvalid.1 hvalid'.1
    rw [List.map_cons, List.map_cons, Line.meaning_of_map_meaning hnumber hmeaning,
      ih hrow.2 hvalid.2 hvalid'.2]

end Assembler65
