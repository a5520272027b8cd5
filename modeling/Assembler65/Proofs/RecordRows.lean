import Assembler65.Proofs.Acceptance

/-!
# The records of rows

`RowRecords` says which records a row gives: none for a definition, one for a leading label
declaration and one for a statement, each with the place of its first word. Main statement:
`resolved_of_outcome_eq_ok`, the records of an accepted program are those of its rows in order, and
its labels are numbered in the order of their declarations.
-/

set_option autoImplicit false

namespace Assembler65

/-- The records of a row. -/
inductive RowRecords [Folding] (symbols : Symbols) : List Lexeme → List Record → Prop
  | definition {row : List Lexeme} (hrow : startsDefinition row = true) :
      RowRecords symbols row []
  | declaration {label : Lexeme} {index : Nat} (hlabel : label.kind = .declaration)
      (hindex : symbols.labels.names[index]? = some (SymbolTable.key label.text)) :
      RowRecords symbols [label] [⟨label.pos, .label index⟩]
  | statement {word : Lexeme} {rest : List Lexeme} {item : Item}
      (hitem : StatementItem symbols (word :: rest) item) :
      RowRecords symbols (word :: rest) [⟨word.pos, item⟩]
  | labelled {label word : Lexeme} {rest : List Lexeme} {index : Nat} {item : Item}
      (hlabel : label.kind = .declaration)
      (hindex : symbols.labels.names[index]? = some (SymbolTable.key label.text))
      (hitem : StatementItem symbols (word :: rest) item) :
      RowRecords symbols (label :: word :: rest) [⟨label.pos, .label index⟩, ⟨word.pos, item⟩]

/-- The label whose place a record marks. -/
def Record.label? (r : Record) : Option Nat :=
  match r.item with
  | .label index => some index
  | _ => none

/-- The labels that an item refers to. -/
def Item.references : Item → List Nat
  | .operation _ _ operand => operand.labels
  | _ => []

/-- The records of a program with its symbols. -/
structure Resolved [Folding] (symbols : Symbols) (rows : List (List Lexeme))
    (records : List Record) : Prop where
  /-- The records are those of the rows, in order. -/
  chunks : ∃ chunks, List.Forall₂ (RowRecords symbols) rows chunks ∧ records = chunks.flatten
  /-- The labels are numbered in the order of their declarations. -/
  names : symbols.labels.names =
    (rows.filterMap declaration?).map fun word => SymbolTable.key word.text
  distinct : symbols.labels.names.Nodup
  /-- The records mark the place of every label once, in the order of the numbers. -/
  labels : records.filterMap Record.label? = List.range symbols.labels.size
  closed : ∀ record ∈ records, ∀ index ∈ record.item.references, index < symbols.labels.size

/-! ## The records of one row -/

theorem kind_of_declaration? {row : List Lexeme} {label : Lexeme}
    (h : declaration? row = some label) : label.kind = .declaration := by
  cases row with
  | nil => cases h
  | cons word rest =>
    rw [declaration?] at h
    split at h
    case isTrue hkind =>
      cases h
      exact hkind
    case isFalse => cases h

theorem mem_of_declaration? {row : List Lexeme} {label : Lexeme}
    (h : declaration? row = some label) : label ∈ row := by
  cases row with
  | nil => cases h
  | cons word rest =>
    rw [declaration?, Option.ite_none_right_eq_some] at h
    cases h.2
    exact List.mem_cons_self

theorem Lexeme.ne_nil_of_mem_wordRows {lexemes row : List Lexeme}
    (h : row ∈ Lexeme.wordRows lexemes) : row ≠ [] := by
  rintro rfl
  simp [Lexeme.wordRows] at h

namespace Line

variable [Folding] {l : Line} {labels : Labels}

theorem labelRecord?_bind_of_declaration {t : Token} {rest : List Token} {name : String}
    (htokens : l.tokens = t :: rest) (hkind : t.kind = .declaration name) :
    (labels.bind l).labelRecord? labels =
      (labels.index? name).map fun index => ⟨t.pos, .label index⟩ := by
  obtain ⟨kind, text, pos⟩ := t
  cases hkind
  have hbound : (labels.bind l).tokens =
      ⟨.declaration name, text, pos⟩ :: rest.map (Token.bind labels) := by
    change l.tokens.map (Token.bind labels) = _
    rw [htokens]
    rfl
  simp only [labelRecord?, hbound]

theorem labelRecord?_bind_of_no_declaration
    (h : ∀ t rest name, l.tokens = t :: rest → t.kind ≠ .declaration name) :
    (labels.bind l).labelRecord? labels = none := by
  have hbound : (labels.bind l).tokens = l.tokens.map (Token.bind labels) := rfl
  rw [labelRecord?, hbound]
  cases htokens : l.tokens with
  | nil => rfl
  | cons t rest =>
    have hkind := h t rest
    obtain ⟨kind, text, pos⟩ := t
    rw [htokens] at hkind
    cases kind with
    | declaration name => exact absurd rfl (hkind name rfl)
    | reference name =>
      simp only [List.map_cons, Token.bind, Labels.bindKind]
      cases labels.index? name with
      | some index => rfl
      | none => rfl
    | _ => rfl

end Line

/-- Places that hold the names of a table in order are all places in order. -/
theorem eq_range_of_map_getElem? {names : List String} {places : List Nat} (hnodup : names.Nodup)
    (h : places.map (fun index => names[index]?) = names.map some) :
    places = List.range names.length := by
  have hlength := congrArg List.length h
  rw [List.length_map, List.length_map] at hlength
  -- The place of the name at `i` is `i`, since no other place holds that name.
  apply List.ext_getElem
  · rw [hlength, List.length_range]
  · intro i hi _
    have hi' : i < names.length := by omega
    have hname := congrArg (fun all => all[i]?) h
    simp only [List.getElem?_map, List.getElem?_eq_getElem hi, List.getElem?_eq_getElem hi',
      Option.map_some, Option.some.injEq] at hname
    rw [List.getElem_range]
    refine ((List.getElem?_inj hi' hnodup).1 ?_).symm
    rw [hname, List.getElem?_eq_getElem hi']

section Rows

variable [Folding] {symbols : Symbols} {row : List Lexeme} {l : Line}

theorem RowReads.statementRecord?_of_nil (h : RowReads row l) (hwords : statementWords row = []) :
    (symbols.labels.bind (symbols.constants.inline l)).statementRecord? = none := by
  have hinlines := h.forall₂_statement symbols.constants
  rw [hwords, List.forall₂_nil_left_iff] at hinlines
  apply Line.statementRecord?_of_nil
  rw [Line.statement_bind, hinlines, List.map_nil]

/-- A clean row that is no definition gives its records. -/
theorem RowReads.rowRecords (h : RowReads row l) (hrow : row ≠ [])
    (hdefinition : l.isDefinition = false)
    (hclean : (symbols.constants.inline l).Clean symbols.labels)
    (hlabel : ∀ word, declaration? row = some word →
      symbols.labels.contains word.text = true) :
    RowRecords symbols row
      ((symbols.labels.bind (symbols.constants.inline l)).records symbols.labels) := by
  rw [Line.records]
  rcases cases_declaration (h.tokens_inline symbols.constants) with
    ⟨label, t, rest, hdeclaration, htokens, hwords, hkind, hpos, -⟩ | ⟨-, hwords, hkinds⟩
  · -- A declared label is in the table, so its record is not left out.
    obtain ⟨index, hindex⟩ := SymbolTable.exists_index?_iff.2 (hlabel label hdeclaration)
    have hname := SymbolTable.getElem?_names_of_index? hindex
    have hlabelKind := kind_of_declaration? hdeclaration
    rw [Line.labelRecord?_bind_of_declaration htokens hkind, hindex, ← hpos]
    cases hstatement : statementWords row with
    | nil =>
      rw [h.statementRecord?_of_nil hstatement, hwords, hstatement]
      exact .declaration hlabelKind hname
    | cons word words =>
      obtain ⟨item, hitem, hrecord⟩ := h.exists_statementItem hdefinition hclean hstatement
      rw [hrecord, hwords, hstatement]
      rw [hstatement] at hitem
      exact .labelled hlabelKind hname hitem
  · rw [Line.labelRecord?_bind_of_no_declaration hkinds]
    cases row with
    | nil => exact absurd rfl hrow
    | cons word words =>
      obtain ⟨item, hitem, hrecord⟩ := h.exists_statementItem hdefinition hclean hwords
      rw [hrecord]
      rw [hwords] at hitem
      exact .statement hitem

/-! ## The records of a program -/

variable {rows : List (List Lexeme)} {lines : List Line} {records : List Record}
  {chunks : List (List Record)}

/-- The records of an accepted program are those of its rows. -/
theorem exists_chunks (h : List.Forall₂ RowReads rows lines) (hrows : ∀ row ∈ rows, row ≠ [])
    (hclean : ∀ l ∈ lines, l.isDefinition = false →
      (symbols.constants.inline l).Clean symbols.labels)
    (hlabels : ∀ row ∈ rows, ∀ word, declaration? row = some word →
      symbols.labels.contains word.text = true) :
    ∃ chunks, List.Forall₂ (RowRecords symbols) rows chunks ∧
      (Program.boundLines symbols lines).flatMap (Line.records symbols.labels) =
        chunks.flatten := by
  induction h with
  | nil => exact ⟨[], .nil, rfl⟩
  | @cons row l rows lines hhead _ ih =>
    rw [List.forall_mem_cons] at hrows hclean hlabels
    obtain ⟨chunks, hchunks, hflatten⟩ := ih hrows.2 hclean.2 hlabels.2
    rw [Program.boundLines, Program.inlinedLines, List.map_map] at hflatten ⊢
    cases hdefinition : l.isDefinition with
    | true =>
      -- The line of a definition is left out, and the row of a definition gives no record.
      refine ⟨[] :: chunks, .cons (.definition ?_) hchunks, ?_⟩
      · exact hhead.isDefinition_eq.symm.trans hdefinition
      · rw [List.filter_cons_of_neg (by simp [hdefinition]), hflatten, List.flatten_cons,
          List.nil_append]
    | false =>
      have hrecords := hhead.rowRecords hrows.1 hdefinition (hclean.1 hdefinition) hlabels.1
      refine ⟨_ :: chunks, .cons hrecords hchunks, ?_⟩
      rw [List.filter_cons_of_pos (by simp [hdefinition]), List.map_cons, List.flatMap_cons,
        hflatten, List.flatten_cons]
      rfl

theorem StatementItem.label?_eq_none {words : List Lexeme} {item : Item} {pos : Position}
    (h : StatementItem symbols words item) : Record.label? ⟨pos, item⟩ = none := by
  cases h with
  | origin => rfl
  | bytes => rfl
  | words => rfl
  | operation => rfl

/-- A row marks the place of the label that it declares, and of no other. -/
theorem RowRecords.names_label? {chunk : List Record} (h : RowRecords symbols row chunk) :
    (chunk.filterMap Record.label?).map (fun index => symbols.labels.names[index]?) =
      (declaration? row).toList.map fun word => some (SymbolTable.key word.text) := by
  cases h with
  | definition hrow =>
    rw [declaration?_eq_none hrow]
    rfl
  | declaration hlabel hindex =>
    rw [declaration?, if_pos hlabel]
    simp [Record.label?, hindex]
  | statement hitem =>
    rw [declaration?, if_neg hitem.statementForm.kind_ne_declaration,
      List.filterMap_cons_none hitem.label?_eq_none]
    rfl
  | labelled hlabel hindex hitem =>
    rw [declaration?, if_pos hlabel, List.filterMap_cons,
      List.filterMap_cons_none hitem.label?_eq_none]
    simp [Record.label?, hindex]

/-- The places of labels are marked in the order of the declarations. -/
theorem names_label?_flatten (h : List.Forall₂ (RowRecords symbols) rows chunks) :
    (chunks.flatten.filterMap Record.label?).map (fun index => symbols.labels.names[index]?) =
      (rows.filterMap declaration?).map fun word => some (SymbolTable.key word.text) := by
  induction h with
  | nil => rfl
  | @cons row chunk rows chunks hhead _ ih =>
    rw [List.flatten_cons, List.filterMap_append, List.map_append, ih, hhead.names_label?]
    cases hword : declaration? row with
    | none => rw [List.filterMap_cons_none hword]; rfl
    | some word => rw [List.filterMap_cons_some hword]; rfl

/-- The labels that a statement refers to are in the table. -/
theorem StatementItem.references_lt {words : List Lexeme} {item : Item}
    (h : StatementItem symbols words item) :
    ∀ index ∈ item.references, index < symbols.labels.size := by
  cases h with
  | origin => nofun
  | bytes => nofun
  | words => nofun
  | @operation opcode operands tokens m mode operand code hopcode hoperands hchoice hcode hlabels =>
    intro index hindex
    have hindex : index ∈ operand.labels := hindex
    -- The label has a name in the table, so its number is below the size.
    have hmem := List.mem_map_of_mem (f := fun index => symbols.labels.names[index]?) hindex
    rw [hlabels] at hmem
    obtain ⟨name, -, hname⟩ := List.mem_map.1 hmem
    obtain ⟨hlt, -⟩ := List.getElem?_eq_some_iff.1 hname.symm
    rwa [SymbolTable.length_names] at hlt

theorem RowRecords.references_lt {chunk : List Record} (h : RowRecords symbols row chunk) :
    ∀ record ∈ chunk, ∀ index ∈ record.item.references, index < symbols.labels.size := by
  cases h with
  | definition hrow =>
    intro record hrecord
    cases hrecord
  | declaration hlabel hindex =>
    rw [List.forall_mem_singleton]
    intro index hindex
    cases hindex
  | statement hitem =>
    rw [List.forall_mem_singleton]
    exact hitem.references_lt
  | labelled hlabel hindex hitem =>
    rw [List.forall_mem_cons, List.forall_mem_singleton]
    refine ⟨?_, hitem.references_lt⟩
    intro index hindex
    cases hindex

theorem names_symbolsOf (rows : List (List Lexeme)) :
    (symbolsOf rows).labels.names =
      (rows.filterMap declaration?).map fun word => SymbolTable.key word.text := by
  rw [SymbolTable.names, symbolsOf, List.map_map]
  rfl

/-- The table holds the labels that the rows declare. -/
theorem contains_of_declaration? (hrow : row ∈ rows) (word : Lexeme)
    (h : declaration? row = some word) :
    (symbolsOf rows).labels.contains word.text = true := by
  rw [SymbolTable.contains_iff, names_symbolsOf]
  exact List.mem_map.2 ⟨word, List.mem_filterMap.2 ⟨row, hrow, h⟩, rfl⟩

/-- What an accepted program is made of, whatever its lexemes come from: rows that keep the rules,
the symbols of these rows, and their records in order. -/
theorem wellFormed_and_exists_chunks {lexemes : List Lexeme}
    (h : (Program.resolve {} lexemes).outcome = .ok records) :
    WellFormed (Lexeme.wordRows lexemes) ∧
      (Program.resolve {} lexemes).symbols = symbolsOf (Lexeme.wordRows lexemes) ∧
      ∃ chunks, List.Forall₂ (RowRecords (symbolsOf (Lexeme.wordRows lexemes)))
        (Lexeme.wordRows lexemes) chunks ∧ records = chunks.flatten := by
  obtain ⟨hreading, haccepted, hrecords⟩ := Program.outcome_eq_ok_iff.1 h
  have hlines := forall₂_wordRows hreading
  have hsymbols := symbols_eq_of_accepted hlines haccepted
  rw [hsymbols] at haccepted hrecords
  have hwell := (accepted_iff_wellFormed hlines fun _ => Lexeme.ne_nil_of_mem_wordRows).1 haccepted
  obtain ⟨chunks, hchunks, hflatten⟩ := exists_chunks hlines
    (fun _ => Lexeme.ne_nil_of_mem_wordRows) haccepted.clean fun _ => contains_of_declaration?
  exact ⟨hwell, hsymbols, chunks, hchunks, hrecords.trans hflatten⟩

/-- The marked places are numbered in the order of the declarations. -/
theorem filterMap_label?_flatten (hnodup : (symbolsOf rows).labels.names.Nodup)
    (h : List.Forall₂ (RowRecords (symbolsOf rows)) rows chunks) :
    chunks.flatten.filterMap Record.label? = List.range (symbolsOf rows).labels.size := by
  have hnames : ((rows.filterMap declaration?).map fun word =>
      some (SymbolTable.key word.text)) = (symbolsOf rows).labels.names.map some := by
    rw [names_symbolsOf, List.map_map]
    rfl
  have hplaces := names_label?_flatten h
  rw [hnames] at hplaces
  rw [← SymbolTable.length_names]
  exact eq_range_of_map_getElem? hnodup hplaces

/-- The records of accepted lexemes, whatever these come from. -/
theorem resolved_wordRows {lexemes : List Lexeme}
    (h : (Program.resolve {} lexemes).outcome = .ok records) :
    Resolved (Program.resolve {} lexemes).symbols (Lexeme.wordRows lexemes) records := by
  obtain ⟨hwell, hsymbols, chunks, hchunks, rfl⟩ := wellFormed_and_exists_chunks h
  rw [hsymbols]
  refine ⟨⟨chunks, hchunks, rfl⟩, names_symbolsOf _, hwell.labels_distinct,
    filterMap_label?_flatten hwell.labels_distinct hchunks, ?_⟩
  intro record hrecord
  obtain ⟨chunk, hchunk, hrecord⟩ := List.mem_flatten.1 hrecord
  obtain ⟨row, -, hrow⟩ := exists_of_mem_left hchunks.flip hchunk
  exact RowRecords.references_lt hrow record hrecord

/-- The records of an accepted program are those of its rows in order, and its labels are numbered
in the order of their declarations. -/
theorem resolved_of_outcome_eq_ok (s : Source) {lexemes : List Lexeme} {records : List Record}
    (h : s.lexemes = .ok lexemes)
    (hrecords : (Program.resolve {} lexemes).outcome = .ok records) :
    Resolved (Program.resolve {} lexemes).symbols s.words records := by
  obtain rfl := Source.lexemes_eq h
  rw [← wordRows_ofSource]
  exact resolved_wordRows hrecords

end Rows

/-- A jump forward to a label, one byte, and a jump back. -/
def jumpAndReturn : Source where
  name := "jump.s"
  rows := ["Start: JMP STOP", ".byte 1", "stop: JMP start"]

/-- The records of `jumpAndReturn`: the label `stop` has a number before it is declared. -/
def jumpAndReturnRecords : List Record :=
  [⟨⟨1, 1⟩, .label 0⟩, ⟨⟨1, 8⟩, .operation ⟨.jmp, .absolute⟩ 0x4C (.label 1)⟩,
    ⟨⟨2, 1⟩, .bytes [1]⟩,
    ⟨⟨3, 1⟩, .label 1⟩, ⟨⟨3, 7⟩, .operation ⟨.jmp, .absolute⟩ 0x4C (.label 0)⟩]

theorem resolved_jumpAndReturn :
    jumpAndReturn.lexemes = .ok (Lexeme.ofSource jumpAndReturn) ∧
      (Program.resolve {} (Lexeme.ofSource jumpAndReturn)).outcome = .ok jumpAndReturnRecords ∧
      Resolved (Program.resolve {} (Lexeme.ofSource jumpAndReturn)).symbols jumpAndReturn.words
        jumpAndReturnRecords := by
  have hlexemes : jumpAndReturn.lexemes = .ok (Lexeme.ofSource jumpAndReturn) := by
    decide +kernel
  have houtcome : (Program.resolve {} (Lexeme.ofSource jumpAndReturn)).outcome =
      .ok jumpAndReturnRecords := by
    decide +kernel
  exact ⟨hlexemes, houtcome, resolved_of_outcome_eq_ok _ hlexemes houtcome⟩

end Assembler65
