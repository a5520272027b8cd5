import Assembler65.Proofs.CleanRows

/-!
# The programs that are accepted

`Program.Accepted` says that no step of resolving finds a fault, and
`Program.outcome_eq_ok_iff` that this is when records are made. Main statement:
`exists_records_iff_wellFormed`, the programs that are accepted are those of the source language.
-/

set_option autoImplicit false

namespace Assembler65

namespace Program

/-! ## Steps without a fault -/

theorem faultsOf_recordRemarks_eq_nil_iff {lines : List Line} :
    faultsOf (lines.flatMap Line.recordRemarks) = [] ↔
      ∀ l ∈ lines, ∀ fault, l.statementRecord? ≠ some (.error fault) := by
  rw [faultsOf, List.filterMap_flatMap, List.flatMap_eq_nil_iff]
  refine forall₂_congr fun l _ => ?_
  rw [Line.recordRemarks]
  cases l.statementRecord? with
  | none => simp
  | some result =>
    cases result with
    | error fault => simp [Remark.fault?]
    | ok record => simp [Remark.fault?]

variable [Folding]

/-- A program in which no step finds a fault, with its symbols. -/
structure Accepted (lines : List Line) (symbols : Symbols) : Prop where
  constants : collect Constants.collectStep {} lines = (symbols.constants, [])
  labels : collect (Labels.collectStep symbols.constants) {} lines = (symbols.labels, [])
  clean : ∀ l ∈ lines, l.isDefinition = false →
    (symbols.constants.inline l).Clean symbols.labels

/-- The checks of the lines find nothing exactly if each check finds nothing in each line. -/
theorem lineFaults_eq_nil_iff {lines : List Line} {labels : Labels} {labelFaults : List Fault} :
    lineFaults lines labels labelFaults = [] ↔
      labelFaults = [] ∧ ∀ l ∈ lines, l.rangeFaults = [] ∧ l.gatherOrigin.2 = [] ∧
        l.gatherData.2 = [] ∧ l.referenceFaults labels = [] ∧ l.headFaults = [] := by
  simp only [lineFaults, List.append_eq_nil_iff, List.flatMap_eq_nil_iff]
  constructor
  · rintro ⟨⟨⟨⟨⟨hrange, horigin⟩, hdata⟩, hlabels⟩, hreferences⟩, hhead⟩
    exact ⟨hlabels, fun l hl => ⟨hrange l hl, horigin l hl, hdata l hl, hreferences l hl,
      hhead l hl⟩⟩
  · rintro ⟨hlabels, hlines⟩
    exact ⟨⟨⟨⟨⟨fun l hl => (hlines l hl).1, fun l hl => (hlines l hl).2.1⟩,
      fun l hl => (hlines l hl).2.2.1⟩, hlabels⟩, fun l hl => (hlines l hl).2.2.2.1⟩,
      fun l hl => (hlines l hl).2.2.2.2⟩

theorem symbols_resolve (symbols : Symbols) (lexemes : List Lexeme) :
    (resolve symbols lexemes).symbols = (bind symbols lexemes).symbols := by
  simp only [resolve]
  split
  · split
    · rfl
    · rfl
  · rfl

theorem outcome_resolve_eq_ok_iff {symbols : Symbols} {lexemes : List Lexeme}
    {records : List Record} :
    (resolve symbols lexemes).outcome = .ok records ↔
      faultsOf (bind symbols lexemes).remarks = [] ∧
        faultsOf ((bind symbols lexemes).lines.flatMap Line.recordRemarks) = [] ∧
        records = (bind symbols lexemes).lines.flatMap
          (Line.records (bind symbols lexemes).symbols.labels) := by
  simp only [resolve]
  split
  case h_1 hbound =>
    split
    case h_1 hmade => simp [hbound, hmade, eq_comm]
    case h_2 faults hmade => exact ⟨nofun, fun h => absurd h.2.1 hmade⟩
  case h_2 faults hbound => exact ⟨nofun, fun h => absurd h.1 hbound⟩

/-- The lines of a program that are no definitions, with their constants inlined. -/
def inlinedLines (constants : Constants) (lines : List Line) : List Line :=
  (lines.filter fun l => !l.isDefinition).map constants.inline

theorem mem_inlinedLines {constants : Constants} {lines : List Line} {k : Line} :
    k ∈ inlinedLines constants lines ↔
      ∃ l ∈ lines, l.isDefinition = false ∧ constants.inline l = k := by
  simp only [inlinedLines, List.mem_map, List.mem_filter, Bool.not_eq_true', and_assoc]

/-- The lines of a program that are no definitions, with the names in them replaced. -/
def boundLines (symbols : Symbols) (lines : List Line) : List Line :=
  (inlinedLines symbols.constants lines).map symbols.labels.bind

theorem mem_boundLines {symbols : Symbols} {lines : List Line} {k : Line} :
    k ∈ boundLines symbols lines ↔
      ∃ l ∈ lines, l.isDefinition = false ∧
        symbols.labels.bind (symbols.constants.inline l) = k := by
  rw [boundLines, List.mem_map]
  constructor
  · rintro ⟨inlined, hinlined, rfl⟩
    obtain ⟨l, hl, hdefinition, rfl⟩ := mem_inlinedLines.1 hinlined
    exact ⟨l, hl, hdefinition, rfl⟩
  · rintro ⟨l, hl, hdefinition, rfl⟩
    exact ⟨_, mem_inlinedLines.2 ⟨l, hl, hdefinition, rfl⟩, rfl⟩

theorem lines_bind (lexemes : List Lexeme) :
    (bind {} lexemes).lines = boundLines (bind {} lexemes).symbols (Line.ofLexemes lexemes) :=
  rfl

/-- The faults that are found before records are made, step by step. -/
theorem faultsOf_remarks_bind (lexemes : List Lexeme) :
    faultsOf (bind {} lexemes).remarks =
      Line.readingFaults lexemes ++
        (collect Constants.collectStep {} (Line.ofLexemes lexemes)).2 ++
        lineFaults
          (inlinedLines (bind {} lexemes).symbols.constants (Line.ofLexemes lexemes))
          (bind {} lexemes).symbols.labels
          (collect (Labels.collectStep (bind {} lexemes).symbols.constants) {}
            (Line.ofLexemes lexemes)).2 := by
  rw [← Constants.defineAll_eq_collect, ← Labels.declareAll_eq_collect]
  -- Remarks that are no faults come only from the definitions.
  have hremarks : ∀ reading defined checks, faultsOf
      (reading.map .faultFound ++ defined ++ checks.map .faultFound) =
        reading ++ faultsOf defined ++ checks := by
    intro reading defined checks
    rw [faultsOf_append, faultsOf_append, faultsOf_map_faultFound, faultsOf_map_faultFound]
  exact hremarks _ _ _

theorem constants_bind (lexemes : List Lexeme) :
    (bind {} lexemes).symbols.constants =
      (collect Constants.collectStep {} (Line.ofLexemes lexemes)).1 := by
  rw [← Constants.defineAll_eq_collect]
  rfl

theorem labels_bind (lexemes : List Lexeme) :
    (bind {} lexemes).symbols.labels =
      (collect (Labels.collectStep (bind {} lexemes).symbols.constants) {}
        (Line.ofLexemes lexemes)).1 := by
  rw [← Labels.declareAll_eq_collect]
  rfl

/-- The symbols of a program in which no step finds a fault are those that resolving gives. -/
theorem Accepted.symbols_eq {lexemes : List Lexeme} {symbols : Symbols}
    (h : Accepted (Line.ofLexemes lexemes) symbols) : (resolve {} lexemes).symbols = symbols := by
  have hconstants : (bind {} lexemes).symbols.constants = symbols.constants := by
    rw [constants_bind, h.constants]
  have hlabels := labels_bind lexemes
  rw [hconstants, h.labels] at hlabels
  rw [symbols_resolve]
  generalize (bind {} lexemes).symbols = bound at hconstants hlabels ⊢
  obtain ⟨constants, labels⟩ := bound
  cases hconstants
  cases hlabels
  rfl

/-- Records are made exactly if every row can be read and no step finds a fault. -/
theorem outcome_eq_ok_iff {lexemes : List Lexeme} {records : List Record} :
    (resolve {} lexemes).outcome = .ok records ↔
      Line.readingFaults lexemes = [] ∧
        Accepted (Line.ofLexemes lexemes) (resolve {} lexemes).symbols ∧
        records = (boundLines (resolve {} lexemes).symbols (Line.ofLexemes lexemes)).flatMap
          (Line.records (resolve {} lexemes).symbols.labels) := by
  have hconstants := constants_bind lexemes
  have hlabels := labels_bind lexemes
  rw [outcome_resolve_eq_ok_iff, symbols_resolve, faultsOf_remarks_bind, lines_bind,
    List.append_eq_nil_iff, List.append_eq_nil_iff, lineFaults_eq_nil_iff,
    faultsOf_recordRemarks_eq_nil_iff]
  -- From here on the steps are tied together by the symbols alone.
  generalize (bind {} lexemes).symbols = symbols at hconstants hlabels ⊢
  constructor
  · rintro ⟨⟨⟨hreading, hdefined⟩, hdeclared, hchecks⟩, hrecords, rfl⟩
    refine ⟨hreading, ⟨Prod.ext hconstants.symm hdefined, Prod.ext hlabels.symm hdeclared, ?_⟩, rfl⟩
    intro l hl hdefinition
    have hmem : symbols.constants.inline l ∈
        inlinedLines symbols.constants (Line.ofLexemes lexemes) :=
      mem_inlinedLines.2 ⟨l, hl, hdefinition, rfl⟩
    obtain ⟨hrange, horigin, hdata, hreferences, hhead⟩ := hchecks _ hmem
    exact ⟨hrange, horigin, hdata, hreferences, hhead, hrecords _ (List.mem_map_of_mem hmem)⟩
  · rintro ⟨hreading, haccepted, rfl⟩
    have hclean : ∀ k ∈ inlinedLines symbols.constants (Line.ofLexemes lexemes),
        k.Clean symbols.labels := by
      intro k hk
      obtain ⟨l, hl, hdefinition, rfl⟩ := mem_inlinedLines.1 hk
      exact haccepted.clean l hl hdefinition
    refine ⟨⟨⟨hreading, by rw [haccepted.constants]⟩, by rw [haccepted.labels], ?_⟩, ?_, rfl⟩
    · intro k hk
      have h := hclean k hk
      exact ⟨h.range, h.origin, h.data, h.references, h.head⟩
    · intro b hb
      obtain ⟨k, hk, rfl⟩ := List.mem_map.1 hb
      exact (hclean k hk).record

end Program

/-! ## Known names -/

theorem Lexeme.kind_of_isName {word : Lexeme} (h : word.isName = true) :
    word.kind = .identifier := by
  rw [isName, Bool.and_eq_true, beq_iff_eq] at h
  exact h.1

section Names

variable [Folding] {symbols : Symbols} {words : List Lexeme} {word : Lexeme}

/-- A name in the place of a number is that of a constant. -/
theorem Lexeme.contains_of_isNumber {constants : Constants} (h : word.isNumber constants = true)
    (hname : word.isName = true) : constants.contains word.text = true := by
  rw [isNumber, isNumeral_of_isName hname, hname, Bool.false_or, Bool.true_and] at h
  exact h

/-- A name in an operand is that of a constant or of a label. -/
theorem Lexeme.known_of_operand? {t : Token} (h : word.operand? symbols = some t)
    (hname : word.isName = true) :
    symbols.constants.contains word.text = true ∨ symbols.labels.contains word.text = true := by
  have hreads : word.Reads ⟨.identifier word.text, word.text, word.pos⟩ := ⟨⟨hname, rfl⟩, rfl, rfl⟩
  have hinlines : Inlines symbols.constants word _ := ⟨_, hreads, rfl⟩
  have hkind := hinlines.kind_of_isName hname
  cases hfind : symbols.constants.find? word.text with
  | some value => exact .inl (by rw [SymbolTable.contains, hfind]; rfl)
  | none =>
    rw [hfind] at hkind
    exact .inr (((operand?_eq_some_iff hinlines).1 h).2 _ hkind)

theorem DataForm.contains_of_isName {constants : Constants} (h : DataForm constants words) :
    ∀ word ∈ words, word.isName = true → constants.contains word.text = true := by
  have helements : ∀ {element : Lexeme}, element.isElement constants = true →
      element.isName = true → constants.contains element.text = true := by
    intro element helement hname
    rw [Lexeme.isElement, Lexeme.kind_of_isName hname] at helement
    exact Lexeme.contains_of_isNumber helement hname
  induction h with
  | last helement =>
    intro word hword hname
    cases List.mem_singleton.1 hword
    exact helements helement hname
  | more helement hcomma _ ih =>
    intro word hword hname
    rcases List.mem_cons.1 hword with rfl | hword
    · exact helements helement hname
    · rcases List.mem_cons.1 hword with rfl | hword
      · cases hcomma.symm.trans (Lexeme.kind_of_isName hname)
      · exact ih word hword hname

/-- The names in a statement are known. -/
theorem StatementForm.namesKnown (h : StatementForm symbols words) : NamesKnown symbols words := by
  intro word hword hname
  have hkind := Lexeme.kind_of_isName hname
  cases h with
  | origin hmark hsign hnumber =>
    simp only [List.mem_cons, List.not_mem_nil, or_false] at hword
    rcases hword with rfl | rfl | rfl
    · cases hmark.symm.trans hkind
    · cases hsign.symm.trans hkind
    · exact .inl (Lexeme.contains_of_isNumber hnumber hname)
  | data hdirective helements =>
    rcases List.mem_cons.1 hword with rfl | hword
    · simp [Lexeme.dataLimit?, Lexeme.asDirective?, hkind] at hdirective
    · exact .inl (helements.contains_of_isName word hword hname)
  | @operation opcode operands tokens m choice hopcode hoperands hchoice =>
    rcases List.mem_cons.1 hword with rfl | hword
    · -- A mnemonic is no name.
      have hspells : word.Spells (.identifier word.text) := ⟨hname, rfl⟩
      have hopcode : word.Spells (.opcode m) := hopcode
      cases hspells.unique hopcode
    · obtain ⟨t, -, ht⟩ := exists_of_mem_left hoperands hword
      exact Lexeme.known_of_operand? ht hname

/-- The names in a row that is no definition are known. -/
theorem RowForm.namesKnown {row : List Lexeme} (h : RowForm symbols row)
    (hdefinition : startsDefinition row = false) : NamesKnown symbols row := by
  cases h with
  | definition hdirective hname hnumeral => simp [startsDefinition, hdirective] at hdefinition
  | declaration hlabel =>
    intro word hword hname
    cases List.mem_singleton.1 hword
    cases hlabel.symm.trans (Lexeme.kind_of_isName hname)
  | statement hwords => exact hwords.namesKnown
  | labelled hlabel hwords =>
    intro word hword hname
    rcases List.mem_cons.1 hword with rfl | hword
    · cases hlabel.symm.trans (Lexeme.kind_of_isName hname)
    · exact hwords.namesKnown word hword hname

/-- The only name in a definition is the one that it defines. -/
theorem namesKnown_of_definition? {rows : List (List Lexeme)} {row : List Lexeme}
    (hrow : row ∈ rows) {entry : String × UInt16} (hentry : definition? row = some entry) :
    NamesKnown (symbolsOf rows) row := by
  obtain ⟨directive, name, numeral, rfl, hdirective, hname, hnumeral, -, hkey⟩ :=
    definition?_eq_some_iff.1 hentry
  intro word hword hisName
  simp only [List.mem_cons, List.not_mem_nil, or_false] at hword
  rcases hword with rfl | rfl | rfl
  · simp [Lexeme.asDirective?, Lexeme.kind_of_isName hisName] at hdirective
  · refine .inl (SymbolTable.contains_iff.2 ?_)
    rw [hkey]
    exact List.mem_map_of_mem (List.mem_filterMap.2 ⟨_, hrow, hentry⟩)
  · rw [Lexeme.isNumeral_of_isName hisName] at hnumeral
    cases hnumeral

end Names

/-! ## Accepted programs -/

section Accepted

open Program

variable [Folding] {rows : List (List Lexeme)} {lines : List Line} {symbols : Symbols}

/-- The symbols of an accepted program are those of its rows. -/
theorem symbols_eq_of_accepted (h : List.Forall₂ RowReads rows lines)
    (haccepted : Accepted lines symbols) : symbols = symbolsOf rows := by
  -- Both tables are the entries of the rows, collected without a fault.
  have hconstants := Constants.collects.entries_collect h (by rw [haccepted.constants])
  have hlabels := (Labels.collects symbols.constants).entries_collect h (by rw [haccepted.labels])
  rw [haccepted.constants] at hconstants
  rw [haccepted.labels] at hlabels
  obtain ⟨⟨constants⟩, ⟨labels⟩⟩ := symbols
  simp only [List.nil_append] at hconstants hlabels
  rw [symbolsOf, hconstants, hlabels, List.map_filterMap]

theorem labels_symbolsOf (rows : List (List Lexeme)) :
    (symbolsOf rows).labels =
      ⟨rows.filterMap fun row =>
        (declaration? row).map fun word => (SymbolTable.key word.text, word.pos.row)⟩ := by
  rw [symbolsOf, List.map_filterMap]

theorem dataFits_of_startsDefinition {constants : Constants} {row : List Lexeme}
    (h : startsDefinition row = true) : DataFits constants (statementWords row) := by
  intro directive elements limit hwords hlimit
  cases row with
  | nil => cases h
  | cons word rest =>
    have hdirective := beq_iff_eq.1 h
    have hkind : word.kind ≠ .declaration := by
      intro hkind
      simp [Lexeme.asDirective?, hkind] at hdirective
    rw [statementWords, if_neg hkind] at hwords
    obtain ⟨rfl, rfl⟩ := List.cons.inj hwords
    simp [Lexeme.dataLimit?, hdirective] at hlimit

/-- The steps find no fault in a row exactly if it has the right form and its numbers fit. -/
theorem RowReads.faultless_iff {row : List Lexeme} {l : Line} (h : RowReads row l)
    (hrow : row ≠ []) :
    (startsDefinition row = true → (definition? row).isSome = true) ∧
        (l.isDefinition = false → (symbols.constants.inline l).Clean symbols.labels) ↔
      RowForm symbols row ∧ NumeralsFit row ∧
        DataFits symbols.constants (statementWords row) := by
  have heq := h.isDefinition_eq
  cases hdefinition : startsDefinition row with
  | true =>
    rw [hdefinition] at heq
    have hdata : DataFits symbols.constants (statementWords row) :=
      dataFits_of_startsDefinition hdefinition
    -- Definitions are checked while the constants are collected, and by no later step.
    rw [isSome_definition?_iff symbols hdefinition, heq]
    constructor
    · rintro ⟨hform, -⟩
      exact ⟨(hform rfl).1, (hform rfl).2, hdata⟩
    · rintro ⟨hform, hnumerals, -⟩
      exact ⟨fun _ => ⟨hform, hnumerals⟩, nofun⟩
  | false =>
    rw [hdefinition] at heq
    -- All other rows are checked once the symbols are known.
    rw [h.clean_iff heq, rowForm_iff hrow hdefinition, heq]
    constructor
    · rintro ⟨-, hclean⟩
      obtain ⟨hnumerals, hnil | ⟨hform, hdata⟩⟩ := hclean rfl
      · refine ⟨.inl hnil, hnumerals, ?_⟩
        intro directive elements limit hwords
        cases hnil.symm.trans hwords
      · exact ⟨.inr hform, hnumerals, hdata⟩
    · rintro ⟨hnil | hform, hnumerals, hdata⟩
      · exact ⟨nofun, fun _ => ⟨hnumerals, .inl hnil⟩⟩
      · exact ⟨nofun, fun _ => ⟨hnumerals, .inr ⟨hform, hdata⟩⟩⟩

/-- A program of the source language is accepted with the symbols of its rows, and no other is. -/
theorem accepted_iff_wellFormed (h : List.Forall₂ RowReads rows lines)
    (hrows : ∀ row ∈ rows, row ≠ []) :
    Accepted lines (symbolsOf rows) ↔ WellFormed rows := by
  have hconstants := Constants.collects.collect_eq_iff h
  have hlabels := (Labels.collects (symbolsOf rows).constants).collect_eq_iff h
  rw [← labels_symbolsOf] at hlabels
  constructor
  · intro haccepted
    obtain ⟨hdefinitions, hconstants_distinct⟩ := hconstants.1 haccepted.constants
    obtain ⟨hreserved, hlabels_distinct⟩ := hlabels.1 haccepted.labels
    have hfaultless : ∀ row ∈ rows, RowForm (symbolsOf rows) row ∧ NumeralsFit row ∧
        DataFits (symbolsOf rows).constants (statementWords row) := by
      intro row hrow
      obtain ⟨l, hl, hreads⟩ := exists_of_mem_left h hrow
      exact (hreads.faultless_iff (hrows row hrow)).1 ⟨hdefinitions row hrow, haccepted.clean l hl⟩
    refine ⟨fun row hrow => (hfaultless row hrow).1, hconstants_distinct, hlabels_distinct, ?_, ?_,
      fun row hrow => (hfaultless row hrow).2.1, fun row hrow => (hfaultless row hrow).2.2⟩
    · intro word hword
      obtain ⟨row, hrow, hdeclaration⟩ := List.mem_filterMap.1 hword
      exact hreserved row hrow word hdeclaration
    · -- The rule about names follows from the forms: no word of another kind is a name.
      intro row hrow
      cases hdefinition : startsDefinition row with
      | true =>
        obtain ⟨entry, hentry⟩ := Option.isSome_iff_exists.1 (hdefinitions row hrow hdefinition)
        exact namesKnown_of_definition? hrow hentry
      | false => exact (hfaultless row hrow).1.namesKnown hdefinition
  · intro hwell
    have hfaultless : ∀ {row l}, row ∈ rows → RowReads row l →
        (startsDefinition row = true → (definition? row).isSome = true) ∧
          (l.isDefinition = false →
            ((symbolsOf rows).constants.inline l).Clean (symbolsOf rows).labels) := by
      intro row l hrow hreads
      exact (hreads.faultless_iff (hrows row hrow)).2
        ⟨hwell.forms row hrow, hwell.numerals_fit row hrow, hwell.data_fits row hrow⟩
    refine ⟨hconstants.2 ⟨?_, hwell.constants_distinct⟩, hlabels.2 ⟨?_, hwell.labels_distinct⟩, ?_⟩
    · intro row hrow
      obtain ⟨l, -, hreads⟩ := exists_of_mem_left h hrow
      exact (hfaultless hrow hreads).1
    · intro row hrow word hword
      exact hwell.labels_unreserved word (List.mem_filterMap.2 ⟨row, hrow, hword⟩)
    · intro l hl
      obtain ⟨row, hrow, hreads⟩ := exists_of_mem_left h.flip hl
      exact (hfaultless hrow hreads).2

end Accepted

/-! ## Readable words -/

theorem Lexeme.Spells.isSome_token? {word : Lexeme} {kind : TokenKind} (h : word.Spells kind) :
    word.token?.isSome = true := by
  have hreads : word.Reads ⟨kind, word.text, word.pos⟩ := ⟨h, rfl, rfl⟩
  rw [token?_eq_some_iff_reads.2 hreads]
  rfl

section Readable

variable [Folding] {symbols : Symbols} {words : List Lexeme} {word : Lexeme}

theorem Lexeme.isSome_token?_of_isNumber {constants : Constants}
    (h : word.isNumber constants = true) : word.token?.isSome = true := by
  rw [isNumber, Bool.or_eq_true, Bool.and_eq_true] at h
  rcases h with hnumeral | ⟨hname, -⟩
  · have hspells : word.Spells (.number _) := ⟨hnumeral, rfl⟩
    exact hspells.isSome_token?
  · have hspells : word.Spells (.identifier _) := ⟨hname, rfl⟩
    exact hspells.isSome_token?

theorem DataForm.isSome_token? {constants : Constants} (h : DataForm constants words) :
    ∀ word ∈ words, word.token?.isSome = true := by
  have helements : ∀ {element : Lexeme}, element.isElement constants = true →
      element.token?.isSome = true := by
    intro element helement
    rw [Lexeme.isElement, Bool.or_eq_true, beq_iff_eq] at helement
    rcases helement with hstring | hnumber
    · have hspells : element.Spells (.string _) := ⟨hstring, rfl⟩
      exact hspells.isSome_token?
    · exact Lexeme.isSome_token?_of_isNumber hnumber
  induction h with
  | last helement =>
    rw [List.forall_mem_singleton]
    exact helements helement
  | @more element comma rest helement hcomma _ ih =>
    have hspells : comma.Spells .comma := hcomma
    rw [List.forall_mem_cons, List.forall_mem_cons]
    exact ⟨helements helement, hspells.isSome_token?, ih⟩

theorem StatementForm.isSome_token? (h : StatementForm symbols words) :
    ∀ word ∈ words, word.token?.isSome = true := by
  cases h with
  | @origin mark sign number hmark hsign hnumber =>
    have hstar : mark.Spells (.directive .origin) := Lexeme.asDirective?_eq_origin_iff.2 hmark
    have hequal : sign.Spells .equal := hsign
    rw [List.forall_mem_cons, List.forall_mem_cons, List.forall_mem_singleton]
    exact ⟨hstar.isSome_token?, hequal.isSome_token?, Lexeme.isSome_token?_of_isNumber hnumber⟩
  | @data directive elements limit hdirective helements =>
    obtain ⟨d, hd⟩ : ∃ d, directive.asDirective? = some d := by
      rw [Lexeme.dataLimit?] at hdirective
      split at hdirective
      case h_1 hbytes => exact ⟨_, hbytes⟩
      case h_2 hwords => exact ⟨_, hwords⟩
      case h_3 => cases hdirective
    have hspells : directive.Spells (.directive d) := hd
    rw [List.forall_mem_cons]
    exact ⟨hspells.isSome_token?, helements.isSome_token?⟩
  | @operation opcode operands tokens m choice hopcode hoperands hchoice =>
    have hspells : opcode.Spells (.opcode m) := hopcode
    rw [List.forall_mem_cons]
    refine ⟨hspells.isSome_token?, ?_⟩
    intro word hword
    obtain ⟨t, -, ht⟩ := exists_of_mem_left hoperands hword
    obtain ⟨raw, hraw, -⟩ := Option.bind_eq_some_iff.1 ht
    rw [hraw]
    rfl

/-- Every word of a row of the right form can be read. -/
theorem RowForm.isSome_token? {row : List Lexeme} (h : RowForm symbols row) :
    ∀ word ∈ row, word.token?.isSome = true := by
  cases h with
  | @definition directive name numeral hdirective hname hnumeral =>
    have hdefine : directive.Spells (.directive .define) := hdirective
    have hidentifier : name.Spells (.identifier _) := ⟨hname, rfl⟩
    have hnumber : numeral.Spells (.number _) := ⟨hnumeral, rfl⟩
    rw [List.forall_mem_cons, List.forall_mem_cons, List.forall_mem_singleton]
    exact ⟨hdefine.isSome_token?, hidentifier.isSome_token?, hnumber.isSome_token?⟩
  | @declaration label hlabel =>
    have hspells : label.Spells (.declaration _) := ⟨hlabel, rfl⟩
    rw [List.forall_mem_singleton]
    exact hspells.isSome_token?
  | statement hwords => exact hwords.isSome_token?
  | @labelled label words hlabel hwords =>
    have hspells : label.Spells (.declaration _) := ⟨hlabel, rfl⟩
    rw [List.forall_mem_cons]
    exact ⟨hspells.isSome_token?, hwords.isSome_token?⟩

end Readable

theorem Source.ne_nil_of_mem_words {s : Source} {row : List Lexeme} (h : row ∈ s.words) :
    row ≠ [] := by
  rintro rfl
  simp [words] at h

theorem Source.lexemes_eq {s : Source} {lexemes : List Lexeme} (h : s.lexemes = .ok lexemes) :
    lexemes = Lexeme.ofSource s := by
  simp only [Source.lexemes] at h
  split at h
  · exact (Except.ok.inj h).symm
  · cases h

/-- The programs for which records are made are those of the source language. -/
theorem exists_records_iff_wellFormed [Folding] (s : Source) {lexemes : List Lexeme}
    (h : s.lexemes = .ok lexemes) :
    (∃ records, (Program.resolve {} lexemes).outcome = .ok records) ↔ WellFormed s.words := by
  obtain rfl := Source.lexemes_eq h
  constructor
  · rintro ⟨records, hrecords⟩
    obtain ⟨hreading, haccepted, -⟩ := Program.outcome_eq_ok_iff.1 hrecords
    have hlines := forall₂_lines hreading
    rw [symbols_eq_of_accepted hlines haccepted] at haccepted
    exact (accepted_iff_wellFormed hlines fun _ => Source.ne_nil_of_mem_words).1 haccepted
  · intro hwell
    -- Resolving stops at a row that cannot be read, but no row of the right form is one.
    have hreading := readingFaults_ofSource_eq_nil_iff.2 fun row hrow =>
      (hwell.forms row hrow).isSome_token?
    have haccepted := (accepted_iff_wellFormed (forall₂_lines hreading) fun _ =>
      Source.ne_nil_of_mem_words).2 hwell
    rw [← haccepted.symbols_eq] at haccepted
    exact ⟨_, Program.outcome_eq_ok_iff.2 ⟨hreading, haccepted, rfl⟩⟩

theorem exists_eq_ok_of_isOk {ε α : Type} {result : Except ε α} (h : result.isOk = true) :
    ∃ a, result = .ok a := by
  cases result with
  | ok a => exact ⟨a, rfl⟩
  | error e => cases h

/-- A constant, a label, data and a jump back to the label, in letters of either case. -/
def labelledMessage : Source where
  name := "message.s"
  rows := [".define Size $10", "Start: lda #SIZE", ".Byte \"ab\", size", "JMP START"]

/-- A jump to a label that is declared nowhere. -/
def strayJump : Source where
  name := "stray.s"
  rows := ["start: JMP stop"]

theorem wellFormed_labelledMessage_not_strayJump :
    labelledMessage.lexemes = .ok (Lexeme.ofSource labelledMessage) ∧
      WellFormed labelledMessage.words ∧
      strayJump.lexemes = .ok (Lexeme.ofSource strayJump) ∧ ¬ WellFormed strayJump.words := by
  have hmessage : labelledMessage.lexemes = .ok (Lexeme.ofSource labelledMessage) := by
    decide +kernel
  have hstray : strayJump.lexemes = .ok (Lexeme.ofSource strayJump) := by decide +kernel
  refine ⟨hmessage, (exists_records_iff_wellFormed _ hmessage).1 ?_, hstray, ?_⟩
  · have hok : (Program.resolve {} (Lexeme.ofSource labelledMessage)).outcome.isOk = true := by
      decide +kernel
    exact exists_eq_ok_of_isOk hok
  · rw [← exists_records_iff_wellFormed _ hstray]
    rintro ⟨records, hrecords⟩
    have hok : (Program.resolve {} (Lexeme.ofSource strayJump)).outcome.isOk = false := by
      decide +kernel
    rw [hrecords] at hok
    cases hok

end Assembler65
