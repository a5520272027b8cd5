import Assembler65.Proofs.StatementWords

/-!
# Rows without faults

A row that is no definition has no fault exactly if its numerals fit and its statement, if it has
one, has the right form and fitting data (`RowReads.clean_iff`). The lemmas about `RowForm` take
the forms of rows apart in the same way.
-/

set_option autoImplicit false

namespace Assembler65

variable {row words : List Lexeme}

/-! ## Forms of rows -/

theorem mem_of_mem_statementWords {word : Lexeme} (h : word ∈ statementWords row) : word ∈ row := by
  cases row with
  | nil => exact h
  | cons first rest =>
    rw [statementWords] at h
    split at h
    · exact List.mem_cons_of_mem first h
    · exact h

theorem startsDefinition_of_declaration {label : Lexeme} (h : label.kind = .declaration) :
    startsDefinition (label :: words) = false := by
  simp [startsDefinition, Lexeme.asDirective?, h]

variable [Folding] {symbols : Symbols}

/-- A statement starts with no label declaration. -/
theorem StatementForm.kind_ne_declaration {word : Lexeme} {rest : List Lexeme}
    (h : StatementForm symbols (word :: rest)) : word.kind ≠ .declaration := by
  intro hkind
  cases h with
  | origin hmark hsign hnumber => cases hmark.symm.trans hkind
  | data hdirective helements =>
    simp [Lexeme.dataLimit?, Lexeme.asDirective?, hkind] at hdirective
  | operation hopcode hoperands hchoice => simp [Lexeme.asMnemonic?, hkind] at hopcode

theorem StatementForm.statementWords_eq (h : StatementForm symbols words) :
    statementWords words = words := by
  cases words with
  | nil => rfl
  | cons word rest => exact if_neg h.kind_ne_declaration

/-- No statement is a definition. -/
theorem StatementForm.startsDefinition_eq_false (h : StatementForm symbols words) :
    startsDefinition words = false := by
  cases h with
  | origin hmark hsign hnumber => simp [startsDefinition, Lexeme.asDirective?, hmark]
  | @data directive elements limit hdirective helements =>
    apply beq_eq_false_iff_ne.2
    intro hdefine
    simp [Lexeme.dataLimit?, hdefine] at hdirective
  | @operation opcode operands tokens m choice hopcode hoperands hchoice =>
    apply beq_eq_false_iff_ne.2
    intro hdefine
    simp [Lexeme.asDirective?, Lexeme.kind_of_asMnemonic? hopcode] at hdefine

/-- A row that is no definition consists of a label declaration, a statement or both. -/
theorem rowForm_iff (hrow : row ≠ []) (hdefinition : startsDefinition row = false) :
    RowForm symbols row ↔
      statementWords row = [] ∨ StatementForm symbols (statementWords row) := by
  constructor
  · intro h
    cases h with
    | definition hdirective hname hnumeral =>
      simp [startsDefinition, hdirective] at hdefinition
    | declaration hlabel => exact .inl (if_pos hlabel)
    | statement hwords =>
      rw [hwords.statementWords_eq]
      exact .inr hwords
    | labelled hlabel hwords =>
      rw [statementWords, if_pos hlabel]
      exact .inr hwords
  · intro h
    cases row with
    | nil => exact absurd rfl hrow
    | cons word rest =>
      by_cases hkind : word.kind = .declaration
      · rw [statementWords, if_pos hkind] at h
        rcases h with rfl | h
        · exact .declaration hkind
        · exact .labelled hkind h
      · rw [statementWords, if_neg hkind] at h
        rcases h with h | h
        · cases h
        · exact .statement h

/-- A row that starts as a definition defines a constant exactly if it has the form of one and its
numeral fits. -/
theorem isSome_definition?_iff (symbols : Symbols) (hdefinition : startsDefinition row = true) :
    (definition? row).isSome = true ↔ RowForm symbols row ∧ NumeralsFit row := by
  rw [Option.isSome_iff_exists]
  constructor
  · rintro ⟨⟨key, value⟩, hentry⟩
    obtain ⟨directive, name, numeral, rfl, hdirective, hname, hnumeral, hvalue, -⟩ :=
      definition?_eq_some_iff.1 hentry
    refine ⟨.definition hdirective hname hnumeral, ?_⟩
    intro word hword
    rw [Lexeme.numeralFits_iff]
    intro hisNumeral
    simp only [List.mem_cons, List.not_mem_nil, or_false] at hword
    rcases hword with rfl | rfl | rfl
    · rw [Lexeme.isNumeral_of_asDirective? hdirective] at hisNumeral
      cases hisNumeral
    · rw [Lexeme.isNumeral_of_isName hname] at hisNumeral
      cases hisNumeral
    · exact ⟨value.toNat, hvalue, Nat.le_of_lt_succ value.toNat_lt⟩
  · rintro ⟨hform, hfits⟩
    cases hform with
    -- No other form of a row starts with the directive of a definition.
    | @definition directive name numeral hdirective hname hnumeral =>
      obtain ⟨n, hvalue, hn⟩ := Lexeme.numeralFits_iff.1 (hfits numeral (by simp)) hnumeral
      refine ⟨(SymbolTable.key name.text, UInt16.ofNat n), definition?_eq_some_iff.2 ?_⟩
      refine ⟨directive, name, numeral, rfl, hdirective, hname, hnumeral, ?_, rfl⟩
      rw [hvalue, Numeral.word?_eq_some_iff.1 (if_pos hn)]
    | declaration hlabel =>
      rw [startsDefinition_of_declaration hlabel] at hdefinition
      cases hdefinition
    | statement hwords =>
      rw [hwords.startsDefinition_eq_false] at hdefinition
      cases hdefinition
    | labelled hlabel hwords =>
      rw [startsDefinition_of_declaration hlabel] at hdefinition
      cases hdefinition

/-! ## Ranges -/

theorem Inlines.numberFits_iff {constants : Constants} {word : Lexeme} {t : Token}
    (h : Inlines constants word t) :
    (∀ n, t.kind = .number n → n ≤ Numeral.wordLimit) ↔ word.NumeralFits := by
  constructor
  · intro hfits
    rw [Lexeme.numeralFits_iff]
    intro hnumeral
    have hspells : word.Spells (.number ((Numeral.parse? word.text).getD hugeNumber)) :=
      ⟨hnumeral, rfl⟩
    have hn := hfits _ (h.kind_eq hspells rfl)
    exact ⟨_, (Numeral.getD_parse?_eq_iff hn).1 rfl, hn⟩
  · intro hfits n hkind
    -- The number may also be that of a constant, which fits whatever the numerals do.
    obtain ⟨m, hm, hle⟩ := Lexeme.exists_number? (h.isNumber hkind) hfits
    cases hkind.symm.trans (h.kind_of_number? hm hle)
    exact hle

theorem numbersFit_iff {constants : Constants} {tokens : List Token}
    (h : List.Forall₂ (Inlines constants) words tokens) :
    NumbersFit tokens ↔ NumeralsFit words := by
  induction h with
  | nil => simp [NumbersFit, NumeralsFit]
  | @cons word t words tokens hhead _ ih =>
    rw [NumbersFit, NumeralsFit] at ih ⊢
    rw [List.forall_mem_cons, List.forall_mem_cons, hhead.numberFits_iff, ih]

/-- What stands behind a data directive is within its limit. -/
theorem StatementItem.dataFits {item : Item} (h : StatementItem symbols words item) :
    DataFits symbols.constants words := by
  rintro directive elements limit rfl hlimit element helement n hn
  have hmem : n ∈ elements.flatMap (Lexeme.dataValues symbols.constants) :=
    List.mem_flatMap.2 ⟨element, helement, hn⟩
  cases h with
  | origin hmark hsign hnumber => simp [Lexeme.dataLimit?, Lexeme.asDirective?, hmark] at hlimit
  | bytes hdirective hform hvalues =>
    rw [Lexeme.dataLimit?, hdirective, Option.some.injEq] at hlimit
    rw [hvalues] at hmem
    obtain ⟨value, -, rfl⟩ := List.mem_map.1 hmem
    rw [← hlimit]
    exact Nat.le_of_lt_succ value.toNat_lt
  | words hdirective hform hvalues =>
    rw [Lexeme.dataLimit?, hdirective, Option.some.injEq] at hlimit
    rw [hvalues] at hmem
    obtain ⟨value, -, rfl⟩ := List.mem_map.1 hmem
    rw [← hlimit]
    exact Nat.le_of_lt_succ value.toNat_lt
  | operation hopcode hoperands hchoice hcode hlabels =>
    simp [Lexeme.dataLimit?, Lexeme.asDirective?, Lexeme.kind_of_asMnemonic? hopcode] at hlimit

/-! ## Rows and their lines -/

theorem Constants.isDefinition_inline (constants : Constants) (l : Line) :
    (constants.inline l).isDefinition = l.isDefinition := by
  obtain ⟨number, tokens, finish⟩ := l
  cases tokens with
  | nil => rfl
  | cons t rest =>
    obtain ⟨kind, text, pos⟩ := t
    cases kind with
    | identifier name =>
      simp only [inline, inlineKind, Line.isDefinition, List.map_cons]
      cases constants.find? name with
      | some value => rfl
      | none => rfl
    | directive d => cases d <;> rfl
    | _ => rfl

namespace RowReads

variable {l : Line}

theorem forall₂_statement (h : RowReads row l) (constants : Constants) :
    List.Forall₂ (Inlines constants) (statementWords row) (constants.inline l).statement := by
  rcases cases_declaration (h.tokens_inline constants) with
    ⟨word, t, rest, -, htokens, -, hkind, -, hrest⟩ | ⟨-, hwords, hkinds⟩
  · rw [Line.statement_of_declaration htokens hkind]
    exact hrest
  · rw [hwords, Line.statement_of_no_declaration hkinds]
    exact h.tokens_inline constants

/-- The statement of a clean row stands for an item, which is that of its record. -/
theorem exists_statementItem (h : RowReads row l) (hdefinition : l.isDefinition = false)
    (hclean : (symbols.constants.inline l).Clean symbols.labels) {word : Lexeme}
    {rest : List Lexeme} (hwords : statementWords row = word :: rest) :
    ∃ item, StatementItem symbols (statementWords row) item ∧
      (symbols.labels.bind (symbols.constants.inline l)).statementRecord? =
        some (.ok ⟨word.pos, item⟩) := by
  have hinlines := h.forall₂_statement symbols.constants
  have hhead := hinlines
  rw [hwords] at hhead
  -- The first word of the statement gives the place of the record.
  obtain ⟨t, ts, ht, -, hstatement⟩ := List.forall₂_cons_left_iff.1 hhead
  obtain ⟨item, hitem⟩ := hclean.exists_statementTokens
    ((symbols.constants.isDefinition_inline l).trans hdefinition) hstatement
  refine ⟨item, statementItem_of_statementTokens hitem hinlines ?_, ?_⟩
  · intro t' ht'
    exact Line.rangeFaults_eq_nil_iff.1 hclean.range t' (List.mem_of_mem_drop ht')
  · rw [Line.statementRecord?_bind hstatement hitem, ht.pos]

/-- A row that is no definition is clean exactly if its numerals fit and it has no statement, or one
of the right form with fitting data. -/
theorem clean_iff (h : RowReads row l) (hdefinition : l.isDefinition = false) :
    (symbols.constants.inline l).Clean symbols.labels ↔
      NumeralsFit row ∧
        (statementWords row = [] ∨
          StatementForm symbols (statementWords row) ∧
            DataFits symbols.constants (statementWords row)) := by
  have hfits := numbersFit_iff (h.tokens_inline symbols.constants)
  have hinlines := h.forall₂_statement symbols.constants
  have hdefinition' := (symbols.constants.isDefinition_inline l).trans hdefinition
  constructor
  · intro hclean
    refine ⟨hfits.1 (Line.rangeFaults_eq_nil_iff.1 hclean.range), ?_⟩
    cases hwords : statementWords row with
    | nil => exact .inl rfl
    | cons word rest =>
      obtain ⟨item, hitem, -⟩ := h.exists_statementItem hdefinition hclean hwords
      rw [hwords] at hitem
      exact .inr ⟨hitem.statementForm, hitem.dataFits⟩
  · rintro ⟨hnumerals, hstatement⟩
    have hrange := Line.rangeFaults_eq_nil_iff.2 (hfits.2 hnumerals)
    rcases hstatement with hnil | ⟨hform, hdata⟩
    · -- A label declaration alone: all checks but the range of numbers look at the statement.
      rw [hnil] at hinlines
      exact Line.clean_of_statement_eq_nil hrange hdefinition'
        (List.forall₂_nil_left_iff.1 hinlines)
    · have hown : NumeralsFit (statementWords row) := fun word hword =>
        hnumerals word (mem_of_mem_statementWords hword)
      obtain ⟨item, hitem⟩ := hform.exists_statementTokens hinlines hown hdata
      exact Line.clean_of_statementTokens hrange hdefinition' hitem

end RowReads

end Assembler65
