import Assembler65.Proofs.Acceptance

/-!
# Faults with a place in the source

`Line.Flawed` lists what can be found wrong in a line before its record is made: something about one
of its tokens, at the place of the token, or an unwanted end, at the end of the line; `Line.Rejected`
lists what can be wrong with its operation. Each step of resolving reports such faults only. For a
whole run (`Program.reported_of_outcome`) every fault comes from a lexeme that cannot be read or from
a line at one of its stages. So whatever is found wrong before records are linked has a place in the
source (`Program.located_of_outcome`).
-/

set_option autoImplicit false

namespace Assembler65

/-- A fault at a place in the source. -/
def Fault.Located (f : Fault) : Prop := ∃ pos cause, f = .inSource pos cause

theorem Fault.located_inSource (pos : Position) (cause : Cause) :
    (Fault.inSource pos cause).Located :=
  ⟨pos, cause, rfl⟩

/-- What can be wrong about a token where values have a limit. -/
inductive Token.Blamed (limit : Nat) (t : Token) : Cause → Prop
  | unwanted (wanted : String) : Blamed limit t (.expected wanted t.kind.description)
  | lineStart : Blamed limit t (.invalidLineStart t.kind.description)
  | number {n : Nat} (hkind : t.kind = .number n) (hlimit : limit < n) :
      Blamed limit t (.constantOverflow t.text limit)
  | character {text : String} {c : Char} (hkind : t.kind = .string text) (hc : c ∈ text.toList)
      (hlimit : limit < c.toNat) :
      Blamed limit t (.constantOverflow (String.singleton c) limit)
  | constant {name : String} (hkind : t.kind = .identifier name) :
      Blamed limit t (.redefinedConstant name)
  | label {name : String} {firstRow : Nat} (hkind : t.kind = .declaration name) :
      Blamed limit t (.redefinedLabel name firstRow)
  | reserved {name : String} (hkind : t.kind = .declaration name) :
      Blamed limit t (.reservedLabel name)
  | reference {name : String} (hkind : t.kind = .reference name) :
      Blamed limit t (.undefinedLabel name)

/-- What can be wrong with some tokens of a line that finishes at a place. -/
inductive Reported (limit : Nat) (finish : Position) (tokens : List Token) : Fault → Prop
  | token {t : Token} {cause : Cause} (ht : t ∈ tokens) (hcause : t.Blamed limit cause) :
      Reported limit finish tokens (.inSource t.pos cause)
  | finish (wanted : String) :
      Reported limit finish tokens (.inSource finish (.expected wanted "NEW LINE"))

/-- Why a mnemonic does not take an operand. -/
inductive Mnemonic.Refuses (m : Mnemonic) : Cause → Prop
  | shape : Refuses m (.unexpectedMode m)
  | mode (mode : Mode) : Refuses m (.unavailableMode mode m)
  | target : Refuses m (.literalBranchTarget m)

/-- What can be wrong with a mnemonic at a place and the tokens behind it. -/
inductive Mnemonic.Rejects (m : Mnemonic) (pos : Position) (operands : List Token) : Fault → Prop
  | wide {t : Token} (ht : t ∈ operands) {n : Nat} (hkind : t.kind = .number n)
      (hlimit : Numeral.byteLimit < n) :
      Rejects m pos operands (.inSource t.pos (.constantOverflow t.text Numeral.byteLimit))
  | refused {cause : Cause} (hcause : m.Refuses cause) :
      Rejects m pos operands (.inSource pos cause)

namespace Line

/-- What can be wrong with a line before its record is made. All values have to fit into a word, and
those of a byte list into a byte. -/
inductive Flawed (l : Line) (f : Fault) : Prop
  | word (h : Reported Numeral.wordLimit l.finish l.tokens f)
  | byte {text : String} {pos : Position} {rest : List Token}
      (hstatement : l.statement = ⟨.directive .bytes, text, pos⟩ :: rest)
      (h : Reported Numeral.byteLimit l.finish l.tokens f)

/-- What can be wrong with the operation of a line. -/
inductive Rejected (l : Line) (f : Fault) : Prop
  | operation {m : Mnemonic} {text : String} {pos : Position} {operands : List Token}
      (hstatement : l.statement = ⟨.opcode m, text, pos⟩ :: operands)
      (h : m.Rejects pos operands f)

/-- What can be wrong with a line. -/
def Reports (l : Line) (f : Fault) : Prop := l.Flawed f ∨ l.Rejected f

end Line

namespace Reported

variable {limit : Nat} {finish : Position} {tokens : List Token} {f : Fault}

theorem mono {more : List Token} (h : Reported limit finish tokens f) (hsubset : tokens ⊆ more) :
    Reported limit finish more f := by
  cases h with
  | token ht hcause => exact .token (hsubset ht) hcause
  | finish wanted => exact .finish wanted

theorem located (h : Reported limit finish tokens f) : f.Located := by
  cases h with
  | token ht hcause => exact Fault.located_inSource _ _
  | finish wanted => exact Fault.located_inSource _ _

/-- What comes next is a token or the end of the line. -/
theorem expected (limit : Nat) (finish : Position) (rest : List Token) (wanted : String) :
    Reported limit finish rest (expectedFault finish rest wanted) := by
  cases rest with
  | nil => exact .finish wanted
  | cons t rest => exact .token List.mem_cons_self (.unwanted wanted)

end Reported

theorem Line.Reports.located {l : Line} {f : Fault} (h : l.Reports f) : f.Located := by
  rcases h with (hreported | ⟨-, hreported⟩) | ⟨-, hrejects⟩
  · exact hreported.located
  · exact hreported.located
  · cases hrejects with
    | wide => exact Fault.located_inSource _ _
    | refused => exact Fault.located_inSource _ _

/-! ## Reading -/

/-- A lexeme that cannot be read is an unknown directive, or no rule reads it. -/
theorem Lexeme.cases_of_contribution_eq_fault {l : Lexeme} {cause : Cause}
    (h : l.contribution = .fault cause) :
    (l.kind = .directive ∧ cause = .unknownDirective ("." ++ l.text)) ∨
      (l.kind = .unexpected ∧ cause = .unexpectedText l.text) := by
  cases hkind : l.kind with
  | directive =>
    simp only [contribution, hkind] at h
    cases hparse : Directive.parse? l.text with
    | some d => simp [hparse] at h
    | none =>
      rw [hparse] at h
      cases h
      exact .inl ⟨rfl, rfl⟩
  | unexpected =>
    simp only [contribution, hkind] at h
    cases h
    exact .inr ⟨rfl, rfl⟩
  | _ => simp [contribution, hkind] at h

theorem Source.lexemeFault?_eq_some_iff {l : Lexeme} {f : Fault} :
    lexemeFault? l = some f ↔
      l.kind = .unexpected ∧ f = .inSource l.pos (.unexpectedText l.text) := by
  rw [lexemeFault?, Option.ite_none_right_eq_some, beq_iff_eq, Option.some.injEq, eq_comm (a := f)]

theorem Source.exists_lexeme_of_lexemes {s : Source} {faults : List Fault}
    (h : s.lexemes = .error faults) :
    ∀ f ∈ faults, ∃ l ∈ Lexeme.ofSource s, ∃ cause,
      l.contribution = .fault cause ∧ f = .inSource l.pos cause := by
  simp only [lexemes] at h
  split at h
  case h_1 => cases h
  case h_2 =>
    cases h
    intro f hf
    obtain ⟨l, hl, hfault⟩ := List.mem_filterMap.1 hf
    obtain ⟨hkind, rfl⟩ := lexemeFault?_eq_some_iff.1 hfault
    refine ⟨l, hl, .unexpectedText l.text, ?_, rfl⟩
    rw [Lexeme.contribution, hkind]

theorem Source.located_of_lexemes {s : Source} {faults : List Fault}
    (h : s.lexemes = .error faults) : ∀ f ∈ faults, f.Located := by
  intro f hf
  obtain ⟨l, -, cause, -, rfl⟩ := exists_lexeme_of_lexemes h f hf
  exact Fault.located_inSource _ _

theorem exists_lexeme_of_readRow {finish : Position} {lexemes : List Lexeme} {f : Fault}
    (h : (readRow finish lexemes).fault = some f) :
    ∃ l ∈ lexemes, ∃ cause, l.contribution = .fault cause ∧ f = .inSource l.pos cause := by
  induction lexemes generalizing finish with
  | nil => cases h
  | cons l rest ih =>
    rw [readRow] at h
    -- All but a fault leave the rest of the row to be read.
    have hrest : ∀ {finish}, (readRow finish rest).fault = some f →
        ∃ m ∈ l :: rest, ∃ cause, m.contribution = .fault cause ∧ f = .inSource m.pos cause := by
      intro finish h
      obtain ⟨m, hm, hcause⟩ := ih h
      exact ⟨m, List.mem_cons_of_mem _ hm, hcause⟩
    cases hcontribution : l.contribution with
    | token kind => rw [hcontribution] at h; exact hrest h
    | finish => rw [hcontribution] at h; exact hrest h
    | nothing => rw [hcontribution] at h; exact hrest h
    | fault cause =>
      rw [hcontribution] at h
      exact ⟨l, List.mem_cons_self, cause, hcontribution, (Option.some.inj h).symm⟩

/-- The lexemes of a row are some of those that are grouped. -/
theorem Lexeme.mem_of_mem_rows {lexemes row : List Lexeme} (hrow : row ∈ rows lexemes)
    {l : Lexeme} (hl : l ∈ row) : l ∈ lexemes := by
  have hflatten : l ∈ (rows lexemes).flatten := List.mem_flatten.2 ⟨row, hrow, hl⟩
  rw [rows, List.flatten_splitBy] at hflatten
  exact List.mem_of_mem_filter hflatten

/-- A fault of reading is that of a lexeme. -/
theorem Line.exists_lexeme_of_mem_readingFaults {lexemes : List Lexeme} {f : Fault}
    (h : f ∈ readingFaults lexemes) :
    ∃ l ∈ lexemes, ∃ cause, l.contribution = .fault cause ∧ f = .inSource l.pos cause := by
  obtain ⟨row, hrow, hfault⟩ := List.mem_filterMap.1 h
  obtain ⟨l, hl, hcause⟩ := exists_lexeme_of_readRow hfault
  exact ⟨l, Lexeme.mem_of_mem_rows hrow hl, hcause⟩

/-! ## Symbols -/

namespace Line

variable (l : Line)

theorem flawed_expected (index : Nat) (wanted : String) : l.Flawed (l.expected index wanted) :=
  .word ((Reported.expected _ _ _ wanted).mono (List.drop_subset index l.tokens))

theorem flawed_definedValue : ∀ f ∈ l.definedValue.2, l.Flawed f := by
  intro f hf
  rw [definedValue] at hf
  split at hf
  case h_1 n text pos rest hdrop =>
    split at hf
    case h_1 => cases hf
    case h_2 hword =>
      cases List.mem_singleton.1 hf
      rw [Numeral.word?, ite_eq_right_iff] at hword
      have hlimit : Numeral.wordLimit < n :=
        Nat.not_le.1 fun hle => Option.some_ne_none _ (hword hle)
      have htoken : (⟨.number n, text, pos⟩ : Token) ∈ l.tokens :=
        List.drop_subset 2 l.tokens (hdrop ▸ List.mem_cons_self)
      exact .word (.token htoken (.number rfl hlimit))
  case h_2 =>
    cases List.mem_singleton.1 hf
    exact l.flawed_expected 2 "A NUMBER"

theorem flawed_definitionExcess : ∀ f ∈ l.definitionExcess, l.Flawed f := by
  intro f hf
  rw [definitionExcess] at hf
  split at hf
  case isTrue =>
    cases List.mem_singleton.1 hf
    exact l.flawed_expected 3 "NEW LINE"
  case isFalse => cases hf

end Line

theorem Constants.flawed_define (constants : Constants) (l : Line) :
    ∀ f ∈ Program.faultsOf (constants.define l).2, l.Flawed f := by
  have hown : ∀ f ∈ l.definedValue.2 ++ l.definitionExcess, l.Flawed f := by
    rw [List.forall_mem_append]
    exact ⟨l.flawed_definedValue, l.flawed_definitionExcess⟩
  rw [define]
  split
  case h_1 name text pos rest hdrop =>
    rcases hpair : l.definedValue with ⟨value, faults⟩
    rw [hpair] at hown
    simp only
    split
    case isTrue =>
      rw [Program.faultsOf_append, Program.faultsOf_map_faultFound, List.forall_mem_append]
      refine ⟨hown, List.forall_mem_singleton.2 ?_⟩
      have htoken : (⟨.identifier name, text, pos⟩ : Token) ∈ l.tokens :=
        List.drop_subset 1 l.tokens (hdrop ▸ List.mem_cons_self)
      exact .word (.token htoken (.constant rfl))
    case isFalse =>
      rw [Program.faultsOf_append, Program.faultsOf_map_faultFound, List.forall_mem_append]
      exact ⟨hown, List.forall_mem_nil _⟩
  case h_2 => exact List.forall_mem_singleton.2 (l.flawed_expected 1 "An IDENTIFIER")

theorem Labels.flawed_declare (labels : Labels) (l : Line) :
    ∀ f ∈ (labels.declare l).2, l.Flawed f := by
  rw [declare]
  split
  case h_1 name text pos rest htokens =>
    have htoken : (⟨.declaration name, text, pos⟩ : Token) ∈ l.tokens :=
      htokens ▸ List.mem_cons_self
    split
    case isTrue => exact List.forall_mem_singleton.2 (.word (.token htoken (.reserved rfl)))
    case isFalse =>
      split
      case h_1 => exact List.forall_mem_singleton.2 (.word (.token htoken (.label rfl)))
      case h_2 => exact List.forall_mem_nil _
  case h_2 => exact List.forall_mem_nil _

/-- A fault of collecting symbols is found in one of the lines. -/
theorem exists_line_of_mem_collect {α : Type}
    {step : SymbolTable α → Line → SymbolTable α × List Fault} {table : SymbolTable α}
    {lines : List Line} {f : Fault} (h : f ∈ (collect step table lines).2) :
    ∃ l ∈ lines, ∃ before, f ∈ (step before l).2 := by
  induction lines generalizing table with
  | nil => cases h
  | cons l rest ih =>
    rw [collect_cons] at h
    rcases List.mem_append.1 h with hfirst | hrest
    · exact ⟨l, List.mem_cons_self, table, hfirst⟩
    · obtain ⟨m, hm, before, hf⟩ := ih hrest
      exact ⟨m, List.mem_cons_of_mem _ hm, before, hf⟩

/-! ## Lines -/

theorem reported_originOperand (limit : Nat) (finish : Position) (tokens : List Token) :
    ∀ f ∈ (originOperand finish tokens).2, Reported limit finish tokens f := by
  unfold originOperand
  split
  case h_1 =>
    simp only
    split
    case isTrue => exact List.forall_mem_nil _
    case isFalse =>
      refine List.forall_mem_singleton.2 ((Reported.expected _ _ _ _).mono ?_)
      exact List.subset_cons_of_subset _ (List.subset_cons_self _ _)
  case h_2 =>
    exact List.forall_mem_singleton.2 ((Reported.expected _ _ _ _).mono (List.subset_cons_self _ _))
  case h_3 => exact List.forall_mem_singleton.2 (Reported.expected _ _ _ _)

theorem Token.blamed_dataFaults (limit : Nat) (t : Token) :
    ∀ f ∈ t.dataFaults limit, ∃ cause, t.Blamed limit cause ∧ f = .inSource t.pos cause := by
  intro f hf
  rw [dataFaults] at hf
  split at hf
  case h_1 n hkind =>
    split at hf
    case isTrue hwide =>
      cases List.mem_singleton.1 hf
      have hlimit : limit < n ∧ n ≤ Numeral.wordLimit := by simpa using hwide
      exact ⟨_, .number hkind hlimit.1, rfl⟩
    case isFalse => cases hf
  case h_2 text hkind =>
    obtain ⟨c, hc, rfl⟩ := List.mem_map.1 hf
    obtain ⟨hc, hlimit⟩ := List.mem_filter.1 hc
    exact ⟨_, .character hkind hc (of_decide_eq_true hlimit), rfl⟩
  case h_3 => cases hf

theorem reported_dataFaults (limit : Nat) (finish : Position) (t : Token) (rest : List Token) :
    ∀ f ∈ t.dataFaults limit, Reported limit finish (t :: rest) f := by
  intro f hf
  obtain ⟨cause, hcause, rfl⟩ := t.blamed_dataFaults limit f hf
  exact .token List.mem_cons_self hcause

theorem reported_dataList (limit : Nat) (finish : Position) (tokens : List Token) :
    ∀ f ∈ (dataList limit finish tokens).2, Reported limit finish tokens f := by
  fun_induction dataList limit finish tokens with
  | case1 => exact List.forall_mem_singleton.2 (Reported.expected _ _ _ _)
  | case2 t rest hvalues => exact List.forall_mem_singleton.2 (Reported.expected _ _ _ _)
  | case3 t own hown => exact reported_dataFaults limit finish t []
  | case4 t own hown _ _ text pos rest others more hrest ih =>
    -- What is found behind a comma is found among later tokens.
    rw [hrest] at ih
    rw [List.forall_mem_append]
    refine ⟨reported_dataFaults limit finish t _, ?_⟩
    intro f hf
    exact (ih f hf).mono (List.subset_cons_of_subset _ (List.subset_cons_self _ _))
  | case5 t own hown =>
    rw [List.forall_mem_append]
    refine ⟨reported_dataFaults limit finish t _, List.forall_mem_singleton.2 ?_⟩
    exact (Reported.expected _ _ _ _).mono (List.subset_cons_self _ _)

namespace Line

/-- The tokens behind the first one of a statement are tokens of the line. -/
theorem subset_tokens_of_statement {l : Line} {t : Token} {rest : List Token}
    (h : l.statement = t :: rest) : t :: rest ⊆ l.tokens := by
  rw [← h]
  exact List.drop_subset _ _

variable (l : Line)

theorem flawed_gatherOrigin : ∀ f ∈ l.gatherOrigin.2, l.Flawed f := by
  rw [gatherOrigin]
  split
  case h_1 hstatement =>
    intro f hf
    refine .word ((reported_originOperand _ _ _ f hf).mono ?_)
    exact List.Subset.trans (List.subset_cons_self _ _) (subset_tokens_of_statement hstatement)
  case h_2 => exact List.forall_mem_nil _

theorem flawed_gatherData : ∀ f ∈ l.gatherData.2, l.Flawed f := by
  rw [gatherData]
  split
  case h_1 hstatement =>
    intro f hf
    refine .byte hstatement ((reported_dataList _ _ _ f hf).mono ?_)
    exact List.Subset.trans (List.subset_cons_self _ _) (subset_tokens_of_statement hstatement)
  case h_2 hstatement =>
    intro f hf
    refine .word ((reported_dataList _ _ _ f hf).mono ?_)
    exact List.Subset.trans (List.subset_cons_self _ _) (subset_tokens_of_statement hstatement)
  case h_3 => exact List.forall_mem_nil _

theorem flawed_rangeFaults : ∀ f ∈ l.rangeFaults, l.Flawed f := by
  intro f hf
  obtain ⟨t, htoken, hfault⟩ := List.mem_filterMap.1 hf
  split at hfault
  case h_1 n hkind =>
    rw [Option.ite_none_right_eq_some] at hfault
    cases hfault.2
    exact .word (.token htoken (.number hkind hfault.1))
  case h_2 => cases hfault

theorem flawed_referenceFaults (labels : Labels) :
    ∀ f ∈ l.referenceFaults labels, l.Flawed f := by
  intro f hf
  rw [referenceFaults] at hf
  split at hf
  case isTrue => cases hf
  case isFalse =>
    obtain ⟨t, htoken, hfault⟩ := List.mem_filterMap.1 hf
    split at hfault
    case h_1 name hkind =>
      rw [Option.ite_none_left_eq_some] at hfault
      cases hfault.2
      exact .word (.token htoken (.reference hkind))
    case h_2 => cases hfault

theorem flawed_headFaults : ∀ f ∈ l.headFaults, l.Flawed f := by
  have hexpected : ∀ f ∈ [l.expected 1 "An OPCODE or DIRECTIVE"], l.Flawed f :=
    List.forall_mem_singleton.2 (l.flawed_expected 1 "An OPCODE or DIRECTIVE")
  rw [headFaults]
  split
  case h_1 => exact List.forall_mem_nil _
  case h_2 t rest htokens =>
    split
    case h_1 =>
      split
      case h_1 => exact List.forall_mem_nil _
      case h_2 => exact List.forall_mem_nil _
      case h_3 =>
        split
        case isTrue => exact hexpected
        case isFalse => exact List.forall_mem_nil _
      case h_4 => exact hexpected
    case h_2 => exact List.forall_mem_nil _
    case h_3 => exact List.forall_mem_nil _
    case h_4 =>
      have htoken : t ∈ l.tokens := htokens ▸ List.mem_cons_self
      exact List.forall_mem_singleton.2 (.word (.token htoken .lineStart))

end Line

/-! ## Records -/

section Operations

variable {m : Mnemonic} {cause : Cause}

theorem refuses_of_candidates {shape : OperandShape} (h : candidates m shape = .error cause) :
    m.Refuses cause := by
  unfold candidates at h
  repeat' split at h
  -- What is left is a branch to a number, or a shape that no mode has.
  all_goals cases h
  all_goals first | exact .target | exact .shape

theorem refuses_of_firstSupported {options : List Candidate}
    (h : firstSupported m options = .error cause) : m.Refuses cause := by
  unfold firstSupported at h
  split at h
  case h_1 => cases h
  case h_2 =>
    split at h
    case h_1 => cases h; exact .shape
    case h_2 => cases h; exact .mode _

theorem rejects_of_wideImmediate? (m : Mnemonic) (pos : Position) {tokens : List Token} {f : Fault}
    (h : wideImmediate? tokens = some f) : m.Rejects pos tokens f := by
  unfold wideImmediate? at h
  split at h
  case h_1 =>
    rw [Option.ite_none_right_eq_some] at h
    cases h.2
    exact .wide (List.mem_cons_of_mem _ List.mem_cons_self) rfl h.1
  case h_2 => cases h

/-- The fault of an operation is that of its mnemonic, or of an immediate number. -/
theorem rejects_of_chooseMode {pos : Position} {tokens : List Token} {f : Fault}
    (h : chooseMode m pos tokens = .error f) : m.Rejects pos tokens f := by
  rw [chooseMode] at h
  split at h
  case h_1 fault hwide =>
    cases h
    exact rejects_of_wideImmediate? m pos hwide
  case h_2 =>
    split at h
    case h_1 =>
      cases h
      exact .refused .shape
    case h_2 shape _ =>
      cases hcandidates : candidates m shape with
      | error cause =>
        rw [hcandidates] at h
        cases h
        exact .refused (refuses_of_candidates hcandidates)
      | ok options =>
        cases hfirst : firstSupported m options with
        | error cause =>
          simp only [hcandidates, Except.bind, hfirst, Except.mapError] at h
          cases h
          exact .refused (refuses_of_firstSupported hfirst)
        | ok choice =>
          simp only [hcandidates, Except.bind, hfirst, Except.mapError] at h
          cases h

end Operations

theorem Line.rejected_of_statementRecord? {l : Line} {f : Fault}
    (h : l.statementRecord? = some (.error f)) : l.Rejected f := by
  unfold statementRecord? at h
  split at h
  case h_1 => cases h
  case h_2 m text pos operands hstatement =>
    rw [operationItem] at h
    cases hchoice : chooseMode m pos operands with
    | error fault =>
      rw [hchoice] at h
      cases h
      exact .operation hstatement (rejects_of_chooseMode hchoice)
    | ok choice =>
      -- A mode that is chosen has an opcode, so that nothing else can fail.
      obtain ⟨mode, operand⟩ := choice
      obtain ⟨code, hcode⟩ := exists_encode_of_chooseMode hchoice
      simp [hchoice, hcode, bind, Except.bind, Except.map] at h
  case h_3 =>
    obtain ⟨item, -, hitem⟩ := Option.map_eq_some_iff.1 h
    cases hitem

theorem Line.rejected_of_mem_recordRemarks {l : Line} {f : Fault}
    (h : f ∈ Program.faultsOf l.recordRemarks) : l.Rejected f := by
  rw [recordRemarks] at h
  cases hrecord : l.statementRecord? with
  | none => simp [hrecord, Program.faultsOf] at h
  | some result =>
    cases result with
    | ok record => simp [hrecord, Program.faultsOf, Remark.fault?] at h
    | error fault =>
      rw [hrecord] at h
      cases List.mem_singleton.1 h
      exact rejected_of_statementRecord? hrecord

/-! ## Programs -/

/-- A line at the stages of resolving: as it was read, with constants replaced, and with labels
replaced as well. -/
inductive Line.Becomes (symbols : Symbols) (l : Line) : Line → Prop
  | read : Becomes symbols l l
  | inlined : Becomes symbols l (symbols.constants.inline l)
  | bound : Becomes symbols l (symbols.labels.bind (symbols.constants.inline l))

namespace Program

/-- The faults of the lines, but for those of their labels, are found in some of the lines. -/
theorem exists_line_of_mem_lineFaults {lines : List Line} {labels : Labels}
    {labelFaults : List Fault} {f : Fault} (h : f ∈ lineFaults lines labels labelFaults) :
    f ∈ labelFaults ∨ ∃ l ∈ lines, l.Flawed f := by
  have hlines : ∀ {faultsOf : Line → List Fault}, (∀ l, ∀ f ∈ faultsOf l, l.Flawed f) →
      f ∈ lines.flatMap faultsOf → f ∈ labelFaults ∨ ∃ l ∈ lines, l.Flawed f := by
    intro faultsOf hfaults hf
    obtain ⟨l, hl, hf⟩ := List.mem_flatMap.1 hf
    exact .inr ⟨l, hl, hfaults l f hf⟩
  simp only [lineFaults, List.mem_append] at h
  rcases h with ((((h | h) | h) | h) | h) | h
  · exact hlines Line.flawed_rangeFaults h
  · exact hlines Line.flawed_gatherOrigin h
  · exact hlines Line.flawed_gatherData h
  · exact .inl h
  · exact hlines (fun l => l.flawed_referenceFaults labels) h
  · exact hlines Line.flawed_headFaults h

/-- Where the faults that are found before records are made come from. -/
theorem reported_of_mem_bind {lexemes : List Lexeme} {f : Fault}
    (h : f ∈ faultsOf (bind {} lexemes).remarks) :
    f ∈ Line.readingFaults lexemes ∨ ∃ l ∈ Line.ofLexemes lexemes, ∃ k,
      l.Becomes (bind {} lexemes).symbols k ∧ k.Flawed f := by
  rw [faultsOf_remarks_bind, List.mem_append, List.mem_append] at h
  rcases h with (h | h) | h
  · exact .inl h
  · -- Definitions are looked at as they were read.
    obtain ⟨l, hl, constants, hf⟩ := exists_line_of_mem_collect h
    rw [Constants.collectStep] at hf
    split at hf
    case isTrue => exact .inr ⟨l, hl, l, .read, Constants.flawed_define constants l f hf⟩
    case isFalse => cases hf
  · -- All other lines are looked at with their constants replaced.
    rcases exists_line_of_mem_lineFaults h with h | ⟨k, hk, hf⟩
    · obtain ⟨l, hl, labels, hf⟩ := exists_line_of_mem_collect h
      rw [Labels.collectStep] at hf
      split at hf
      case isTrue => cases hf
      case isFalse => exact .inr ⟨l, hl, _, .inlined, Labels.flawed_declare labels _ f hf⟩
    · obtain ⟨l, hl, -, rfl⟩ := mem_inlinedLines.1 hk
      exact .inr ⟨l, hl, _, .inlined, hf⟩

/-- A fault of making records is that of an operation. -/
theorem exists_line_of_mem_recordRemarks {lines : List Line} {f : Fault}
    (h : f ∈ faultsOf (lines.flatMap Line.recordRemarks)) : ∃ l ∈ lines, l.Rejected f := by
  rw [faultsOf, List.filterMap_flatMap] at h
  obtain ⟨l, hl, hf⟩ := List.mem_flatMap.1 h
  exact ⟨l, hl, Line.rejected_of_mem_recordRemarks hf⟩

/-- The stage of resolving that reports its faults, in reading order. -/
theorem cases_of_outcome_eq_error {lexemes : List Lexeme} {faults : List Fault}
    (h : (resolve {} lexemes).outcome = .error faults) :
    faults = Fault.sorted (faultsOf (bind {} lexemes).remarks) ∨
      faults = Fault.sorted (faultsOf ((bind {} lexemes).lines.flatMap Line.recordRemarks)) := by
  simp only [resolve] at h
  split at h
  case h_1 =>
    split at h
    case h_1 => cases h
    case h_2 => exact .inr (Except.error.inj h).symm
  case h_2 => exact .inl (Except.error.inj h).symm

/-- A fault of resolving is that of a lexeme that cannot be read, or is reported by a line at one of
its stages. -/
theorem reported_of_outcome {lexemes : List Lexeme} {faults : List Fault}
    (h : (resolve {} lexemes).outcome = .error faults) :
    ∀ f ∈ faults, f ∈ Line.readingFaults lexemes ∨ ∃ l ∈ Line.ofLexemes lexemes, ∃ k,
      l.Becomes (bind {} lexemes).symbols k ∧ k.Reports f := by
  intro f hf
  rcases cases_of_outcome_eq_error h with rfl | rfl
  · rcases reported_of_mem_bind ((Fault.sorted_perm _).mem_iff.1 hf) with
      hreading | ⟨l, hl, k, hk, hflawed⟩
    · exact .inl hreading
    · exact .inr ⟨l, hl, k, hk, .inl hflawed⟩
  · obtain ⟨k, hk, hrejected⟩ :=
      exists_line_of_mem_recordRemarks ((Fault.sorted_perm _).mem_iff.1 hf)
    rw [lines_bind] at hk
    obtain ⟨l, hl, -, rfl⟩ := mem_boundLines.1 hk
    exact .inr ⟨l, hl, _, .bound, .inr hrejected⟩

/-- Resolving a program reports located faults only. -/
theorem located_of_outcome {lexemes : List Lexeme} {faults : List Fault}
    (h : (resolve {} lexemes).outcome = .error faults) : ∀ f ∈ faults, f.Located := by
  intro f hf
  rcases reported_of_outcome h f hf with hreading | ⟨l, -, k, -, hreports⟩
  · obtain ⟨l, -, cause, -, rfl⟩ := Line.exists_lexeme_of_mem_readingFaults hreading
    exact Fault.located_inSource _ _
  · exact hreports.located

end Program

end Assembler65
