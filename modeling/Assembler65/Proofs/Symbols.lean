import Assembler65.Proofs.Words
import Mathlib.Data.List.Nodup

/-!
# The symbols of a program

Collecting the constants and the labels of a program has no fault exactly if every definition and
declaration keeps the rules and no name comes twice, and gives the tables of `symbolsOf`.
-/

set_option autoImplicit false

namespace Assembler65

/-! ## Tables -/

namespace SymbolTable

variable {α : Type} {t : SymbolTable α} {name : String} {index : Nat}

@[simp] theorem length_names (t : SymbolTable α) : t.names.length = t.size := List.length_map _

variable [Folding]

theorem contains_iff : t.contains name = true ↔ key name ∈ t.names := by
  rw [contains, find?, List.lookup_isSome_iff, names, List.mem_map]
  constructor
  · rintro ⟨entry, hmem, hkey⟩
    exact ⟨entry, hmem, (beq_iff_eq.1 hkey).symm⟩
  · rintro ⟨entry, hmem, hkey⟩
    exact ⟨entry, hmem, beq_iff_eq.2 hkey.symm⟩

theorem contains_eq_false_iff : t.contains name = false ↔ key name ∉ t.names := by
  rw [← contains_iff, Bool.not_eq_true]

/-- A name has a number if it is in the table. -/
theorem exists_index?_iff : (∃ index, t.index? name = some index) ↔ t.contains name = true := by
  rw [← Option.isSome_iff_exists, index?, List.findIdx?_isSome, contains_iff, names,
    List.any_eq_true, List.mem_map]
  simp only [beq_iff_eq]

/-- The number of a name is its place in the table. -/
theorem getElem?_names_of_index? (h : t.index? name = some index) :
    t.names[index]? = some (key name) := by
  obtain ⟨hlt, hkey, -⟩ := List.findIdx?_eq_some_iff_getElem.1 h
  rw [names, List.getElem?_map, List.getElem?_eq_getElem hlt, Option.map_some, beq_iff_eq.1 hkey]

end SymbolTable

/-! ## Definitions -/

namespace Program

@[simp] theorem faultsOf_append (remarks more : List Remark) :
    faultsOf (remarks ++ more) = faultsOf remarks ++ faultsOf more :=
  List.filterMap_append

@[simp] theorem faultsOf_map_faultFound (faults : List Fault) :
    faultsOf (faults.map .faultFound) = faults := by
  rw [faultsOf, List.filterMap_map]
  exact List.filterMap_some

end Program

namespace Line

/-- A definition that gives a name to a number within a word. -/
def Defines (l : Line) (name : String) (value : UInt16) : Prop :=
  ∃ (nameToken numberToken : Token) (n : Nat),
    l.tokens.drop 1 = [nameToken, numberToken] ∧ nameToken.kind = .identifier name ∧
      numberToken.kind = .number n ∧ Numeral.word? n = some value

/-- A definition without a fault of its value has one. -/
theorem exists_of_definedValue {l : Line} (h : l.definedValue.2 = []) :
    ∃ numberToken rest n value, l.tokens.drop 2 = numberToken :: rest ∧
      numberToken.kind = .number n ∧ Numeral.word? n = some value := by
  rw [definedValue] at h
  split at h
  case h_1 n text pos rest hdrop =>
    split at h
    case h_1 value hvalue => exact ⟨⟨.number n, text, pos⟩, rest, n, value, hdrop, rfl, hvalue⟩
    case h_2 => cases h
  case h_2 => cases h

theorem definedValue_of_defines {l : Line} {name : String} {value : UInt16}
    (h : l.Defines name value) : l.definedValue = (some value, []) := by
  obtain ⟨nameToken, ⟨kind, text, pos⟩, n, hdrop, -, rfl, hvalue⟩ := h
  have hnumber : l.tokens.drop 2 = [⟨.number n, text, pos⟩] := by
    rw [← List.drop_drop (i := 1) (j := 1), hdrop]
    rfl
  simp only [definedValue, hnumber, hvalue]

theorem definitionExcess_eq_nil_iff {l : Line} : l.definitionExcess = [] ↔ l.tokens.length ≤ 3 := by
  rw [definitionExcess, ite_eq_right_iff]
  simp

end Line

/-- A row that starts as a definition does. -/
def startsDefinition : List Lexeme → Bool
  | word :: _ => word.asDirective? == some .define
  | [] => false

theorem RowReads.reads {row : List Lexeme} {l : Line} (h : RowReads row l) :
    List.Forall₂ Lexeme.Reads row l.tokens :=
  h.tokens.imp fun _ _ => Lexeme.token?_eq_some_iff_reads.1

theorem RowReads.isDefinition_eq {row : List Lexeme} {l : Line} (h : RowReads row l) :
    l.isDefinition = startsDefinition row := by
  have hreads := h.reads
  rw [Line.isDefinition]
  generalize l.tokens = tokens at hreads ⊢
  cases hreads with
  | nil => rfl
  | @cons word t rest ts hhead _ =>
    obtain ⟨kind, text, pos⟩ := t
    have hkind : kind = .directive .define ↔ word.asDirective? = some .define :=
      hhead.kind_eq_iff
    by_cases hdefine : kind = .directive .define
    · have hword := hkind.1 hdefine
      cases hdefine
      simp [startsDefinition, hword]
    · have hword : word.asDirective? ≠ some .define := fun hword => hdefine (hkind.2 hword)
      have hstarts : startsDefinition (word :: rest) = false := beq_eq_false_iff_ne.2 hword
      rw [hstarts]
      split
      case h_1 heq => cases heq; exact absurd rfl hdefine
      case h_2 => rfl

theorem declaration?_eq_none {row : List Lexeme} (h : startsDefinition row = true) :
    declaration? row = none := by
  cases row with
  | nil => rfl
  | cons word rest =>
    have hdirective := beq_iff_eq.1 h
    refine if_neg fun hkind => ?_
    simp [Lexeme.asDirective?, hkind] at hdirective

/-! ## Collecting symbols row by row -/

section Collecting

variable {α : Type} {step : SymbolTable α → Line → SymbolTable α × List Fault}
  {symbol? : List Lexeme → Option (String × α)} {Valid : List Lexeme → Prop}

/-- The table of the symbols of some lines, and the faults. -/
def collect (step : SymbolTable α → Line → SymbolTable α × List Fault) (table : SymbolTable α) :
    List Line → SymbolTable α × List Fault
  | [] => (table, [])
  | l :: rest =>
    let (table, faults) := step table l
    let (table, more) := collect step table rest
    (table, faults ++ more)

theorem collect_cons (table : SymbolTable α) (l : Line) (rest : List Line) :
    collect step table (l :: rest) =
      ((collect step (step table l).1 rest).1,
        (step table l).2 ++ (collect step (step table l).1 rest).2) := rfl

/-- A step that adds the entry of a row to the table. It has no fault exactly if the row is valid
and its name is new. -/
structure Collects (step : SymbolTable α → Line → SymbolTable α × List Fault)
    (symbol? : List Lexeme → Option (String × α)) (Valid : List Lexeme → Prop) : Prop where
  faults : ∀ {row l} (_ : RowReads row l) (table : SymbolTable α),
    (step table l).2 = [] ↔ Valid row ∧ ∀ entry, symbol? row = some entry → entry.1 ∉ table.names
  entries : ∀ {row l} (_ : RowReads row l) (table : SymbolTable α),
    (step table l).2 = [] → (step table l).1.entries = table.entries ++ (symbol? row).toList

theorem Collects.names {row : List Lexeme} {l : Line} {table : SymbolTable α}
    (h : Collects step symbol? Valid) (hrow : RowReads row l) (hfaults : (step table l).2 = []) :
    (step table l).1.names = table.names ++ ((symbol? row).map Prod.fst).toList := by
  rw [SymbolTable.names, h.entries hrow table hfaults, List.map_append, SymbolTable.names]
  cases symbol? row with
  | none => rfl
  | some entry => rfl

theorem Collects.nodup_names {row : List Lexeme} {l : Line} {table : SymbolTable α}
    (h : Collects step symbol? Valid) (hrow : RowReads row l) (hfaults : (step table l).2 = [])
    (hnodup : table.names.Nodup) : (step table l).1.names.Nodup := by
  have hnew := ((h.faults hrow table).1 hfaults).2
  rw [h.names hrow hfaults]
  cases hentry : symbol? row with
  | none => simpa using hnodup
  | some entry =>
    rw [Option.map_some, Option.toList_some, ← List.concat_eq_append, List.nodup_concat]
    exact ⟨hnew entry hentry, hnodup⟩

/-- Collecting has no fault exactly if every row is valid and no name comes twice. -/
theorem Collects.faults_collect_eq_nil_iff (h : Collects step symbol? Valid)
    {rows : List (List Lexeme)} {lines : List Line} (hrows : List.Forall₂ RowReads rows lines)
    {table : SymbolTable α} (hnodup : table.names.Nodup) :
    (collect step table lines).2 = [] ↔
      (∀ row ∈ rows, Valid row) ∧
        (table.names ++ (rows.filterMap symbol?).map Prod.fst).Nodup := by
  -- Over any table, since every row is added to what the rows before it have left.
  induction hrows generalizing table with
  | nil => simpa [collect] using hnodup
  | @cons row l rows lines hrow _ ih =>
    have hnames : (table.names ++ ((row :: rows).filterMap symbol?).map Prod.fst) =
        (table.names ++ ((symbol? row).map Prod.fst).toList) ++
          (rows.filterMap symbol?).map Prod.fst := by
      cases hentry : symbol? row with
      | none => simp [List.filterMap_cons_none hentry]
      | some entry => simp [List.filterMap_cons_some hentry]
    rw [collect_cons, hnames, List.append_eq_nil_iff, List.forall_mem_cons]
    constructor
    · rintro ⟨hstep, hmore⟩
      have hrest := (ih (h.nodup_names hrow hstep hnodup)).1 hmore
      rw [h.names hrow hstep] at hrest
      exact ⟨⟨((h.faults hrow table).1 hstep).1, hrest.1⟩, hrest.2⟩
    · rintro ⟨⟨hvalid, hrows⟩, hdistinct⟩
      -- That all names differ says in particular that the name of this row is new.
      have hnew : ∀ entry, symbol? row = some entry → entry.1 ∉ table.names := by
        intro entry hentry hmem
        rw [hentry] at hdistinct
        have hnames := (List.nodup_append.1 hdistinct).1
        exact (List.nodup_append.1 hnames).2.2 _ hmem _ List.mem_cons_self rfl
      have hstep := (h.faults hrow table).2 ⟨hvalid, hnew⟩
      refine ⟨hstep, (ih (h.nodup_names hrow hstep hnodup)).2 ⟨hrows, ?_⟩⟩
      rw [h.names hrow hstep]
      exact hdistinct

/-- Collecting without a fault adds the entries of all rows in order. -/
theorem Collects.entries_collect (h : Collects step symbol? Valid)
    {rows : List (List Lexeme)} {lines : List Line} (hrows : List.Forall₂ RowReads rows lines)
    {table : SymbolTable α} (hfaults : (collect step table lines).2 = []) :
    (collect step table lines).1.entries = table.entries ++ rows.filterMap symbol? := by
  induction hrows generalizing table with
  | nil => exact (List.append_nil _).symm
  | @cons row l rows lines hrow _ ih =>
    obtain ⟨hstep, hmore⟩ := List.append_eq_nil_iff.1 hfaults
    have hrest := ih hmore
    rw [h.entries hrow table hstep] at hrest
    refine hrest.trans ?_
    cases hentry : symbol? row with
    | none => simp [List.filterMap_cons_none hentry]
    | some entry => simp [List.filterMap_cons_some hentry]

/-- Collecting from nothing gives the entries of all rows without a fault exactly if every row is
valid and no name comes twice. -/
theorem Collects.collect_eq_iff (h : Collects step symbol? Valid)
    {rows : List (List Lexeme)} {lines : List Line} (hrows : List.Forall₂ RowReads rows lines) :
    collect step {} lines = (⟨rows.filterMap symbol?⟩, []) ↔
      (∀ row ∈ rows, Valid row) ∧ (SymbolTable.mk (rows.filterMap symbol?)).names.Nodup := by
  have hempty : (SymbolTable.mk ([] : List (String × α))).names.Nodup := List.nodup_nil
  have hfaults := h.faults_collect_eq_nil_iff hrows hempty
  constructor
  · intro hcollect
    exact hfaults.1 (by rw [hcollect])
  · intro hvalid
    have hnil := hfaults.2 hvalid
    have hentries := h.entries_collect hrows hnil
    refine Prod.ext ?_ hnil
    generalize (collect step {} lines).1 = collected at hentries ⊢
    obtain ⟨entries⟩ := collected
    exact congrArg SymbolTable.mk hentries

end Collecting

/-! ## Constants -/

variable [Folding]

namespace Constants

variable {constants : Constants} {l : Line}

theorem define_of_defines {name : String} {value : UInt16} (h : l.Defines name value)
    (hnew : constants.contains name = false) :
    (constants.define l).1 = constants.insert name value ∧
      Program.faultsOf (constants.define l).2 = [] := by
  have hvalue := Line.definedValue_of_defines h
  obtain ⟨⟨kind, text, pos⟩, numberToken, n, hdrop, rfl, -⟩ := h
  have hlength : l.tokens.length ≤ 3 := by
    have := congrArg List.length hdrop
    rw [List.length_drop, List.length_cons, List.length_singleton] at this
    omega
  have hexcess := Line.definitionExcess_eq_nil_iff.2 hlength
  simp only [define, hdrop, hvalue, hexcess, hnew]
  exact ⟨rfl, rfl⟩

/-- A definition has no fault exactly if it gives a new name to a number within a word. -/
theorem faultsOf_define_eq_nil_iff :
    Program.faultsOf (constants.define l).2 = [] ↔
      ∃ name value, l.Defines name value ∧ constants.contains name = false := by
  constructor
  · intro h
    rw [define] at h
    split at h
    case h_1 name text pos rest hdrop =>
      have hdrop' : l.tokens.drop 2 = rest := by
        rw [← List.drop_drop (i := 1) (j := 1), hdrop]
        rfl
      rcases hpair : l.definedValue with ⟨value, faults⟩
      simp only [hpair] at h
      split at h
      case isTrue => simp [Program.faultsOf, Remark.fault?] at h
      case isFalse hnew =>
        rw [Program.faultsOf_append, Program.faultsOf_map_faultFound] at h
        obtain ⟨hfaults, -⟩ := List.append_eq_nil_iff.1 h
        obtain ⟨hvalue, hexcess⟩ := List.append_eq_nil_iff.1 hfaults
        -- The value is there, and the length of the line leaves no room for a token behind it.
        obtain ⟨numberToken, more, n, value, hnumber, hkind, hword⟩ :=
          Line.exists_of_definedValue (by rw [hpair, hvalue])
        have hmore : more = [] := by
          have hlength := Line.definitionExcess_eq_nil_iff.1 hexcess
          have hlengths := congrArg List.length hnumber
          rw [List.length_drop, List.length_cons] at hlengths
          exact List.eq_nil_of_length_eq_zero (by omega)
        rw [hdrop', hmore] at hnumber
        refine ⟨name, value, ?_, Bool.eq_false_iff.2 hnew⟩
        exact ⟨⟨.identifier name, text, pos⟩, numberToken, n, by rw [hdrop, hnumber], rfl, hkind,
          hword⟩
    case h_2 => cases h
  · rintro ⟨name, value, hdefines, hnew⟩
    exact (define_of_defines hdefines hnew).2

end Constants

theorem definition?_eq_some_iff {row : List Lexeme} {key : String} {value : UInt16} :
    definition? row = some (key, value) ↔
      ∃ directive name numeral, row = [directive, name, numeral] ∧
        directive.asDirective? = some .define ∧ name.isName = true ∧ numeral.isNumeral = true ∧
        Numeral.number? numeral.text = some value.toNat ∧ SymbolTable.key name.text = key := by
  constructor
  · intro h
    unfold definition? at h
    split at h
    case h_1 directive name numeral =>
      split at h
      case isTrue hkinds =>
        obtain ⟨value', hvalue, hpair⟩ := Option.map_eq_some_iff.1 h
        obtain ⟨n, hnumber, hword⟩ := Option.bind_eq_some_iff.1 hvalue
        obtain ⟨rfl, rfl⟩ := Prod.mk.inj hpair
        rw [← Numeral.word?_eq_some_iff.1 hword] at hnumber
        exact ⟨directive, name, numeral, rfl, hkinds.1, hkinds.2.1, hkinds.2.2, hnumber, rfl⟩
      case isFalse => cases h
    case h_2 => cases h
  · rintro ⟨directive, name, numeral, rfl, hdirective, hname, hnumeral, hnumber, rfl⟩
    rw [definition?, if_pos ⟨hdirective, hname, hnumeral⟩, hnumber, Option.bind_some,
      Numeral.word?_eq_some_iff.2 rfl, Option.map_some]

namespace RowReads

variable {row : List Lexeme} {l : Line}

/-- A line defines what its row defines. -/
theorem exists_defines_iff (h : RowReads row l) (hdefinition : l.isDefinition = true)
    {key : String} {value : UInt16} :
    (∃ name, l.Defines name value ∧ SymbolTable.key name = key) ↔
      definition? row = some (key, value) := by
  rw [definition?_eq_some_iff]
  have hreads := h.reads
  rw [h.isDefinition_eq] at hdefinition
  constructor
  · rintro ⟨name, ⟨nameToken, numberToken, n, hdrop, hname, hnumber, hword⟩, rfl⟩
    generalize l.tokens = tokens at hreads hdrop
    cases hreads with
    | nil => cases hdrop
    | @cons directive t rest ts hhead hrest =>
      rw [List.drop_one, List.tail_cons] at hdrop
      subst hdrop
      rcases hrest with _ | @⟨nameWord, _, _, _, hnameWord, _ |
        @⟨numeral, _, _, _, hnumeral, _ | _⟩⟩
      obtain ⟨hisName, htext⟩ := hnameWord.kind_eq_iff.1 hname
      obtain ⟨hisNumeral, hparse⟩ := hnumeral.kind_eq_iff.1 hnumber
      rw [← Numeral.word?_eq_some_iff.1 hword] at hparse
      -- The token may stand for a numeral that cannot be read, but not with a value in range.
      refine ⟨directive, nameWord, numeral, rfl, beq_iff_eq.1 hdefinition, hisName, hisNumeral,
        ?_, by rw [htext]⟩
      exact (Numeral.getD_parse?_eq_iff (Nat.le_of_lt_succ value.toNat_lt)).1 hparse
  · rintro ⟨directive, name, numeral, rfl, hdirective, hname, hnumeral, hvalue, rfl⟩
    generalize hall : l.tokens = tokens at hreads
    rcases hreads with _ | @⟨_, _, _, _, _, _ | @⟨_, nameToken, _, _, hnameToken, _ |
      @⟨_, numberToken, _, _, hnumberToken, _ | _⟩⟩⟩
    refine ⟨name.text, ⟨nameToken, numberToken, value.toNat, by rw [hall]; rfl, ?_, ?_, ?_⟩, rfl⟩
    · exact hnameToken.kind_eq_iff.2 ⟨hname, rfl⟩
    · have hparse := (Numeral.getD_parse?_eq_iff (Nat.le_of_lt_succ value.toNat_lt)).2 hvalue
      exact hnumberToken.kind_eq_iff.2 ⟨hnumeral, hparse⟩
    · exact Numeral.word?_eq_some_iff.2 rfl

end RowReads

namespace Constants

/-- One definition: it has no fault exactly if its row defines a new name. -/
theorem faultsOf_define_row_iff {row : List Lexeme} {l : Line} (h : RowReads row l)
    (hdefinition : l.isDefinition = true) {constants : Constants} :
    Program.faultsOf (constants.define l).2 = [] ↔
      ∃ entry, definition? row = some entry ∧ entry.1 ∉ constants.names := by
  rw [faultsOf_define_eq_nil_iff]
  constructor
  · rintro ⟨name, value, hdefines, hnew⟩
    refine ⟨(SymbolTable.key name, value), ?_, SymbolTable.contains_eq_false_iff.1 hnew⟩
    exact (h.exists_defines_iff hdefinition).1 ⟨name, hdefines, rfl⟩
  · rintro ⟨⟨key, value⟩, hentry, hnew⟩
    obtain ⟨name, hdefines, rfl⟩ := (h.exists_defines_iff hdefinition).2 hentry
    exact ⟨name, value, hdefines, SymbolTable.contains_eq_false_iff.2 hnew⟩

theorem entries_define_row {row : List Lexeme} {l : Line} (h : RowReads row l)
    (hdefinition : l.isDefinition = true) {constants : Constants} {entry : String × UInt16}
    (hentry : definition? row = some entry) (hnew : entry.1 ∉ constants.names) :
    (constants.define l).1.entries = constants.entries ++ [entry] := by
  obtain ⟨name, hdefines, hkey⟩ := (h.exists_defines_iff hdefinition).2 hentry
  rw [← hkey] at hnew
  rw [(define_of_defines hdefines (SymbolTable.contains_eq_false_iff.2 hnew)).1,
    SymbolTable.insert, hkey]

end Constants

/-! ## Labels -/

namespace Labels

variable {labels : Labels} {l : Line}

theorem declare_of_declaration {t : Token} {rest : List Token} {name : String}
    (htokens : l.tokens = t :: rest) (hkind : t.kind = .declaration name) :
    ((labels.declare l).2 = [] ↔ isReserved name = false ∧ labels.contains name = false) ∧
      ((labels.declare l).2 = [] → (labels.declare l).1 = labels.insert name l.row) := by
  obtain ⟨kind, text, pos⟩ := t
  cases hkind
  simp only [declare, htokens, SymbolTable.contains]
  -- A reserved name is refused before the table is asked.
  cases isReserved name with
  | true => simp
  | false =>
    cases labels.find? name with
    | some firstRow => simp
    | none => simp

theorem declare_of_no_declaration
    (h : ∀ t rest name, l.tokens = t :: rest → t.kind ≠ .declaration name) :
    labels.declare l = (labels, []) := by
  rw [declare]
  split
  case h_1 name text pos rest htokens => exact absurd rfl (h _ _ name htokens)
  case h_2 => rfl

end Labels

/-- A row either declares a label with its first word or is all statement. -/
theorem cases_declaration {constants : Constants} {row : List Lexeme} {tokens : List Token}
    (h : List.Forall₂ (Inlines constants) row tokens) :
    (∃ word t rest, declaration? row = some word ∧ tokens = t :: rest ∧
        row = word :: statementWords row ∧ t.kind = .declaration word.text ∧ word.pos = t.pos ∧
        List.Forall₂ (Inlines constants) (statementWords row) rest) ∨
      (declaration? row = none ∧ statementWords row = row ∧
        ∀ t rest name, tokens = t :: rest → t.kind ≠ .declaration name) := by
  cases h with
  | nil => exact .inr ⟨rfl, rfl, nofun⟩
  | @cons word t words rest hhead hrest =>
    rw [declaration?, statementWords]
    by_cases hkind : word.kind = .declaration
    · rw [if_pos hkind, if_pos hkind]
      have hspells : word.Spells (.declaration word.text) := ⟨hkind, rfl⟩
      exact .inl ⟨word, t, rest, rfl, rfl, rfl, hhead.kind_eq hspells rfl, hhead.pos, hrest⟩
    · rw [if_neg hkind, if_neg hkind]
      refine .inr ⟨rfl, rfl, ?_⟩
      rintro t rest name ⟨rfl, rfl⟩ hdeclaration
      exact hkind (hhead.spells hdeclaration rfl).1

/-! ## The tables of a program -/

theorem definition?_eq_none {row : List Lexeme} (h : startsDefinition row = false) :
    definition? row = none := by
  rw [Option.eq_none_iff_forall_ne_some]
  rintro ⟨key, value⟩ hentry
  obtain ⟨directive, name, numeral, rfl, hdirective, -⟩ := definition?_eq_some_iff.1 hentry
  simp [startsDefinition, hdirective] at h

namespace Constants

/-- What a line adds to the constants. -/
def collectStep (constants : Constants) (l : Line) : Constants × List Fault :=
  if l.isDefinition then ((constants.define l).1, Program.faultsOf (constants.define l).2)
  else (constants, [])

theorem defineAll_eq_collect (constants : Constants) (lines : List Line) :
    ((constants.defineAll (lines.filter Line.isDefinition)).1,
      Program.faultsOf (constants.defineAll (lines.filter Line.isDefinition)).2) =
      collect collectStep constants lines := by
  induction lines generalizing constants with
  | nil => rfl
  | cons l rest ih =>
    rw [collect_cons, collectStep]
    by_cases hdefinition : l.isDefinition = true
    · rw [List.filter_cons_of_pos hdefinition, if_pos hdefinition, ← ih]
      exact Prod.ext rfl (Program.faultsOf_append _ _)
    · rw [List.filter_cons_of_neg hdefinition, if_neg hdefinition, ← ih]
      rfl

theorem collects : Collects collectStep definition?
    fun row => startsDefinition row = true → (definition? row).isSome = true where
  faults := by
    intro row l hrow constants
    rw [collectStep]
    by_cases hdefinition : l.isDefinition = true
    · have hstarts := hrow.isDefinition_eq.symm.trans hdefinition
      rw [if_pos hdefinition, faultsOf_define_row_iff hrow hdefinition]
      constructor
      · rintro ⟨entry, hentry, hnew⟩
        refine ⟨fun _ => by rw [hentry]; rfl, ?_⟩
        rintro entry' hentry'
        cases hentry.symm.trans hentry'
        exact hnew
      · rintro ⟨hvalid, hnew⟩
        obtain ⟨entry, hentry⟩ := Option.isSome_iff_exists.1 (hvalid hstarts)
        exact ⟨entry, hentry, hnew entry hentry⟩
    · have hstarts := hrow.isDefinition_eq.symm.trans (Bool.eq_false_iff.2 hdefinition)
      rw [if_neg hdefinition, definition?_eq_none hstarts, hstarts]
      simp
  entries := by
    intro row l hrow constants hfaults
    rw [collectStep] at hfaults ⊢
    by_cases hdefinition : l.isDefinition = true
    · rw [if_pos hdefinition] at hfaults ⊢
      obtain ⟨entry, hentry, hnew⟩ := (faultsOf_define_row_iff hrow hdefinition).1 hfaults
      rw [hentry]
      exact entries_define_row hrow hdefinition hentry hnew
    · have hstarts := hrow.isDefinition_eq.symm.trans (Bool.eq_false_iff.2 hdefinition)
      rw [if_neg hdefinition, definition?_eq_none hstarts]
      exact (List.append_nil _).symm

end Constants

theorem RowReads.tokens_inline {row : List Lexeme} {l : Line} (h : RowReads row l)
    (constants : Constants) :
    List.Forall₂ (Inlines constants) row (constants.inline l).tokens := by
  refine List.forall₂_map_right_iff.2 (h.reads.imp ?_)
  intro word t hreads
  exact ⟨t, hreads, rfl⟩

namespace Labels

/-- What a line adds to the labels. -/
def collectStep (constants : Constants) (labels : Labels) (l : Line) : Labels × List Fault :=
  if l.isDefinition then (labels, []) else labels.declare (constants.inline l)

theorem declareAll_eq_collect (constants : Constants) (labels : Labels) (lines : List Line) :
    labels.declareAll ((lines.filter fun l => !l.isDefinition).map constants.inline) =
      collect (collectStep constants) labels lines := by
  induction lines generalizing labels with
  | nil => rfl
  | cons l rest ih =>
    rw [collect_cons, collectStep]
    by_cases hdefinition : l.isDefinition = true
    · rw [List.filter_cons_of_neg (by simp [hdefinition]), if_pos hdefinition, ← ih]
      rfl
    · rw [List.filter_cons_of_pos (by simp [hdefinition]), if_neg hdefinition, ← ih]
      rfl

theorem collects (constants : Constants) :
    Collects (collectStep constants)
      (fun row => (declaration? row).map fun word => (SymbolTable.key word.text, word.pos.row))
      fun row => ∀ word, declaration? row = some word → isReserved word.text = false where
  faults := by
    intro row l hrow labels
    rw [collectStep]
    by_cases hdefinition : l.isDefinition = true
    · rw [if_pos hdefinition, declaration?_eq_none (hrow.isDefinition_eq.symm.trans hdefinition)]
      simp
    · rw [if_neg hdefinition]
      rcases cases_declaration (hrow.tokens_inline constants) with
        ⟨word, t, rest, hword, htokens, -, hkind, -, -⟩ | ⟨hnone, -, hkinds⟩
      · rw [(declare_of_declaration htokens hkind).1, hword, SymbolTable.contains_eq_false_iff]
        simp
      · rw [declare_of_no_declaration hkinds, hnone]
        simp
  entries := by
    intro row l hrow labels hfaults
    rw [collectStep] at hfaults ⊢
    by_cases hdefinition : l.isDefinition = true
    · rw [if_pos hdefinition, declaration?_eq_none (hrow.isDefinition_eq.symm.trans hdefinition)]
      exact (List.append_nil _).symm
    · rw [if_neg hdefinition] at hfaults ⊢
      rcases cases_declaration (hrow.tokens_inline constants) with
        ⟨word, t, rest, hword, htokens, hrow', hkind, -, -⟩ | ⟨hnone, -, hkinds⟩
      · have hnumber : word.pos.row = l.row :=
          hrow.row word (by rw [hrow']; exact List.mem_cons_self)
        rw [(declare_of_declaration htokens hkind).2 hfaults, hword, Option.map_some, hnumber]
        rfl
      · rw [declare_of_no_declaration hkinds, hnone]
        exact (List.append_nil _).symm

end Labels

end Assembler65
