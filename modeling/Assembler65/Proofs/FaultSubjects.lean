import Assembler65.Proofs.RowEnds

/-!
# What faults are about

The faults of a program come from many steps, and each step finds faults about few subjects only:
`Fault.Among` says which. So the faults about one subject are those of the few steps that look at
it, whatever else is wrong with the program (`Source.about_lineFaults_label`,
`Source.about_lineFaults_constant`, `Source.about_lineFaults_range`).
-/

set_option autoImplicit false

namespace Assembler65

/-- What a fault is about. -/
inductive Subject where
  /-- A label that is declared again. -/
  | label
  /-- A constant that is defined again. -/
  | constant
  /-- A value above the limit of its place. -/
  | range
  /-- A name that stands for nothing. -/
  | reference
  | other
  deriving DecidableEq, Repr

/-- What a cause is about. -/
def Cause.subject : Cause → Subject
  | redefinedLabel _ _ => .label
  | redefinedConstant _ => .constant
  | constantOverflow _ _ => .range
  | undefinedLabel _ => .reference
  | _ => .other

namespace Fault

/-- What a fault is about. -/
def subject : Fault → Subject
  | inSource _ cause => cause.subject
  | inArguments _ | unresolvedLabel _ => .other

/-- The faults about a subject. -/
def about (subject : Subject) (faults : List Fault) : List Fault :=
  faults.filter fun f => f.subject = subject

/-- Faults about some subjects only. -/
def Among (subjects : List Subject) (faults : List Fault) : Prop :=
  ∀ f ∈ faults, f.subject ∈ subjects

variable {subject : Subject} {subjects : List Subject} {faults more : List Fault} {f : Fault}

@[simp] theorem about_nil (subject : Subject) : about subject [] = [] := rfl

@[simp] theorem about_append (subject : Subject) (faults more : List Fault) :
    about subject (faults ++ more) = about subject faults ++ about subject more :=
  List.filter_append ..

@[simp] theorem about_flatMap (subject : Subject) (lines : List Line)
    (faultsOf : Line → List Fault) :
    about subject (lines.flatMap faultsOf) = lines.flatMap fun l => about subject (faultsOf l) :=
  List.filter_flatMap

theorem mem_about : f ∈ about subject faults ↔ f ∈ faults ∧ f.subject = subject := by
  rw [about, List.mem_filter, decide_eq_true_eq]

@[simp] theorem sorted_nil : sorted [] = [] := List.mergeSort_nil

/-- Sorting keeps faults about a subject in their order that stand in reading order already. -/
theorem about_sorted (h : (about subject faults).Pairwise fun f g => f.le g) :
    about subject (sorted faults) = about subject faults :=
  filter_sorted h

namespace Among

theorem nil (subjects : List Subject) : Among subjects [] := List.forall_mem_nil _

theorem singleton (h : f.subject ∈ subjects) : Among subjects [f] := List.forall_mem_singleton.2 h

theorem append (h : Among subjects faults) (hmore : Among subjects more) :
    Among subjects (faults ++ more) :=
  List.forall_mem_append.2 ⟨h, hmore⟩

theorem flatMap {lines : List Line} {faultsOf : Line → List Fault}
    (h : ∀ l ∈ lines, Among subjects (faultsOf l)) : Among subjects (lines.flatMap faultsOf) := by
  intro f hf
  obtain ⟨l, hl, hf⟩ := List.mem_flatMap.1 hf
  exact h l hl f hf

theorem sorted (h : Among subjects faults) : Among subjects (sorted faults) :=
  fun f hf => h f ((sorted_perm faults).mem_iff.1 hf)

theorem mono {others : List Subject} (h : Among subjects faults) (hsubset : subjects ⊆ others) :
    Among others faults :=
  fun f hf => hsubset (h f hf)

theorem about_eq_nil (h : Among subjects faults) (hsubject : subject ∉ subjects) :
    about subject faults = [] := by
  apply List.filter_eq_nil_iff.2
  intro f hf heq
  apply hsubject
  rw [← of_decide_eq_true heq]
  exact h f hf

theorem about_eq_self (h : Among [subject] faults) : about subject faults = faults := by
  apply List.filter_eq_self.2
  intro f hf
  exact decide_eq_true (List.mem_singleton.1 (h f hf))

end Among

end Fault

open Fault (Among about)

/-! ## Steps -/

theorem subject_expectedFault (finish : Position) (rest : List Token) (wanted : String) :
    (expectedFault finish rest wanted).subject = .other := rfl

theorem among_expectedFault (finish : Position) (rest : List Token) (wanted : String) :
    Among [.other] [expectedFault finish rest wanted] :=
  .singleton (List.mem_singleton.2 (subject_expectedFault finish rest wanted))

theorem Line.among_readingFaults (lexemes : List Lexeme) :
    Among [.other] (readingFaults lexemes) := by
  intro f hf
  obtain ⟨l, -, cause, hcause, rfl⟩ := exists_lexeme_of_mem_readingFaults hf
  rcases Lexeme.cases_of_contribution_eq_fault hcause with ⟨-, rfl⟩ | ⟨-, rfl⟩
  · exact List.mem_cons_self
  · exact List.mem_cons_self

/-- The faults of collecting symbols are about what those of a line are about. -/
theorem among_collect {α : Type} {step : SymbolTable α → Line → SymbolTable α × List Fault}
    {subjects : List Subject} (h : ∀ table l, Among subjects (step table l).2)
    (table : SymbolTable α) (lines : List Line) :
    Among subjects (collect step table lines).2 := by
  intro f hf
  obtain ⟨l, -, before, hf⟩ := exists_line_of_mem_collect hf
  exact h before l f hf

namespace Line

variable (l : Line)

theorem among_definedValue : Among [.range, .other] l.definedValue.2 := by
  rw [definedValue]
  split
  case h_1 =>
    split
    case h_1 => exact .nil _
    case h_2 => exact .singleton List.mem_cons_self
  case h_2 => exact (among_expectedFault _ _ _).mono (by decide)

theorem among_definitionExcess : Among [.other] l.definitionExcess := by
  rw [definitionExcess]
  split
  case isTrue => exact among_expectedFault _ _ _
  case isFalse => exact .nil _

/-- What is wrong with a definition, but for its name. -/
theorem among_definition : Among [.range, .other] (l.definedValue.2 ++ l.definitionExcess) :=
  l.among_definedValue.append (l.among_definitionExcess.mono (by decide))

end Line

namespace Constants

variable {constants : Constants} {l : Line}

/-- A line that defines a name: the faults of its number, of what follows, and of the name if it is
known already. -/
theorem define_of_identifier (constants : Constants) {name : String} {t : Token}
    {rest : List Token} (htokens : l.tokens.drop 1 = t :: rest)
    (hkind : t.kind = .identifier name) :
    (constants.define l).1 =
        (if constants.contains name then constants
          else constants.insert name (l.definedValue.1.getD 0)) ∧
      Program.faultsOf (constants.define l).2 =
        l.definedValue.2 ++ l.definitionExcess ++
          if constants.contains name then [.inSource t.pos (.redefinedConstant name)] else [] := by
  obtain ⟨kind, text, pos⟩ := t
  cases hkind
  rcases hvalue : l.definedValue with ⟨value, faults⟩
  simp only [define, htokens, hvalue]
  cases constants.contains name with
  | true =>
    refine ⟨rfl, ?_⟩
    exact (Program.faultsOf_append _ _).trans (by rw [Program.faultsOf_map_faultFound]; rfl)
  | false =>
    refine ⟨rfl, ?_⟩
    exact (Program.faultsOf_append _ _).trans (by rw [Program.faultsOf_map_faultFound]; rfl)

theorem define_of_no_identifier
    (h : ∀ t rest name, l.tokens.drop 1 = t :: rest → t.kind ≠ .identifier name) :
    constants.define l = (constants, [.faultFound (l.expected 1 "An IDENTIFIER")]) := by
  rw [define]
  split
  case h_1 name text pos rest htokens => exact absurd rfl (h _ _ name htokens)
  case h_2 => rfl

/-- The second token of a line is a name or not. -/
theorem cases_identifier (l : Line) :
    (∃ t rest name, l.tokens.drop 1 = t :: rest ∧ t.kind = .identifier name) ∨
      ∀ t rest name, l.tokens.drop 1 = t :: rest → t.kind ≠ .identifier name := by
  by_cases h : ∃ t rest name, l.tokens.drop 1 = t :: rest ∧ t.kind = .identifier name
  · exact .inl h
  · exact .inr fun t rest name htokens hkind => h ⟨t, rest, name, htokens, hkind⟩

theorem among_collectStep (constants : Constants) (l : Line) :
    Among [.constant, .range, .other] (collectStep constants l).2 := by
  rw [collectStep]
  split
  case isFalse => exact .nil _
  case isTrue =>
    rcases cases_identifier l with ⟨t, rest, name, htokens, hkind⟩ | hnone
    · rw [(define_of_identifier constants htokens hkind).2]
      refine (l.among_definition.mono (by decide)).append ?_
      split
      case isTrue => exact .singleton List.mem_cons_self
      case isFalse => exact .nil _
    · rw [define_of_no_identifier hnone]
      exact (among_expectedFault _ _ _).mono (by decide)

end Constants

theorem Labels.among_declare (labels : Labels) (l : Line) :
    Among [.label, .other] (labels.declare l).2 := by
  rw [declare]
  split
  case h_1 =>
    split
    case isTrue => exact .singleton (List.mem_cons_of_mem _ List.mem_cons_self)
    case isFalse =>
      split
      case h_1 => exact .singleton List.mem_cons_self
      case h_2 => exact .nil _
  case h_2 => exact .nil _

theorem Labels.among_collectStep (constants : Constants) (labels : Labels) (l : Line) :
    Among [.label, .other] (collectStep constants labels l).2 := by
  rw [collectStep]
  split
  case isTrue => exact .nil _
  case isFalse => exact among_declare labels _

theorem among_originOperand (finish : Position) (tokens : List Token) :
    Among [.other] (originOperand finish tokens).2 := by
  unfold originOperand
  split
  case h_1 =>
    simp only
    split
    case isTrue => exact .nil _
    case isFalse => exact among_expectedFault _ _ _
  case h_2 => exact among_expectedFault _ _ _
  case h_3 => exact among_expectedFault _ _ _

theorem Token.among_dataFaults (limit : Nat) (t : Token) : Among [.range] (t.dataFaults limit) := by
  rw [dataFaults]
  split
  case h_1 =>
    split
    case isTrue => exact .singleton List.mem_cons_self
    case isFalse => exact .nil _
  case h_2 => exact List.forall_mem_map.2 fun c _ => List.mem_cons_self
  case h_3 => exact .nil _

theorem among_dataList (limit : Nat) (finish : Position) (tokens : List Token) :
    Among [.range, .other] (dataList limit finish tokens).2 := by
  have hown : ∀ t : Token, Among [.range, .other] (t.dataFaults limit) := fun t =>
    (t.among_dataFaults limit).mono (by decide)
  have hexpected : ∀ rest wanted, Among [.range, .other] [expectedFault finish rest wanted] :=
    fun rest wanted => (among_expectedFault finish rest wanted).mono (by decide)
  fun_induction dataList limit finish tokens with
  | case1 => exact hexpected _ _
  | case2 t rest hvalues => exact hexpected _ _
  | case3 t own hvalues => exact hown t
  | case4 t own hvalues _ _ text pos rest others more hrest ih =>
    rw [hrest] at ih
    exact (hown t).append ih
  | case5 t own hvalues => exact (hown t).append (hexpected _ _)

namespace Line

variable (l : Line)

theorem among_rangeFaults : Among [.range] l.rangeFaults := by
  intro f hf
  obtain ⟨t, -, hfault⟩ := List.mem_filterMap.1 hf
  split at hfault
  case h_1 =>
    rw [Option.ite_none_right_eq_some] at hfault
    cases hfault.2
    exact List.mem_cons_self
  case h_2 => cases hfault

theorem among_gatherOrigin : Among [.other] l.gatherOrigin.2 := by
  rw [gatherOrigin]
  split
  case h_1 => exact among_originOperand _ _
  case h_2 => exact .nil _

theorem among_gatherData : Among [.range, .other] l.gatherData.2 := by
  rw [gatherData]
  split
  case h_1 => exact among_dataList _ _ _
  case h_2 => exact among_dataList _ _ _
  case h_3 => exact .nil _

theorem among_referenceFaults (labels : Labels) :
    Among [.reference] (l.referenceFaults labels) := by
  intro f hf
  rw [referenceFaults] at hf
  split at hf
  case isTrue => cases hf
  case isFalse =>
    obtain ⟨t, -, hfault⟩ := List.mem_filterMap.1 hf
    split at hfault
    case h_1 =>
      rw [Option.ite_none_left_eq_some] at hfault
      cases hfault.2
      exact List.mem_cons_self
    case h_2 => cases hfault

theorem among_headFaults : Among [.other] l.headFaults := by
  rw [headFaults]
  split
  case h_1 => exact .nil _
  case h_2 =>
    split
    case h_1 =>
      split
      case h_1 => exact .nil _
      case h_2 => exact .nil _
      case h_3 =>
        split
        case isTrue => exact among_expectedFault _ _ _
        case isFalse => exact .nil _
      case h_4 => exact among_expectedFault _ _ _
    case h_2 => exact .nil _
    case h_3 => exact .nil _
    case h_4 => exact .singleton List.mem_cons_self

end Line

/-! ## Programs -/

/-- The faults that resolving reports. -/
def Resolution.faults (r : Resolution) : List Fault :=
  match r.outcome with
  | .ok _ => []
  | .error faults => faults

theorem Resolution.exists_of_mem_faults {r : Resolution} {f : Fault} (h : f ∈ r.faults) :
    ∃ faults, r.outcome = .error faults ∧ f ∈ faults := by
  rw [faults] at h
  split at h
  case h_1 => cases h
  case h_2 faults houtcome => exact ⟨faults, houtcome, h⟩

namespace Source

variable (s : Source)

/-- The faults of lines are reported, and without any those of records, in reading order. -/
theorem faults_resolve :
    (Program.resolve {} (Lexeme.ofSource s)).faults =
      Fault.sorted (if s.lineFaults = [] then s.recordFaults else s.lineFaults) := by
  by_cases hline : s.lineFaults = []
  · rw [if_pos hline]
    by_cases hrecord : s.recordFaults = []
    · have houtcome := Program.outcome_resolve_eq_ok_iff.2 ⟨hline, hrecord, rfl⟩
      rw [Resolution.faults, houtcome, hrecord, Fault.sorted_nil]
    · rw [Resolution.faults, outcome_of_recordFaults hline hrecord]
  · rw [if_neg hline, Resolution.faults, outcome_of_lineFaults hline]

theorem mem_faults_resolve {f : Fault} (h : f ∈ s.lineFaults) :
    f ∈ (Program.resolve {} (Lexeme.ofSource s)).faults := by
  rw [faults_resolve, if_neg (List.ne_nil_of_mem h), (Fault.sorted_perm _).mem_iff]
  exact h

/-- The symbols of a source, as far as they can be found. -/
def symbols : Symbols := (Program.bind {} (Lexeme.ofSource s)).symbols

/-- The lines of a source that are no definitions, with their constants replaced. -/
def inlinedLines : List Line :=
  Program.inlinedLines s.symbols.constants (Line.ofLexemes (Lexeme.ofSource s))

/-- The faults of definitions. -/
def definitionFaults : List Fault :=
  (collect Constants.collectStep {} (Line.ofLexemes (Lexeme.ofSource s))).2

/-- The faults of declarations. -/
def declarationFaults : List Fault :=
  (collect (Labels.collectStep s.symbols.constants) {} (Line.ofLexemes (Lexeme.ofSource s))).2

theorem lineFaults_eq :
    s.lineFaults = Line.readingFaults (Lexeme.ofSource s) ++ s.definitionFaults ++
      Program.lineFaults s.inlinedLines s.symbols.labels s.declarationFaults :=
  Program.faultsOf_remarks_bind _

theorem among_definitionFaults : Among [.constant, .range, .other] s.definitionFaults :=
  among_collect Constants.among_collectStep _ _

theorem among_declarationFaults : Among [.label, .other] s.declarationFaults :=
  among_collect (Labels.among_collectStep _) _ _

theorem among_recordFaults : Among [.range, .other] s.recordFaults := by
  intro f hf
  obtain ⟨l, -, -, hrejects⟩ := Program.exists_line_of_mem_recordRemarks hf
  cases hrejects with
  | wide => exact List.mem_cons_self
  | refused hcause =>
    apply List.mem_cons_of_mem
    cases hcause with
    | shape => exact List.mem_cons_self
    | mode => exact List.mem_cons_self
    | target => exact List.mem_cons_self

/-- The steps that find faults about names and ranges. -/
theorem about_lineFaults {subject : Subject} (h : subject ≠ .other) :
    about subject s.lineFaults =
      about subject s.definitionFaults ++
        (about subject (s.inlinedLines.flatMap Line.rangeFaults) ++
          about subject (s.inlinedLines.flatMap fun l => l.gatherData.2) ++
          about subject s.declarationFaults ++
          about subject (s.inlinedLines.flatMap (Line.referenceFaults s.symbols.labels))) := by
  have hother : subject ∉ [Subject.other] := fun hmem => h (List.mem_singleton.1 hmem)
  have hreading := (Line.among_readingFaults (Lexeme.ofSource s)).about_eq_nil hother
  have horigin := (Among.flatMap fun l (_ : l ∈ s.inlinedLines) =>
    l.among_gatherOrigin).about_eq_nil hother
  have hhead := (Among.flatMap fun l (_ : l ∈ s.inlinedLines) =>
    l.among_headFaults).about_eq_nil hother
  rw [lineFaults_eq, Program.lineFaults]
  simp only [Fault.about_append, hreading, horigin, hhead, List.nil_append, List.append_nil]

theorem among_rangeFaults : Among [.range] (s.inlinedLines.flatMap Line.rangeFaults) :=
  .flatMap fun l _ => l.among_rangeFaults

theorem among_dataFaults :
    Among [.range, .other] (s.inlinedLines.flatMap fun l => l.gatherData.2) :=
  .flatMap fun l _ => l.among_gatherData

theorem among_referenceFaults :
    Among [.reference] (s.inlinedLines.flatMap (Line.referenceFaults s.symbols.labels)) :=
  .flatMap fun l _ => l.among_referenceFaults _

/-- Labels that are declared again are found among the declarations. -/
theorem about_lineFaults_label :
    about .label s.lineFaults = about .label s.declarationFaults := by
  rw [about_lineFaults _ (by decide), s.among_definitionFaults.about_eq_nil (by decide),
    s.among_rangeFaults.about_eq_nil (by decide), s.among_dataFaults.about_eq_nil (by decide),
    s.among_referenceFaults.about_eq_nil (by decide)]
  simp

/-- Constants that are defined again are found among the definitions. -/
theorem about_lineFaults_constant :
    about .constant s.lineFaults = about .constant s.definitionFaults := by
  rw [about_lineFaults _ (by decide), s.among_rangeFaults.about_eq_nil (by decide),
    s.among_dataFaults.about_eq_nil (by decide), s.among_declarationFaults.about_eq_nil (by decide),
    s.among_referenceFaults.about_eq_nil (by decide)]
  simp

/-- Names that stand for nothing are found where labels are looked up. -/
theorem about_lineFaults_reference :
    about .reference s.lineFaults =
      s.inlinedLines.flatMap (Line.referenceFaults s.symbols.labels) := by
  rw [about_lineFaults _ (by decide), s.among_definitionFaults.about_eq_nil (by decide),
    s.among_rangeFaults.about_eq_nil (by decide), s.among_dataFaults.about_eq_nil (by decide),
    s.among_declarationFaults.about_eq_nil (by decide), s.among_referenceFaults.about_eq_self]
  simp

/-- Values are checked in definitions, in all other lines, and again in lists of data. -/
theorem about_lineFaults_range :
    about .range s.lineFaults =
      about .range s.definitionFaults ++ (s.inlinedLines.flatMap Line.rangeFaults ++
        s.inlinedLines.flatMap fun l => about .range l.gatherData.2) := by
  rw [about_lineFaults _ (by decide), s.among_rangeFaults.about_eq_self,
    s.among_declarationFaults.about_eq_nil (by decide),
    s.among_referenceFaults.about_eq_nil (by decide), Fault.about_flatMap]
  simp

/-- Faults about a subject that only the steps before records find. -/
theorem about_resolve {subject : Subject} (h : subject ∉ [Subject.range, .other]) :
    about subject (Program.resolve {} (Lexeme.ofSource s)).faults =
      about subject (Fault.sorted s.lineFaults) := by
  rw [faults_resolve]
  by_cases hnil : s.lineFaults = []
  · rw [if_pos hnil, s.among_recordFaults.sorted.about_eq_nil h, hnil, Fault.sorted_nil]
    rfl
  · rw [if_neg hnil]

end Source

end Assembler65
