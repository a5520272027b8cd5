import Assembler65.Proofs.FaultSubjects
import Mathlib.Data.List.Flatten

/-!
# Faults of ranges

Four steps look at the size of numbers: definitions at the number they define, all other lines at
all of their numbers, lists of data at their elements, and operations at immediate operands. A
number beyond a word is left to the first two and one within a word to the others, so that no number
is reported twice (`Token.length_wideFault?_append_le`).

As no two lines have a row in common, the faults at a place are those of one line
(`Source.overflowsAt_lineFaults`), and as no two tokens share a place, they are those of one token
(`Line.exists_overflowsAt_valueFaults`).
-/

set_option autoImplicit false

namespace Assembler65

open Fault (Among about)

namespace Fault

/-- The faults of values above a limit at a place. -/
def overflowsAt (pos : Position) (faults : List Fault) : List Fault :=
  (about .range faults).filter fun f => f.position? = some pos

variable {pos : Position} {faults more : List Fault}

theorem overflowsAt_append (pos : Position) (faults more : List Fault) :
    overflowsAt pos (faults ++ more) = overflowsAt pos faults ++ overflowsAt pos more := by
  rw [overflowsAt, about_append, List.filter_append]
  rfl

theorem overflowsAt_about (pos : Position) (faults : List Fault) :
    overflowsAt pos (about .range faults) = overflowsAt pos faults := by
  have hamong : Among [.range] (about .range faults) := fun f hf =>
    List.mem_singleton.2 (mem_about.1 hf).2
  rw [overflowsAt, hamong.about_eq_self, overflowsAt]

theorem mem_overflowsAt {f : Fault} :
    f ∈ overflowsAt pos faults ↔ f ∈ faults ∧ f.subject = .range ∧ f.position? = some pos := by
  rw [overflowsAt, List.mem_filter, mem_about, decide_eq_true_eq, and_assoc]

/-- Sorting does not change what is reported at a place. -/
theorem overflowsAt_sorted (pos : Position) (faults : List Fault) :
    overflowsAt pos (sorted faults) = overflowsAt pos faults := by
  rw [overflowsAt, overflowsAt, about, about, List.filter_filter, List.filter_filter]
  apply filter_sorted
  apply List.pairwise_of_forall_mem_list
  intro f hf g hg
  simp only [List.mem_filter, Bool.and_eq_true, decide_eq_true_eq] at hf hg
  apply le_iff_place_le.2
  rw [place, place, hf.2.1, hg.2.1]

theorem overflowsAt_sublist (pos : Position) (h : faults.Sublist more) :
    (overflowsAt pos faults).Sublist (overflowsAt pos more) :=
  (h.filter _).filter _

theorem overflowsAt_eq_self (h : ∀ f ∈ faults, f.subject = .range ∧ f.position? = some pos) :
    overflowsAt pos faults = faults := by
  have hamong : Among [.range] faults := fun f hf => List.mem_singleton.2 (h f hf).1
  rw [overflowsAt, hamong.about_eq_self]
  apply List.filter_eq_self.2
  intro f hf
  exact decide_eq_true (h f hf).2

theorem overflowsAt_eq_nil (h : ∀ f ∈ faults, f.position? ≠ some pos) :
    overflowsAt pos faults = [] := by
  apply List.eq_nil_iff_forall_not_mem.2
  intro f hf
  obtain ⟨hmem, -, hposition⟩ := mem_overflowsAt.1 hf
  exact h f hmem hposition

end Fault

open Fault (overflowsAt)

/-! ## Tokens -/

namespace Token

/-- The fault of a number that does not fit into a word. -/
def wideFault? (t : Token) : Option Fault :=
  match t.kind with
  | .number n =>
    if n > Numeral.wordLimit then
      some (.inSource t.pos (.constantOverflow t.text Numeral.wordLimit))
    else none
  | _ => none

variable {t : Token}

theorem wideFault?_of_number {n : Nat} (hkind : t.kind = .number n)
    (hwide : Numeral.wordLimit < n) :
    t.wideFault? = some (.inSource t.pos (.constantOverflow t.text Numeral.wordLimit)) := by
  rw [wideFault?, hkind]
  exact if_pos hwide

theorem dataFaults_of_number {n : Nat} (hkind : t.kind = .number n)
    (hwide : Numeral.wordLimit < n) (limit : Nat) : t.dataFaults limit = [] := by
  simp [dataFaults, hkind, Nat.not_le.2 hwide]

/-- A number is reported for a word or for the limit of a list, but not for both. -/
theorem length_wideFault?_append_le (hstring : ∀ text, t.kind ≠ .string text) (limit : Nat) :
    (t.wideFault?.toList ++ t.dataFaults limit).length ≤ 1 := by
  cases hkind : t.kind with
  | string text => exact absurd hkind (hstring text)
  | number n =>
    by_cases hwide : Numeral.wordLimit < n
    · rw [wideFault?_of_number hkind hwide, dataFaults_of_number hkind hwide]
      exact Nat.le_refl 1
    · have hnone : t.wideFault? = none := by
        rw [wideFault?, hkind]
        exact if_neg hwide
      rw [hnone, dataFaults, hkind, Option.toList_none, List.nil_append]
      simp only
      split
      case isTrue => exact Nat.le_refl 1
      case isFalse => exact Nat.zero_le 1
  | _ => simp [wideFault?, dataFaults, hkind]

theorem of_wideFault? {f : Fault} (h : f ∈ t.wideFault?.toList) :
    f.subject = .range ∧ f.position? = some t.pos := by
  rw [Option.mem_toList, wideFault?] at h
  split at h
  case h_1 =>
    rw [Option.ite_none_right_eq_some] at h
    rw [← Option.some.inj h.2]
    exact ⟨rfl, rfl⟩
  case h_2 => cases h

theorem position?_of_mem_dataFaults {limit : Nat} {f : Fault} (h : f ∈ t.dataFaults limit) :
    f.position? = some t.pos := by
  obtain ⟨cause, -, rfl⟩ := t.blamed_dataFaults limit f h
  rfl

end Token

/-- Where no two tokens share a place, what is reported at one is what its token gives. -/
theorem overflowsAt_flatMap_tokens {tokens : List Token} {faultsOf : Token → List Fault}
    (hnodup : (tokens.map Token.pos).Nodup) (hfaults : ∀ t, ∀ f ∈ faultsOf t,
      f.position? = some t.pos) {t : Token} (ht : t ∈ tokens) :
    overflowsAt t.pos (tokens.flatMap faultsOf) = overflowsAt t.pos (faultsOf t) := by
  rw [overflowsAt, about, List.filter_flatMap, List.filter_flatMap]
  apply flatMap_eq_of_unique ht hnodup.of_map
  intro other hother hne
  apply Fault.overflowsAt_eq_nil
  intro f hf hposition
  rw [hfaults other f hf] at hposition
  exact hne (List.inj_on_of_nodup_map hnodup hother ht (Option.some.inj hposition))

/-- A data list reports values of its elements only. -/
theorem about_dataList_sublist (limit : Nat) (finish : Position) (tokens : List Token) :
    (about .range (dataList limit finish tokens).2).Sublist
      (tokens.flatMap (Token.dataFaults limit)) := by
  have hown : ∀ t : Token, about .range (t.dataFaults limit) = t.dataFaults limit := fun t =>
    (t.among_dataFaults limit).about_eq_self
  have hexpected : ∀ rest wanted, about .range [expectedFault finish rest wanted] = [] :=
    fun rest wanted => (among_expectedFault finish rest wanted).about_eq_nil (by decide)
  fun_induction dataList limit finish tokens with
  | case1 => rw [hexpected]; exact List.nil_sublist _
  | case2 t rest hvalues => rw [hexpected]; exact List.nil_sublist _
  | case3 t own hvalues => rw [hown, List.flatMap_singleton]
  | case4 t own hvalues _ _ text pos rest others more hrest ih =>
    rw [hrest] at ih
    rw [Fault.about_append, hown, List.flatMap_cons, List.flatMap_cons]
    exact (List.Sublist.refl _).append (ih.trans (List.sublist_append_right _ _))
  | case5 t own hvalues rest =>
    rw [Fault.about_append, hown, hexpected, List.append_nil, List.flatMap_cons]
    exact List.sublist_append_left _ _

namespace Line

theorem rangeFaults_eq (l : Line) :
    l.rangeFaults = l.tokens.flatMap fun t => t.wideFault?.toList :=
  List.filterMap_eq_flatMap_toList _ _

/-- What a line reports of its data is what one limit makes of its tokens, or some of that. -/
theorem exists_gatherData_sublist (l : Line) : ∃ limit,
    (about .range l.gatherData.2).Sublist (l.tokens.flatMap (Token.dataFaults limit)) := by
  have hlist : ∀ limit t rest, l.statement = t :: rest →
      (about .range (dataList limit l.finish rest).2).Sublist
        (l.tokens.flatMap (Token.dataFaults limit)) := by
    intro limit t rest hstatement
    have hrest : rest.Sublist l.tokens := by
      have hdrop : (t :: rest).Sublist l.tokens := hstatement ▸ List.drop_sublist _ _
      exact (List.sublist_cons_self t rest).trans hdrop
    exact (about_dataList_sublist _ _ _).trans (hrest.flatMap _)
  rw [gatherData]
  split
  case h_1 hstatement => exact ⟨_, hlist _ _ _ hstatement⟩
  case h_2 hstatement => exact ⟨_, hlist _ _ _ hstatement⟩
  case h_3 => exact ⟨0, List.nil_sublist _⟩

/-- The faults of values in a line that is no definition. -/
def valueFaults (l : Line) : List Fault := l.rangeFaults ++ about .range l.gatherData.2

theorem reports_of_mem_valueFaults {l : Line} {f : Fault} (h : f ∈ l.valueFaults) :
    l.Reports f := by
  rcases List.mem_append.1 h with hrange | hdata
  · exact .inl (l.flawed_rangeFaults f hrange)
  · exact .inl (l.flawed_gatherData f (Fault.mem_about.1 hdata).1)

/-- At the place of a token: the fault of a number beyond a word, and some of those of data. -/
theorem exists_overflowsAt_valueFaults {l : Line} (hnodup : (l.tokens.map Token.pos).Nodup)
    {t : Token} (ht : t ∈ l.tokens) :
    ∃ limit data, data.Sublist (t.dataFaults limit) ∧
      overflowsAt t.pos l.valueFaults = t.wideFault?.toList ++ data := by
  obtain ⟨limit, hdata⟩ := l.exists_gatherData_sublist
  refine ⟨limit, overflowsAt t.pos (about .range l.gatherData.2), ?_, ?_⟩
  · have hplace := Fault.overflowsAt_sublist t.pos hdata
    rw [overflowsAt_flatMap_tokens hnodup (fun _ _ => Token.position?_of_mem_dataFaults) ht]
      at hplace
    exact hplace.trans (List.filter_sublist.trans List.filter_sublist)
  · rw [valueFaults, Fault.overflowsAt_append, rangeFaults_eq,
      overflowsAt_flatMap_tokens hnodup (fun _ _ h => (Token.of_wideFault? h).2) ht,
      Fault.overflowsAt_eq_self fun _ => Token.of_wideFault?]

end Line

/-! ## Definitions -/

theorem Line.length_definedValue_le (l : Line) : l.definedValue.2.length ≤ 1 := by
  rw [definedValue]
  split
  case h_1 =>
    split
    case h_1 => exact Nat.zero_le 1
    case h_2 => exact Nat.le_refl 1
  case h_2 => exact Nat.le_refl 1

/-- The number of a definition is reported if it does not fit into a word. -/
theorem Line.definedValue_of_wide {l : Line} {t : Token} {rest : List Token} {n : Nat}
    (hdrop : l.tokens.drop 2 = t :: rest) (hkind : t.kind = .number n)
    (hwide : Numeral.wordLimit < n) :
    l.definedValue.2 = [.inSource t.pos (.constantOverflow t.text Numeral.wordLimit)] := by
  obtain ⟨kind, text, pos⟩ := t
  cases hkind
  have hnone : Numeral.word? n = none := if_neg (Nat.not_le.2 hwide)
  simp only [definedValue, hdrop, hnone]

namespace Constants

variable {constants : Constants} {l : Line}

theorem about_range_define {name : String} {t : Token} {rest : List Token}
    (htokens : l.tokens.drop 1 = t :: rest) (hkind : t.kind = .identifier name) :
    about .range (Program.faultsOf (constants.define l).2) = about .range l.definedValue.2 := by
  have hexcess : about .range l.definitionExcess = [] :=
    l.among_definitionExcess.about_eq_nil (by decide)
  rw [(define_of_identifier constants htokens hkind).2, Fault.about_append, Fault.about_append,
    hexcess]
  split
  case isTrue => simp [about, Fault.subject, Cause.subject]
  case isFalse => simp

/-- The value of a definition is looked at whatever names are known. -/
theorem about_range_collectStep (constants : Constants) (l : Line) :
    about .range (collectStep constants l).2 = about .range (collectStep {} l).2 := by
  rw [collectStep, collectStep]
  split
  case isTrue =>
    rcases cases_identifier l with ⟨t, rest, name, htokens, hkind⟩ | hnone
    · rw [about_range_define htokens hkind, about_range_define htokens hkind]
    · rw [define_of_no_identifier hnone, define_of_no_identifier hnone]
  case isFalse => rfl

theorem length_about_range_collectStep_le (constants : Constants) (l : Line) :
    (about .range (collectStep constants l).2).length ≤ 1 := by
  rw [collectStep]
  split
  case isTrue =>
    rcases cases_identifier l with ⟨t, rest, name, htokens, hkind⟩ | hnone
    · rw [about_range_define htokens hkind]
      exact (List.length_filter_le _ _).trans l.length_definedValue_le
    · rw [define_of_no_identifier hnone]
      exact List.length_filter_le _ _
  case isFalse => exact Nat.zero_le 1

end Constants

/-! ## Lines -/

namespace Line

/-- The faults of values in a line. -/
def overflows (constants : Constants) (l : Line) : List Fault :=
  if l.isDefinition then about .range (Constants.collectStep {} l).2
  else (constants.inline l).valueFaults

end Line

theorem Reported.exists_token {limit : Nat} {finish : Position} {tokens : List Token} {f : Fault}
    (h : Reported limit finish tokens f) (hrange : f.subject = .range) :
    ∃ t ∈ tokens, f.position? = some t.pos := by
  cases h with
  | token ht hcause => exact ⟨_, ht, rfl⟩
  | finish wanted => cases hrange

/-- A value that is reported is that of a token. -/
theorem Line.Reports.exists_token {l : Line} {f : Fault} (h : l.Reports f)
    (hrange : f.subject = .range) : ∃ t ∈ l.tokens, f.position? = some t.pos := by
  rcases h with (hword | ⟨-, hbyte⟩) | ⟨hstatement, hrejects⟩
  · exact hword.exists_token hrange
  · exact hbyte.exists_token hrange
  · cases hrejects with
    | wide ht =>
      exact ⟨_, subset_tokens_of_statement hstatement (List.mem_cons_of_mem _ ht), rfl⟩
    | refused hcause => cases hcause <;> cases hrange

namespace Source

variable {s : Source} {l : Line} {pos : Position}

theorem nodup_ofLexemes (s : Source) : (Line.ofLexemes (Lexeme.ofSource s)).Nodup := by
  apply (Line.pairwise_row_ofLexemes s).imp
  rintro k l hrow rfl
  exact hrow rfl

/-- A value that a line reports stands in the row of the line. -/
theorem row_of_reports {symbols : Symbols} {k : Line} {f : Fault}
    (hl : l ∈ Line.ofLexemes (Lexeme.ofSource s)) (hk : l.Becomes symbols k) (hf : k.Reports f)
    (hrange : f.subject = .range) (hposition : f.position? = some pos) : pos.row = l.row := by
  obtain ⟨t, ht, hplace⟩ := hf.exists_token hrange
  rw [hposition] at hplace
  rw [Option.some.inj hplace]
  exact hk.row_of_mem (Line.row_of_mem_ofLexemes hl) t ht

/-- As no two lines share a row, the values at a place are reported by one line. -/
theorem overflowsAt_flatMap_lines (symbols : Symbols) {faultsOf : Line → List Fault}
    (hfaults : ∀ l, ∀ f ∈ faultsOf l, ∃ k, l.Becomes symbols k ∧ k.Reports f)
    (hl : l ∈ Line.ofLexemes (Lexeme.ofSource s)) (hrow : l.row = pos.row) :
    overflowsAt pos ((Line.ofLexemes (Lexeme.ofSource s)).flatMap faultsOf) =
      overflowsAt pos (faultsOf l) := by
  rw [overflowsAt, about, List.filter_flatMap, List.filter_flatMap]
  apply flatMap_eq_of_unique hl s.nodup_ofLexemes
  intro other hother hne
  apply List.eq_nil_iff_forall_not_mem.2
  intro f hf
  obtain ⟨hmem, hrange, hposition⟩ := Fault.mem_overflowsAt.1 hf
  obtain ⟨k, hk, hreports⟩ := hfaults other f hmem
  apply hne
  apply Line.eq_of_row_eq hother hl
  rw [hrow, row_of_reports hother hk hreports hrange hposition]

/-- The faults about a subject that steps find whatever the table is. -/
theorem about_collect {α : Type} {step : SymbolTable α → Line → SymbolTable α × List Fault}
    {subject : Subject} {found : Line → List Fault}
    (h : ∀ table l, about subject (step table l).2 = found l) (table : SymbolTable α)
    (lines : List Line) : about subject (collect step table lines).2 = lines.flatMap found := by
  induction lines generalizing table with
  | nil => rfl
  | cons l rest ih => rw [collect_cons, Fault.about_append, h, ih, List.flatMap_cons]

theorem flatMap_inlinedLines (s : Source) (faultsOf : Line → List Fault) :
    s.inlinedLines.flatMap faultsOf = (Line.ofLexemes (Lexeme.ofSource s)).flatMap fun l =>
      if l.isDefinition then [] else faultsOf (s.symbols.constants.inline l) := by
  rw [inlinedLines, Program.inlinedLines, List.flatMap_map]
  induction Line.ofLexemes (Lexeme.ofSource s) with
  | nil => rfl
  | cons l rest ih =>
    cases hdefinition : l.isDefinition with
    | true => simp [hdefinition, ih]
    | false => simp [hdefinition, ih]

/-- The values at a place that lines report with their constants replaced. -/
theorem overflowsAt_inlinedLines (faultsOf : Line → List Fault)
    (hfaults : ∀ l, ∀ f ∈ faultsOf (s.symbols.constants.inline l), ∃ k,
      l.Becomes s.symbols k ∧ k.Reports f)
    (hl : l ∈ Line.ofLexemes (Lexeme.ofSource s)) (hrow : l.row = pos.row) :
    overflowsAt pos (s.inlinedLines.flatMap faultsOf) =
      if l.isDefinition then [] else overflowsAt pos (faultsOf (s.symbols.constants.inline l)) := by
  rw [flatMap_inlinedLines, overflowsAt_flatMap_lines s.symbols ?_ hl hrow]
  · split
    case isTrue => rfl
    case isFalse => rfl
  · intro k f hf
    split at hf
    case isTrue => cases hf
    case isFalse => exact hfaults k f hf

/-- The values at a place that are reported before records are made are those of its line. -/
theorem overflowsAt_lineFaults (hl : l ∈ Line.ofLexemes (Lexeme.ofSource s))
    (hrow : l.row = pos.row) :
    overflowsAt pos s.lineFaults = overflowsAt pos (l.overflows s.symbols.constants) := by
  have hdefined : overflowsAt pos (about .range s.definitionFaults) =
      overflowsAt pos (about .range (Constants.collectStep {} l).2) := by
    rw [definitionFaults, about_collect Constants.about_range_collectStep]
    refine overflowsAt_flatMap_lines s.symbols ?_ hl hrow
    intro k f hf
    obtain ⟨hmem, -⟩ := Fault.mem_about.1 hf
    rw [Constants.collectStep] at hmem
    split at hmem
    case isTrue => exact ⟨k, .read, .inl (Constants.flawed_define _ k f hmem)⟩
    case isFalse => cases hmem
  have hrange := overflowsAt_inlinedLines Line.rangeFaults
    (fun k f hf => ⟨_, .inlined, .inl (Line.flawed_rangeFaults _ f hf)⟩) hl hrow
  have hdata := overflowsAt_inlinedLines (fun k => about .range k.gatherData.2)
    (fun k f hf => ⟨_, .inlined, .inl (Line.flawed_gatherData _ f (Fault.mem_about.1 hf).1)⟩)
    hl hrow
  rw [← Fault.overflowsAt_about, about_lineFaults_range, Fault.overflowsAt_append,
    Fault.overflowsAt_append, hdefined, hrange, hdata, Line.overflows]
  cases hdefinition : l.isDefinition with
  | true => simp
  | false =>
    rw [Constants.collectStep, hdefinition]
    simp [Line.valueFaults, overflowsAt]

/-- A value that is reported stands in the row of a line. -/
theorem exists_line_of_mem_overflowsAt {f : Fault}
    (h : f ∈ overflowsAt pos (Program.resolve {} (Lexeme.ofSource s)).faults) :
    ∃ l ∈ Line.ofLexemes (Lexeme.ofSource s), l.row = pos.row := by
  obtain ⟨hmem, hrange, hposition⟩ := Fault.mem_overflowsAt.1 h
  obtain ⟨faults, houtcome, hmem⟩ := Resolution.exists_of_mem_faults hmem
  rcases Program.reported_of_outcome houtcome f hmem with hreading | ⟨l, hl, k, hk, hreports⟩
  · have hother := Line.among_readingFaults _ f hreading
    rw [hrange] at hother
    cases List.mem_singleton.1 hother
  · exact ⟨l, hl, (row_of_reports hl hk hreports hrange hposition).symm⟩

/-- An operation reports one fault at most. -/
theorem length_faultsOf_recordRemarks_le (l : Line) :
    (Program.faultsOf l.recordRemarks).length ≤ 1 := by
  rw [Line.recordRemarks]
  cases l.statementRecord? with
  | none => exact Nat.zero_le 1
  | some result =>
    cases result with
    | ok record => exact Nat.zero_le 1
    | error fault => exact Nat.le_refl 1

theorem recordFaults_eq (s : Source) :
    s.recordFaults = s.inlinedLines.flatMap fun k =>
      Program.faultsOf (s.symbols.labels.bind k).recordRemarks := by
  rw [recordFaults, Program.faultsOf, List.filterMap_flatMap]
  exact List.flatMap_map s.symbols.labels.bind _ s.inlinedLines

/-- Making records reports one value at most in a line. -/
theorem length_overflowsAt_recordFaults_le (hl : l ∈ Line.ofLexemes (Lexeme.ofSource s))
    (hrow : l.row = pos.row) : (overflowsAt pos s.recordFaults).length ≤ 1 := by
  rw [recordFaults_eq, overflowsAt_inlinedLines _ ?_ hl hrow]
  · split
    case isTrue => exact Nat.zero_le 1
    case isFalse =>
      have hone := length_faultsOf_recordRemarks_le
        (s.symbols.labels.bind (s.symbols.constants.inline l))
      exact (List.filter_sublist.trans List.filter_sublist).length_le.trans hone
  · intro k f hf
    exact ⟨_, .bound, .inr (Line.rejected_of_mem_recordRemarks hf)⟩

end Source

end Assembler65
