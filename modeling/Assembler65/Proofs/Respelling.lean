import Assembler65.Proofs.LostLabels
import Assembler65.Proofs.UnspelledLines

/-!
# Respelled programs

A program may be written in other letters, with numerals of other bases, with other blanks and other
comments. Resolving and linking look at none of this (`Program.SameMeaning.outcome`,
`link_of_map_unspelled`). Main statement: `assemble_respelled`, respelled sources have the same
image or the same faults.
-/

set_option autoImplicit false

namespace Assembler65

/-- Two results that are both right and related, or both faults that are the same in some order but
for their spelling and their columns. -/
inductive SameResult {α : Type} (r : α → α → Prop) :
    Except (List Fault) α → Except (List Fault) α → Prop
  | ok {value value' : α} (h : r value value') : SameResult r (.ok value) (.ok value')
  | error {faults faults' : List Fault}
      (h : (faults.map Fault.unspelled).Perm (faults'.map Fault.unspelled)) :
      SameResult r (.error faults) (.error faults')

theorem SameResult.bind {α β : Type} {r : α → α → Prop} {q : β → β → Prop}
    {result result' : Except (List Fault) α} {next next' : α → Except (List Fault) β}
    (h : SameResult r result result')
    (hnext : ∀ value value', r value value' → SameResult q (next value) (next' value')) :
    SameResult q (result.bind next) (result'.bind next') := by
  cases h with
  | ok hvalue => exact hnext _ _ hvalue
  | error hfaults => exact .error hfaults

/-- A result that is given only if there is no fault. Faults stand in reading order. -/
def unlessFaults {α : Type} (faults : List Fault) (result : Except (List Fault) α) :
    Except (List Fault) α :=
  if faults = [] then result else .error (Fault.sorted faults)

theorem SameResult.unlessFaults {α : Type} {r : α → α → Prop} {faults faults' : List Fault}
    {result result' : Except (List Fault) α}
    (hfaults : faults.map Fault.unspelled = faults'.map Fault.unspelled)
    (h : SameResult r result result') :
    SameResult r (unlessFaults faults result) (unlessFaults faults' result') := by
  have hnil : faults = [] ↔ faults' = [] := by
    rw [← List.map_eq_nil_iff (f := Fault.unspelled), hfaults, List.map_eq_nil_iff]
  by_cases hnone : faults = []
  · rw [Assembler65.unlessFaults, Assembler65.unlessFaults, if_pos hnone, if_pos (hnil.1 hnone)]
    exact h
  · rw [Assembler65.unlessFaults, Assembler65.unlessFaults, if_neg hnone,
      if_neg (mt hnil.2 hnone)]
    apply SameResult.error
    have hsorted := (Fault.sorted_perm faults).map Fault.unspelled
    have hsorted' := (Fault.sorted_perm faults').map Fault.unspelled
    rw [hfaults] at hsorted
    exact hsorted.trans hsorted'.symm

/-! ## Resolving -/

namespace Program

theorem outcome_eq (symbols : Symbols) (lexemes : List Lexeme) :
    (resolve symbols lexemes).outcome =
      unlessFaults (faultsOf (bind symbols lexemes).remarks)
        (unlessFaults (faultsOf ((bind symbols lexemes).lines.flatMap Line.recordRemarks))
          (.ok ((bind symbols lexemes).lines.flatMap
            (Line.records (bind symbols lexemes).symbols.labels)))) := by
  simp only [resolve]
  split
  case h_1 hbound =>
    rw [hbound]
    split
    case h_1 hmade => rw [hmade]; rfl
    case h_2 hmade => exact (if_neg hmade).symm
  case h_2 hbound => exact (if_neg hbound).symm

/-- Lexemes with the same lines and the same faults of reading, without spelling. -/
structure SameMeaning (lexemes lexemes' : List Lexeme) : Prop where
  lines : (Line.ofLexemes lexemes).map Line.unspelled =
    (Line.ofLexemes lexemes').map Line.unspelled
  readingFaults : (Line.readingFaults lexemes).map Fault.unspelled =
    (Line.readingFaults lexemes').map Fault.unspelled

/-- What is found line by line, whatever the spelling, is found in all lines that are equal without
spelling. -/
theorem map_flatMap_of_unspelled {α β : Type} {f : Line → List α} {g : α → β}
    (hf : ∀ l : Line, (f l.unspelled).map g = (f l).map g) {lines lines' : List Line}
    (h : lines.map Line.unspelled = lines'.map Line.unspelled) :
    (lines.flatMap f).map g = (lines'.flatMap f).map g := by
  have hview : ∀ ls : List Line,
      (ls.flatMap f).map g = ((ls.map Line.unspelled).flatMap f).map g := by
    intro ls
    rw [List.map_flatMap, List.map_flatMap, List.flatMap_map]
    exact List.flatMap_congr fun l _ => (hf l).symm
  rw [hview lines, hview lines', h]

theorem map_unspelled_inlinedLines (constants : Constants) {lines lines' : List Line}
    (h : lines.map Line.unspelled = lines'.map Line.unspelled) :
    (inlinedLines constants lines).map Line.unspelled =
      (inlinedLines constants lines').map Line.unspelled := by
  have hinlined : ∀ ls : List Line, (inlinedLines constants ls).map Line.unspelled =
      inlinedLines constants (ls.map Line.unspelled) := by
    intro ls
    have hfilter : (ls.map Line.unspelled).filter (fun l => !l.isDefinition) =
        (ls.filter fun l => !l.isDefinition).map Line.unspelled := by
      rw [List.filter_map]
      congr 1
      exact List.filter_congr fun l _ => congrArg not l.isDefinition_unspelled
    rw [inlinedLines, inlinedLines, hfilter, List.map_map, List.map_map]
    exact List.map_congr_left fun l _ => (constants.inline_unspelled l).symm
  rw [hinlined lines, hinlined lines', h]

theorem map_unspelled_lineFaults (labels : Labels) {lines lines' : List Line}
    {labelFaults labelFaults' : List Fault}
    (h : lines.map Line.unspelled = lines'.map Line.unspelled)
    (hlabels : labelFaults.map Fault.unspelled = labelFaults'.map Fault.unspelled) :
    (lineFaults lines labels labelFaults).map Fault.unspelled =
      (lineFaults lines' labels labelFaults').map Fault.unspelled := by
  simp only [lineFaults, List.map_append, hlabels,
    map_flatMap_of_unspelled Line.rangeFaults_unspelled h,
    map_flatMap_of_unspelled (f := fun l => l.gatherOrigin.2)
      (fun l => congrArg Prod.snd l.gatherOrigin_unspelled) h,
    map_flatMap_of_unspelled (f := fun l => l.gatherData.2)
      (fun l => congrArg Prod.snd l.gatherData_unspelled) h,
    map_flatMap_of_unspelled (fun l => l.referenceFaults_unspelled labels) h,
    map_flatMap_of_unspelled Line.headFaults_unspelled h]

namespace SameMeaning

variable {lexemes lexemes' : List Lexeme}

/-- A step that does not look at spelling collects the same symbols. -/
theorem collect_eq (h : SameMeaning lexemes lexemes') {α : Type}
    {step : SymbolTable α → Line → SymbolTable α × List Fault}
    (hstep : ∀ table l, unspelledFaults (step table l.unspelled) = unspelledFaults (step table l)) :
    (collect step {} (Line.ofLexemes lexemes)).1 = (collect step {} (Line.ofLexemes lexemes')).1 ∧
      (collect step {} (Line.ofLexemes lexemes)).2.map Fault.unspelled =
        (collect step {} (Line.ofLexemes lexemes')).2.map Fault.unspelled := by
  have hcollect : unspelledFaults (collect step {} (Line.ofLexemes lexemes)) =
      unspelledFaults (collect step {} (Line.ofLexemes lexemes')) := by
    rw [← collect_unspelled hstep, h.lines, collect_unspelled hstep]
  exact Prod.mk.inj hcollect

theorem constants_eq (h : SameMeaning lexemes lexemes') :
    (bind {} lexemes).symbols.constants = (bind {} lexemes').symbols.constants := by
  rw [constants_bind, constants_bind]
  exact (h.collect_eq Constants.collectStep_unspelled).1

theorem labels_eq (h : SameMeaning lexemes lexemes') :
    (bind {} lexemes).symbols.labels = (bind {} lexemes').symbols.labels := by
  rw [labels_bind, labels_bind, h.constants_eq]
  exact (h.collect_eq fun labels => Labels.collectStep_unspelled labels _).1

theorem inlined_eq (h : SameMeaning lexemes lexemes') :
    (inlinedLines (bind {} lexemes).symbols.constants (Line.ofLexemes lexemes)).map
        Line.unspelled =
      (inlinedLines (bind {} lexemes').symbols.constants (Line.ofLexemes lexemes')).map
        Line.unspelled := by
  rw [h.constants_eq]
  exact map_unspelled_inlinedLines _ h.lines

/-- The same faults are found before records are made. -/
theorem faults_eq (h : SameMeaning lexemes lexemes') :
    (faultsOf (bind {} lexemes).remarks).map Fault.unspelled =
      (faultsOf (bind {} lexemes').remarks).map Fault.unspelled := by
  have hdefined := (h.collect_eq Constants.collectStep_unspelled).2
  have hdeclared := (h.collect_eq fun labels =>
    Labels.collectStep_unspelled labels (bind {} lexemes').symbols.constants).2
  rw [faultsOf_remarks_bind, faultsOf_remarks_bind, h.labels_eq, h.constants_eq]
  simp only [List.map_append, h.readingFaults, hdefined]
  congr 1
  exact map_unspelled_lineFaults _ (map_unspelled_inlinedLines _ h.lines) hdeclared

/-- The lines are the same without spelling when their names are replaced. -/
theorem bound_eq (h : SameMeaning lexemes lexemes') :
    (bind {} lexemes).lines.map Line.unspelled = (bind {} lexemes').lines.map Line.unspelled := by
  have hbound : ∀ (labels : Labels) (ls : List Line),
      (ls.map labels.bind).map Line.unspelled = (ls.map Line.unspelled).map labels.bind := by
    intro labels ls
    rw [List.map_map, List.map_map]
    exact List.map_congr_left fun l _ => (labels.bind_unspelled l).symm
  have hlines : ∀ ls : List Lexeme, (bind {} ls).lines =
      (inlinedLines (bind {} ls).symbols.constants (Line.ofLexemes ls)).map
        (bind {} ls).symbols.labels.bind := fun _ => rfl
  rw [hlines, hlines, hbound, hbound, h.inlined_eq, h.labels_eq]

/-- Programs of the same meaning have the same records but for columns, or the same faults. -/
theorem outcome (h : SameMeaning lexemes lexemes') :
    SameResult (fun records records' =>
        records.map Record.unspelled = records'.map Record.unspelled)
      (resolve {} lexemes).outcome (resolve {} lexemes').outcome := by
  have hmade : (faultsOf ((bind {} lexemes).lines.flatMap Line.recordRemarks)).map
        Fault.unspelled =
      (faultsOf ((bind {} lexemes').lines.flatMap Line.recordRemarks)).map Fault.unspelled := by
    rw [faultsOf, faultsOf, List.filterMap_flatMap, List.filterMap_flatMap]
    exact map_flatMap_of_unspelled Line.faultsOf_recordRemarks_unspelled h.bound_eq
  have hrecords : ((bind {} lexemes).lines.flatMap
        (Line.records (bind {} lexemes).symbols.labels)).map Record.unspelled =
      ((bind {} lexemes').lines.flatMap
        (Line.records (bind {} lexemes').symbols.labels)).map Record.unspelled := by
    rw [h.labels_eq]
    exact map_flatMap_of_unspelled (fun l => l.records_unspelled _) h.bound_eq
  rw [outcome_eq, outcome_eq]
  exact .unlessFaults h.faults_eq (.unlessFaults hmade (.ok hrecords))

end SameMeaning

end Program

/-! ## Linking -/

/-- A patch without its column. -/
def Patch.unspelled (p : Patch) : Patch := { p with pos := p.pos.rowOnly }

namespace Patch

variable (p : Patch) (names : List String) (labels : LabelAddresses)

theorem complete_unspelled :
    p.unspelled.complete names labels = (p.complete names labels).mapError Fault.unspelled := by
  obtain ⟨address, label, kind, pos⟩ := p
  simp only [complete, unspelled]
  cases labels.lookup label with
  | none => rfl
  | some target =>
    cases kind with
    | word => rfl
    | half half => rfl
    | displacement =>
      simp only [displacement]
      cases displacementByte? ((target.toNat : Int) - ((address.toNat : Int) + 1)) with
      | some b => rfl
      | none => rfl

theorem stores_unspelled : p.unspelled.stores names labels = p.stores names labels := by
  rw [stores, stores, complete_unspelled]
  cases p.complete names labels with
  | ok _ => rfl
  | error _ => rfl

theorem fault?_unspelled :
    p.unspelled.fault? names labels = (p.fault? names labels).map Fault.unspelled := by
  rw [fault?, fault?, complete_unspelled]
  cases p.complete names labels with
  | ok _ => rfl
  | error _ => rfl

end Patch

namespace Emission

/-- A state of laying out records without spelling and columns. -/
def unspelled (e : Emission) : Emission :=
  { e with
    patches := e.patches.map Patch.unspelled
    faults := e.faults.map Fault.unspelled }

@[simp] theorem spans_unspelled (e : Emission) : e.unspelled.spans = e.spans := rfl

theorem patch?_unspelled (item : Item) (location : Nat) (pos : Position) :
    item.patch? location pos.rowOnly = (item.patch? location pos).map Patch.unspelled := by
  cases item with
  | operation instruction opcode operand => cases operand <;> rfl
  | _ => rfl

theorem place_unspelled (e : Emission) (r : Record) :
    (e.place r).unspelled = e.unspelled.place r.unspelled := by
  -- Where a record lies is a matter of its item, and only faults and patches know a place.
  have hoverflows : e.unspelled.overflows r.unspelled = e.overflows r := rfl
  have hpatches : (e.patches ++ (r.item.patch? e.location r.pos).toList).map Patch.unspelled =
      e.patches.map Patch.unspelled ++
        (r.item.patch? e.location r.pos.rowOnly).toList := by
    rw [patch?_unspelled]
    cases r.item.patch? e.location r.pos with
    | none => simp
    | some p => simp
  rw [place, place, hoverflows]
  split
  · simp [unspelled, Record.unspelled, Fault.unspelled, Cause.unspelled]
  · simp only [unspelled, hpatches]
    rfl

theorem ofRecords_unspelled (origin : UInt16) (records : List Record) :
    (ofRecords origin records).unspelled = ofRecords origin (records.map Record.unspelled) := by
  have hfoldl : ∀ e : Emission,
      (records.foldl place e).unspelled =
        (records.map Record.unspelled).foldl place e.unspelled := by
    induction records with
    | nil => exact fun _ => rfl
    | cons r rest ih =>
      intro e
      rw [List.foldl_cons, ih, place_unspelled, List.map_cons, List.foldl_cons]
  have hstart : unspelled { location := origin.toNat } = { location := origin.toNat } := by
    simp [unspelled]
  rw [ofRecords, hfoldl, hstart, ofRecords]

theorem allFaults_unspelled (e : Emission) (names : List String) :
    (e.allFaults names).map Fault.unspelled = e.unspelled.allFaults names := by
  simp only [allFaults, unspelled, Array.toList_map, List.map_append, List.filterMap_map,
    List.map_filterMap]
  congr 1
  exact List.filterMap_congr fun p _ => (p.fault?_unspelled names e.labels).symm

theorem finalBytes_unspelled (e : Emission) (origin : UInt16) (names : List String) :
    e.unspelled.finalBytes origin names = e.finalBytes origin names := by
  have hcompletions : e.unspelled.completions names = e.completions names := by
    simp only [completions, unspelled, Array.toList_map, List.flatMap_map]
    exact List.flatMap_congr fun p _ => p.stores_unspelled names e.labels
  rw [finalBytes, finalBytes, hcompletions]
  rfl

end Emission

theorem link_eq_unlessFaults (origin : UInt16) (names : List String) (records : List Record) :
    link origin names records =
      unlessFaults ((Emission.ofRecords origin records).allFaults names)
        (.ok ⟨origin, (Emission.ofRecords origin records).finalBytes origin names,
          (Emission.ofRecords origin records).spans.toList⟩) := by
  simp only [link]
  split
  case h_1 hnone => rw [hnone]; rfl
  case h_2 hfaults => exact (if_neg hfaults).symm

/-- Records that differ in columns only have the same image or the same faults. -/
theorem link_of_map_unspelled {records records' : List Record}
    (h : records.map Record.unspelled = records'.map Record.unspelled) (origin : UInt16)
    (names : List String) :
    SameResult Eq (link origin names records) (link origin names records') := by
  have hemission : (Emission.ofRecords origin records).unspelled =
      (Emission.ofRecords origin records').unspelled := by
    rw [Emission.ofRecords_unspelled, h, Emission.ofRecords_unspelled]
  rw [link_eq_unlessFaults, link_eq_unlessFaults]
  refine .unlessFaults ?_ (.ok ?_)
  · rw [Emission.allFaults_unspelled, hemission, Emission.allFaults_unspelled]
  · have hspans := congrArg Emission.spans hemission
    rw [Emission.spans_unspelled, Emission.spans_unspelled] at hspans
    rw [← Emission.finalBytes_unspelled, hemission, Emission.finalBytes_unspelled, hspans]

/-! ## Assembling -/

/-- Only meaning matters: sources that differ in letters, bases of numerals, columns, blanks and
comments have the same image or, but for what they quote and their columns, the same faults. -/
theorem assemble_respelled (s s' : Source) (origin : UInt16) {lexemes lexemes' : List Lexeme}
    (hlexemes : s.lexemes = .ok lexemes) (hlexemes' : s'.lexemes = .ok lexemes')
    (h : s.Respelled s') : SameResult Eq (assemble s origin) (assemble s' origin) := by
  have hmeaning : Program.SameMeaning lexemes lexemes' := by
    rw [Source.lexemes_eq hlexemes, Source.lexemes_eq hlexemes']
    constructor
    · rw [Line.map_unspelled_ofLexemes, Line.map_unspelled_ofLexemes, wordRows_ofSource,
        wordRows_ofSource, h.map_meaning_words]
    · rw [Line.map_unspelled_readingFaults, Line.map_unspelled_readingFaults, wordRows_ofSource,
        wordRows_ofSource, h.map_meaning_words]
  rw [assemble, assemble, hlexemes, hlexemes']
  -- The records are linked with the names of the labels, which are the same.
  apply hmeaning.outcome.bind
  intro records records' hrecords
  rw [Program.symbols_resolve, Program.symbols_resolve, hmeaning.labels_eq]
  exact link_of_map_unspelled hrecords origin _

/-- A loop that reads beyond memory. -/
def wideLoop : Source where
  name := "wide.s"
  rows := ["Loop: LDA $1FFFF", "JMP loop"]

/-- The program `wideLoop` in other letters, columns and numerals. -/
def wideLoopRespelled : Source where
  name := "other.s"
  rows := ["  loop: lda 131071 ; too large", "jmp LOOP"]

theorem assemble_wideLoop :
    wideLoop.Respelled wideLoopRespelled ∧
      SameResult Eq (assemble wideLoop 0x0600) (assemble wideLoopRespelled 0x0600) := by
  have hlexemes : wideLoop.lexemes = .ok (Lexeme.ofSource wideLoop) := by decide +kernel
  have hlexemes' : wideLoopRespelled.lexemes = .ok (Lexeme.ofSource wideLoopRespelled) := by
    decide +kernel
  have hrespelled : wideLoop.Respelled wideLoopRespelled := by decide +kernel
  exact ⟨hrespelled, assemble_respelled _ _ _ hlexemes hlexemes' hrespelled⟩

end Assembler65
