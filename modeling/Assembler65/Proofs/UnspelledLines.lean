import Assembler65.Proofs.AlikeLines
import Assembler65.Proofs.Spelling

/-!
# Checks without spelling

No step of resolving a program looks at spelling: on a line without spelling it gives what it gives
on the line, but for the spelling of its faults. So lines that are equal without spelling have the
same symbols, the same faults without spelling, and the same records but for columns.
-/

set_option autoImplicit false

namespace Assembler65

/-- A record without its column. -/
def Record.unspelled (r : Record) : Record := ⟨r.pos.rowOnly, r.item⟩

/-- A result without the spelling of its faults. -/
def unspelledFaults {α : Type} (result : α × List Fault) : α × List Fault :=
  (result.1, result.2.map Fault.unspelled)

/-! ## Faults -/

@[simp] theorem TokenKind.description_unspelled (kind : TokenKind) :
    kind.unspelled.description = kind.description := by
  cases kind <;> rfl

theorem expectedFault_unspelled (finish : Position) (rest : List Token) (wanted : String) :
    (expectedFault finish.rowOnly (rest.map Token.unspelled) wanted).unspelled =
      (expectedFault finish rest wanted).unspelled := by
  cases rest with
  | nil => rfl
  | cons t rest =>
    simp [expectedFault, upcoming, Token.unspelled, Fault.unspelled, Cause.unspelled,
      Position.rowOnly]

namespace Line

variable (l : Line)

@[simp] theorem tokens_unspelled : l.unspelled.tokens = l.tokens.map Token.unspelled := rfl

@[simp] theorem finish_unspelled : l.unspelled.finish = l.finish.rowOnly := rfl

theorem expected_unspelled (index : Nat) (wanted : String) :
    (l.unspelled.expected index wanted).unspelled = (l.expected index wanted).unspelled := by
  rw [expected, tokens_unspelled, ← List.map_drop]
  exact expectedFault_unspelled l.finish _ wanted

/-! ## Definitions -/

theorem isDefinition_unspelled : l.unspelled.isDefinition = l.isDefinition := by
  rw [isDefinition, isDefinition, tokens_unspelled]
  cases l.tokens with
  | nil => rfl
  | cons t rest =>
    obtain ⟨kind, text, pos⟩ := t
    cases kind with
    | directive d => cases d <;> rfl
    | _ => rfl

theorem definedValue_unspelled :
    unspelledFaults l.unspelled.definedValue = unspelledFaults l.definedValue := by
  have hexpected : unspelledFaults (none, [l.unspelled.expected 2 "A NUMBER"]) =
      unspelledFaults ((none : Option UInt16), [l.expected 2 "A NUMBER"]) := by
    simp [unspelledFaults, expected_unspelled]
  rw [definedValue, definedValue, tokens_unspelled, ← List.map_drop]
  cases l.tokens.drop 2 with
  | nil => exact hexpected
  | cons t rest =>
    obtain ⟨kind, text, pos⟩ := t
    cases kind with
    | number n =>
      simp only [List.map_cons, Token.unspelled, TokenKind.unspelled]
      cases Numeral.word? n with
      | some value => rfl
      | none => rfl
    | _ => exact hexpected

theorem definitionExcess_unspelled :
    l.unspelled.definitionExcess.map Fault.unspelled =
      l.definitionExcess.map Fault.unspelled := by
  rw [definitionExcess, definitionExcess, tokens_unspelled, List.length_map]
  split
  · rw [List.map_singleton, expected_unspelled, List.map_singleton]
  · rfl

end Line

/-! ## Symbols -/

namespace SymbolTable

variable {α : Type} (t : SymbolTable α) (name : String)

@[simp] theorem find?_key : t.find? (key name) = t.find? name := by rw [find?, find?, key_key]

@[simp] theorem contains_key : t.contains (key name) = t.contains name := by
  rw [contains, contains, find?_key]

@[simp] theorem index?_key : t.index? (key name) = t.index? name := by
  rw [index?, index?, key_key]

@[simp] theorem insert_key (value : α) : t.insert (key name) value = t.insert name value := by
  rw [insert, insert, key_key]

end SymbolTable

@[simp] theorem isReserved_key (name : String) :
    isReserved (SymbolTable.key name) = isReserved name := by
  rw [isReserved, isReserved, Register.parse?_key, Mnemonic.parse?_key]

/-- A step that does not look at spelling collects the same symbols from lines without it. -/
theorem collect_unspelled {α : Type} {step : SymbolTable α → Line → SymbolTable α × List Fault}
    (hstep : ∀ table l, unspelledFaults (step table l.unspelled) = unspelledFaults (step table l))
    (table : SymbolTable α) (lines : List Line) :
    unspelledFaults (collect step table (lines.map Line.unspelled)) =
      unspelledFaults (collect step table lines) := by
  induction lines generalizing table with
  | nil => rfl
  | cons l rest ih =>
    -- The table behind the first line is the same, so that the induction goes on with it.
    obtain ⟨htable, hfaults⟩ := Prod.mk.inj (hstep table l)
    obtain ⟨hrest, hmore⟩ := Prod.mk.inj (ih (step table l).1)
    rw [List.map_cons, collect_cons, collect_cons, unspelledFaults, unspelledFaults]
    simp only [List.map_append, htable, hfaults, hrest, hmore]

namespace Constants

variable (constants : Constants)

theorem define_unspelled (l : Line) :
    unspelledFaults ((constants.define l.unspelled).1,
        Program.faultsOf (constants.define l.unspelled).2) =
      unspelledFaults ((constants.define l).1, Program.faultsOf (constants.define l).2) := by
  have hexpected : unspelledFaults (constants,
        Program.faultsOf [.faultFound (l.unspelled.expected 1 "An IDENTIFIER")]) =
      unspelledFaults (constants,
        Program.faultsOf [.faultFound (l.expected 1 "An IDENTIFIER")]) := by
    simp [unspelledFaults, Program.faultsOf, Remark.fault?, Line.expected_unspelled]
  obtain ⟨hvalue, hfaults⟩ := Prod.mk.inj l.definedValue_unspelled
  rw [define, define, Line.tokens_unspelled, ← List.map_drop]
  cases l.tokens.drop 1 with
  | nil => exact hexpected
  | cons t rest =>
    obtain ⟨kind, text, pos⟩ := t
    cases kind with
    | identifier name =>
      simp only [List.map_cons, Token.unspelled, TokenKind.unspelled, SymbolTable.contains_key,
        SymbolTable.insert_key, hvalue]
      split
      · simp only [unspelledFaults, Program.faultsOf_append, Program.faultsOf_map_faultFound,
          List.map_append, hfaults, l.definitionExcess_unspelled]
        simp [Program.faultsOf, Remark.fault?, Fault.unspelled, Cause.unspelled, Position.rowOnly]
      · simp only [unspelledFaults, Program.faultsOf_append, Program.faultsOf_map_faultFound,
          List.map_append, hfaults, l.definitionExcess_unspelled, SymbolTable.key_key]
    | _ => exact hexpected

theorem collectStep_unspelled (l : Line) :
    unspelledFaults (collectStep constants l.unspelled) =
      unspelledFaults (collectStep constants l) := by
  rw [collectStep, collectStep, Line.isDefinition_unspelled]
  split
  · exact constants.define_unspelled l
  · rfl

theorem inlineKind_unspelled (kind : TokenKind) :
    constants.inlineKind kind.unspelled = (constants.inlineKind kind).unspelled := by
  cases kind with
  | identifier name =>
    rw [TokenKind.unspelled, inlineKind, inlineKind, SymbolTable.find?_key]
    cases constants.find? name with
    | some value => rfl
    | none => rfl
  | _ => rfl

theorem inline_unspelled (l : Line) :
    constants.inline l.unspelled = (constants.inline l).unspelled := by
  simp [inline, Line.unspelled, Token.unspelled, Function.comp_def, inlineKind_unspelled]

end Constants

namespace Labels

variable (labels : Labels)

theorem declare_unspelled (l : Line) :
    unspelledFaults (labels.declare l.unspelled) = unspelledFaults (labels.declare l) := by
  rw [declare, declare, Line.tokens_unspelled]
  cases l.tokens with
  | nil => rfl
  | cons t rest =>
    obtain ⟨kind, text, pos⟩ := t
    cases kind with
    | declaration name =>
      simp only [List.map_cons, Token.unspelled, TokenKind.unspelled, isReserved_key,
        SymbolTable.find?_key, SymbolTable.insert_key]
      split
      · simp [unspelledFaults, Fault.unspelled, Cause.unspelled, Position.rowOnly]
      · cases labels.find? name with
        | some row => simp [unspelledFaults, Fault.unspelled, Cause.unspelled, Position.rowOnly]
        | none => rfl
    | _ => rfl

theorem collectStep_unspelled (constants : Constants) (l : Line) :
    unspelledFaults (collectStep constants labels l.unspelled) =
      unspelledFaults (collectStep constants labels l) := by
  rw [collectStep, collectStep, Line.isDefinition_unspelled, Constants.inline_unspelled]
  split
  · rfl
  · exact labels.declare_unspelled _

theorem bindKind_unspelled (kind : TokenKind) :
    labels.bindKind kind.unspelled = (labels.bindKind kind).unspelled := by
  cases kind with
  | reference name =>
    rw [TokenKind.unspelled, bindKind, bindKind, SymbolTable.index?_key]
    cases labels.index? name with
    | some index => rfl
    | none => rfl
  | _ => rfl

theorem bind_unspelled (l : Line) : labels.bind l.unspelled = (labels.bind l).unspelled := by
  simp [bind, Line.unspelled, Token.unspelled, Function.comp_def, bindKind_unspelled]

end Labels

/-! ## Operands of directives -/

theorem originOperand_unspelled (finish : Position) (tokens : List Token) :
    unspelledFaults (originOperand finish.rowOnly (tokens.map Token.unspelled)) =
      unspelledFaults (originOperand finish tokens) := by
  have hexpected : ∀ (rest : List Token) (wanted : String),
      [expectedFault finish.rowOnly (rest.map Token.unspelled) wanted].map Fault.unspelled =
        [expectedFault finish rest wanted].map Fault.unspelled :=
    fun rest wanted => congrArg (fun f => [f]) (expectedFault_unspelled finish rest wanted)
  cases tokens with
  | nil => exact Prod.ext rfl (hexpected [] _)
  | cons t rest =>
    obtain ⟨kind, text, pos⟩ := t
    cases kind with
    | equal =>
      cases rest with
      | nil => exact Prod.ext rfl (hexpected [] _)
      | cons u rest =>
        obtain ⟨kind', text', pos'⟩ := u
        cases kind' with
        | number n =>
          cases rest with
          | nil => rfl
          | cons v rest => exact Prod.ext rfl (hexpected (v :: rest) _)
        | _ => exact Prod.ext rfl (hexpected (_ :: rest) _)
    | _ => exact Prod.ext rfl (hexpected (_ :: rest) _)

theorem TokenKind.dataValues?_unspelled (kind : TokenKind) :
    kind.unspelled.dataValues? = kind.dataValues? := by
  cases kind <;> rfl

theorem Token.dataFaults_unspelled (limit : Nat) (t : Token) :
    (t.unspelled.dataFaults limit).map Fault.unspelled =
      (t.dataFaults limit).map Fault.unspelled := by
  obtain ⟨kind, text, pos⟩ := t
  cases kind with
  | number n =>
    simp only [dataFaults, unspelled, TokenKind.unspelled]
    split <;> rfl
  | string characters =>
    simp [dataFaults, unspelled, TokenKind.unspelled, Function.comp_def, Fault.unspelled,
      Cause.unspelled, Position.rowOnly]
  | _ => rfl

theorem dataList_unspelled (limit : Nat) (finish : Position) (tokens : List Token) :
    unspelledFaults (dataList limit finish.rowOnly (tokens.map Token.unspelled)) =
      unspelledFaults (dataList limit finish tokens) := by
  have hvalues : ∀ t : Token, t.unspelled.kind.dataValues? = t.kind.dataValues? :=
    fun t => t.kind.dataValues?_unspelled
  fun_induction dataList limit finish tokens with
  | case1 => rfl
  | case2 t rest hnone =>
    have hexpected := expectedFault_unspelled finish (t :: rest) "A NUMBER or STRING"
    rw [List.map_cons] at hexpected ⊢
    simp only [dataList, hvalues, hnone, unspelledFaults, List.map_singleton, hexpected]
  | case3 t own hown =>
    simp only [List.map_singleton, dataList, hvalues, hown, unspelledFaults,
      t.dataFaults_unspelled]
    rfl
  | case4 t own hown _ _ text pos rest others more hrest ih =>
    rw [hrest] at ih
    obtain ⟨hothers, hmore⟩ := Prod.mk.inj ih
    have hcomma : Token.unspelled ⟨.comma, text, pos⟩ = ⟨.comma, "", pos.rowOnly⟩ := rfl
    simp only [List.map_cons, hcomma, dataList, hvalues, hown, unspelledFaults, List.map_append,
      hothers, hmore, t.dataFaults_unspelled]
    rfl
  | case5 t own hown _ rest hne hcomma =>
    have hexpected := expectedFault_unspelled finish rest "A COMMA or NEW LINE"
    have hfaults := t.dataFaults_unspelled limit
    have hown' := (hvalues t).trans hown
    -- The element is kept as a whole: only the token behind it has to be opened.
    rw [List.map_cons]
    generalize t.unspelled = t' at hfaults hown'
    cases rest with
    | nil => exact absurd rfl hne
    | cons u rest =>
      obtain ⟨kind, text, pos⟩ := u
      cases kind with
      | comma => exact absurd rfl (hcomma text pos rest)
      | _ =>
        simp only [List.map_cons, Token.unspelled, TokenKind.unspelled] at hexpected ⊢
        simp only [dataList, hown', unspelledFaults, List.map_append, hfaults, List.map_singleton,
          hexpected]
        rfl

namespace Line

variable (l : Line)

theorem statement_unspelled : l.unspelled.statement = l.statement.map Token.unspelled := by
  have hhead : l.unspelled.head = l.head := by
    rw [head, head, tokens_unspelled]
    cases l.tokens with
    | nil => rfl
    | cons t rest =>
      obtain ⟨kind, text, pos⟩ := t
      cases kind <;> rfl
  rw [statement, statement, hhead, tokens_unspelled, List.map_drop]

theorem gatherOrigin_unspelled :
    unspelledFaults l.unspelled.gatherOrigin = unspelledFaults l.gatherOrigin := by
  rw [gatherOrigin, gatherOrigin, statement_unspelled, finish_unspelled]
  cases l.statement with
  | nil => rfl
  | cons t rest =>
    obtain ⟨kind, text, pos⟩ := t
    cases kind with
    | directive d =>
      cases d with
      | origin =>
        obtain ⟨haddress, hfaults⟩ := Prod.mk.inj (originOperand_unspelled l.finish rest)
        simp only [List.map_cons, Token.unspelled, TokenKind.unspelled, unspelledFaults, haddress,
          hfaults]
      | _ => rfl
    | _ => rfl

theorem gatherData_unspelled :
    unspelledFaults l.unspelled.gatherData = unspelledFaults l.gatherData := by
  rw [gatherData, gatherData, statement_unspelled, finish_unspelled]
  cases l.statement with
  | nil => rfl
  | cons t rest =>
    obtain ⟨kind, text, pos⟩ := t
    cases kind with
    | directive d =>
      cases d with
      | bytes =>
        obtain ⟨hvalues, hfaults⟩ :=
          Prod.mk.inj (dataList_unspelled Numeral.byteLimit l.finish rest)
        simp only [List.map_cons, Token.unspelled, TokenKind.unspelled, unspelledFaults, hvalues,
          hfaults]
      | words =>
        obtain ⟨hvalues, hfaults⟩ :=
          Prod.mk.inj (dataList_unspelled Numeral.wordLimit l.finish rest)
        simp only [List.map_cons, Token.unspelled, TokenKind.unspelled, unspelledFaults, hvalues,
          hfaults]
      | _ => rfl
    | _ => rfl

theorem gathered?_unspelled : l.unspelled.gathered? = l.gathered? := by
  have horigin := congrArg Prod.fst l.gatherOrigin_unspelled
  have hdata := congrArg Prod.fst l.gatherData_unspelled
  simp only [unspelledFaults] at horigin hdata
  rw [gathered?, gathered?, horigin, hdata]

/-! ## Forms of lines -/

theorem rangeFaults_unspelled :
    l.unspelled.rangeFaults.map Fault.unspelled = l.rangeFaults.map Fault.unspelled := by
  rw [rangeFaults, rangeFaults, tokens_unspelled, List.filterMap_map, List.map_filterMap,
    List.map_filterMap]
  apply List.filterMap_congr
  intro t _
  obtain ⟨kind, text, pos⟩ := t
  cases kind with
  | number n =>
    simp only [Function.comp_apply, Token.unspelled, TokenKind.unspelled]
    split <;> rfl
  | _ => rfl

theorem referenceFaults_unspelled (labels : Labels) :
    (l.unspelled.referenceFaults labels).map Fault.unspelled =
      (l.referenceFaults labels).map Fault.unspelled := by
  rw [referenceFaults, referenceFaults, gathered?_unspelled, tokens_unspelled]
  split
  · rfl
  · rw [List.filterMap_map, List.map_filterMap, List.map_filterMap]
    apply List.filterMap_congr
    intro t _
    obtain ⟨kind, text, pos⟩ := t
    cases kind with
    | reference name =>
      simp only [Function.comp_apply, Token.unspelled, TokenKind.unspelled,
        SymbolTable.contains_key]
      split
      · rfl
      · simp [Fault.unspelled, Cause.unspelled, Position.rowOnly]
    | _ => rfl

theorem headFaults_unspelled :
    l.unspelled.headFaults.map Fault.unspelled = l.headFaults.map Fault.unspelled := by
  have hexpected : [l.unspelled.expected 1 "An OPCODE or DIRECTIVE"].map Fault.unspelled =
      [l.expected 1 "An OPCODE or DIRECTIVE"].map Fault.unspelled :=
    congrArg (fun f => [f]) (l.expected_unspelled 1 _)
  rw [headFaults, headFaults, tokens_unspelled]
  cases l.tokens with
  | nil => rfl
  | cons t rest =>
    obtain ⟨kind, text, pos⟩ := t
    cases kind with
    | declaration name =>
      cases rest with
      | nil => rfl
      | cons u rest =>
        obtain ⟨kind', text', pos'⟩ := u
        cases kind' with
        | opcode m => rfl
        | directive d =>
          cases d with
          | define => exact hexpected
          | _ => rfl
        | _ => exact hexpected
    | _ => rfl

end Line

/-! ## Operands of instructions -/

theorem TokenKind.unspelled_of_isNamed {kind : TokenKind} (h : kind.isNamed = false) :
    kind.unspelled = kind := by
  cases kind with
  | declaration _ | identifier _ | reference _ => cases h
  | _ => rfl

theorem TokenKind.isNamed_unspelled (kind : TokenKind) : kind.unspelled.isNamed = kind.isNamed := by
  cases kind <;> rfl

theorem TokenKind.isNamed_of_value? {kind : TokenKind} {v : OperandValue}
    (h : kind.value? = some v) : kind.isNamed = false := by
  cases kind with
  | number _ | label _ => rfl
  | _ => cases h

namespace OperandShape

/-- No operand holds a name that is neither a constant nor a label. -/
theorem isNamed_of_ofKinds? {kinds : List TokenKind} {shape : OperandShape}
    (h : ofKinds? kinds = some shape) : ∀ kind ∈ kinds, kind.isNamed = false := by
  have hvalue : ∀ {v : TokenKind} {make : OperandValue → OperandShape},
      v.value?.map make = some shape → v.isNamed = false := by
    intro v make hmap
    obtain ⟨value, hv, -⟩ := Option.map_eq_some_iff.1 hmap
    exact TokenKind.isNamed_of_value? hv
  unfold ofKinds? at h
  split at h
  case h_1 => simp
  case h_2 => simp [TokenKind.isNamed]
  case h_7 => simp [TokenKind.isNamed]
  case h_13 => cases h
  all_goals simpa [TokenKind.isNamed] using hvalue h

theorem ofKinds?_unspelled (kinds : List TokenKind) :
    ofKinds? (kinds.map TokenKind.unspelled) = ofKinds? kinds := by
  -- Kinds without names have no spelling, and with a name among them there is no shape.
  by_cases hnamed : ∀ kind ∈ kinds, kind.isNamed = false
  · have hsame : kinds.map TokenKind.unspelled = kinds := by
      rw [List.map_congr_left fun kind hkind => TokenKind.unspelled_of_isNamed (hnamed kind hkind)]
      exact List.map_id' kinds
    rw [hsame]
  · have hnone : ofKinds? kinds = none :=
      Option.eq_none_iff_forall_ne_some.2 fun shape h => hnamed (isNamed_of_ofKinds? h)
    have hnone' : ofKinds? (kinds.map TokenKind.unspelled) = none := by
      refine Option.eq_none_iff_forall_ne_some.2 fun shape h => hnamed fun kind hkind => ?_
      rw [← TokenKind.isNamed_unspelled]
      exact isNamed_of_ofKinds? h _ (List.mem_map_of_mem hkind)
    rw [hnone, hnone']

end OperandShape

theorem wideImmediate?_unspelled (tokens : List Token) :
    (wideImmediate? (tokens.map Token.unspelled)).map Fault.unspelled =
      (wideImmediate? tokens).map Fault.unspelled := by
  rcases tokens with _ | ⟨⟨kind, text, pos⟩, _ | ⟨⟨kind', text', pos'⟩, _ | ⟨t, rest⟩⟩⟩
  · rfl
  · cases kind <;> rfl
  · cases kind with
    | hash =>
      cases kind' with
      | number n =>
        simp only [List.map_cons, List.map_nil, Token.unspelled, TokenKind.unspelled,
          wideImmediate?]
        split <;> rfl
      | _ => rfl
    | _ => rfl
  · cases kind with
    | hash => cases kind' <;> rfl
    | _ => rfl

theorem chooseMode_unspelled (m : Mnemonic) (pos : Position) (tokens : List Token) :
    (chooseMode m pos.rowOnly (tokens.map Token.unspelled)).mapError Fault.unspelled =
      (chooseMode m pos tokens).mapError Fault.unspelled := by
  have hwide := wideImmediate?_unspelled tokens
  have hkinds : (tokens.map Token.unspelled).map Token.kind =
      (tokens.map Token.kind).map TokenKind.unspelled := by
    rw [List.map_map, List.map_map]
    rfl
  rw [chooseMode, chooseMode, hkinds, OperandShape.ofKinds?_unspelled]
  cases hfault : wideImmediate? tokens with
  | some fault =>
    rw [hfault] at hwide
    obtain ⟨fault', hfault', hsame⟩ := Option.map_eq_some_iff.1 hwide
    rw [hfault']
    exact congrArg Except.error hsame
  | none =>
    rw [hfault] at hwide
    rw [Option.map_eq_none_iff.1 hwide]
    cases OperandShape.ofKinds? (tokens.map Token.kind) with
    | none => rfl
    | some shape =>
      -- The cause of a choice that fails has no spelling.
      simp only
      cases (candidates m shape).bind (firstSupported m) with
      | error cause => rfl
      | ok choice => rfl

/-- Results that are equal without the spelling of faults are both equal or both faults. -/
theorem cases_of_mapError_unspelled {α : Type} {result result' : Except Fault α}
    (h : result.mapError Fault.unspelled = result'.mapError Fault.unspelled) :
    (∃ value, result = .ok value ∧ result' = .ok value) ∨
      ∃ f f', result = .error f ∧ result' = .error f' ∧ f.unspelled = f'.unspelled := by
  cases result with
  | ok value =>
    cases result' with
    | ok value' => exact .inl ⟨value, rfl, congrArg Except.ok (Except.ok.inj h).symm⟩
    | error f' => cases h
  | error f =>
    cases result' with
    | ok value' => cases h
    | error f' => exact .inr ⟨f, f', rfl, rfl, Except.error.inj h⟩

theorem operationItem_unspelled (m : Mnemonic) (pos : Position) (tokens : List Token) :
    (operationItem m pos.rowOnly (tokens.map Token.unspelled)).mapError Fault.unspelled =
      (operationItem m pos tokens).mapError Fault.unspelled := by
  rcases cases_of_mapError_unspelled (chooseMode_unspelled m pos tokens) with
    ⟨⟨mode, operand⟩, hchoice, hchoice'⟩ | ⟨f, f', hfault, hfault', hsame⟩
  · simp only [operationItem, hchoice, hchoice', bind, Except.bind]
    cases encode m mode with
    | some opcode => rfl
    | none => rfl
  · simp only [operationItem, hfault, hfault', bind, Except.bind]
    exact congrArg Except.error hsame

/-! ## Records -/

/-- A record without its column, or a fault without its spelling. -/
def unspelledRecord : Except Fault Record → Except Fault Record
  | .ok record => .ok record.unspelled
  | .error fault => .error fault.unspelled

/-- The record that has been made of a statement. -/
def madeRecord? : Option (Except Fault Record) → Option Record
  | some (.ok record) => some record
  | _ => none

/-- The fault of a statement that no record has been made of. -/
def madeFault? : Option (Except Fault Record) → Option Fault
  | some (.error fault) => some fault
  | _ => none

namespace Line

variable (l : Line)

theorem labelRecord?_unspelled (labels : Labels) :
    (l.unspelled.labelRecord? labels).map Record.unspelled =
      (l.labelRecord? labels).map Record.unspelled := by
  rw [labelRecord?, labelRecord?, tokens_unspelled]
  cases l.tokens with
  | nil => rfl
  | cons t rest =>
    obtain ⟨kind, text, pos⟩ := t
    cases kind with
    | declaration name =>
      simp only [List.map_cons, Token.unspelled, TokenKind.unspelled, SymbolTable.index?_key,
        Option.map_map]
      rfl
    | _ => rfl

theorem statementRecord?_unspelled :
    l.unspelled.statementRecord?.map unspelledRecord =
      l.statementRecord?.map unspelledRecord := by
  rw [statementRecord?, statementRecord?, statement_unspelled, gathered?_unspelled]
  cases l.statement with
  | nil => rfl
  | cons t rest =>
    obtain ⟨kind, text, pos⟩ := t
    cases kind with
    | opcode m =>
      simp only [List.map_cons, Token.unspelled, TokenKind.unspelled, Option.map_some]
      rcases cases_of_mapError_unspelled (operationItem_unspelled m pos rest) with
        ⟨item, hitem, hitem'⟩ | ⟨f, f', hfault, hfault', hsame⟩
      · rw [hitem, hitem']
        rfl
      · rw [hfault, hfault']
        exact congrArg (fun f => some (Except.error f)) hsame
    | _ => cases l.gathered? <;> rfl

theorem records_unspelled (labels : Labels) :
    (l.unspelled.records labels).map Record.unspelled =
      (l.records labels).map Record.unspelled := by
  have hrecords : ∀ k : Line, (k.records labels).map Record.unspelled =
      ((k.labelRecord? labels).map Record.unspelled).toList ++
        (madeRecord? (k.statementRecord?.map unspelledRecord)).toList := by
    intro k
    rw [records, List.map_append, Option.toList_map]
    rcases k.statementRecord? with _ | _ | record <;> rfl
  rw [hrecords, hrecords, labelRecord?_unspelled, statementRecord?_unspelled]

theorem faultsOf_recordRemarks_unspelled :
    (Program.faultsOf l.unspelled.recordRemarks).map Fault.unspelled =
      (Program.faultsOf l.recordRemarks).map Fault.unspelled := by
  have hfaults : ∀ k : Line, (Program.faultsOf k.recordRemarks).map Fault.unspelled =
      (madeFault? (k.statementRecord?.map unspelledRecord)).toList := by
    intro k
    rw [recordRemarks]
    rcases k.statementRecord? with _ | _ | record <;> rfl
  rw [hfaults, hfaults, statementRecord?_unspelled]

end Line

end Assembler65
