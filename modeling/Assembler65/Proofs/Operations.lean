import Assembler65.Proofs.OperandForms
import Assembler65.Proofs.Symbols

/-!
# Operations and their operands

A chosen addressing mode is one that the mnemonic has, so that every choice makes an operation
(`operationItem_eq_ok_iff`), and the labels in the operand are those of its tokens in order
(`labels_of_chooseMode`). The tokens of an operand are known exactly if every reference is to a
label (`operand?_eq_some_iff`).
-/

set_option autoImplicit false

namespace Assembler65

/-! ## The choice of a mode -/

/-- Every choice of a mode has an opcode. -/
theorem exists_encode_of_chooseMode {m : Mnemonic} {pos : Position} {tokens : List Token}
    {mode : Mode} {operand : Operand} (h : chooseMode m pos tokens = .ok (mode, operand)) :
    ∃ code, encode m mode = some code := by
  obtain ⟨-, -, -, hsupports⟩ := exists_operandForm h
  exact Option.isSome_iff_exists.1 hsupports

theorem operationItem_eq_ok_iff {m : Mnemonic} {pos : Position} {tokens : List Token}
    {item : Item} :
    operationItem m pos tokens = .ok item ↔
      ∃ mode operand code, chooseMode m pos tokens = .ok (mode, operand) ∧
        encode m mode = some code ∧ item = .operation ⟨m, mode⟩ code operand := by
  rw [operationItem]
  cases hchoice : chooseMode m pos tokens with
  | error fault => simp [bind, Except.bind]
  | ok choice =>
    obtain ⟨mode, operand⟩ := choice
    obtain ⟨code, hcode⟩ := exists_encode_of_chooseMode hchoice
    simp [bind, Except.bind, hcode, eq_comm]

/-! ## Labels in operands -/

/-- The label that a token is. -/
def TokenKind.label? : TokenKind → Option Nat
  | .label index => some index
  | _ => none

/-- The labels in a value. -/
def OperandValue.labels : OperandValue → List Nat
  | .number _ => []
  | .label index => [index]

/-- The labels in a shape. -/
def OperandShape.labels : OperandShape → List Nat
  | .empty | .accumulator | .immediate _ => []
  | .direct v | .indexedX v | .indexedY v | .pair _ v | .immediateHalf _ v | .indirect v
  | .indirectIndexed v | .indexedIndirect v => v.labels

theorem TokenKind.labels_of_value? {kind : TokenKind} {v : OperandValue}
    (h : kind.value? = some v) : v.labels = kind.label?.toList := by
  cases kind with
  | number n => cases h; rfl
  | label index => cases h; rfl
  | _ => cases h

/-- A shape made around a value has the labels of the value. -/
theorem OperandShape.labels_of_value? {make : OperandValue → OperandShape} {kind : TokenKind}
    {shape : OperandShape} (before after : List TokenKind)
    (hmake : ∀ v, (make v).labels = v.labels) (hbefore : before.filterMap TokenKind.label? = [])
    (hafter : after.filterMap TokenKind.label? = []) (h : kind.value?.map make = some shape) :
    shape.labels = (before ++ kind :: after).filterMap TokenKind.label? := by
  obtain ⟨v, hv, rfl⟩ := Option.map_eq_some_iff.1 h
  rw [hmake, TokenKind.labels_of_value? hv, List.filterMap_append, hbefore, List.nil_append,
    List.filterMap_cons, hafter]
  cases kind.label? with
  | none => rfl
  | some index => rfl

theorem OperandShape.labels_of_ofKinds? {kinds : List TokenKind} {shape : OperandShape}
    (h : OperandShape.ofKinds? kinds = some shape) :
    shape.labels = kinds.filterMap TokenKind.label? := by
  unfold OperandShape.ofKinds? at h
  split at h
  -- One case for each form of operand, with the kinds before and after the value.
  case h_1 => cases h; rfl
  case h_2 => cases h; rfl
  case h_3 => exact labels_of_value? [] [] (fun _ => rfl) rfl rfl h
  case h_4 => exact labels_of_value? [] [.comma, .register .x] (fun _ => rfl) rfl rfl h
  case h_5 => exact labels_of_value? [] [.comma, .register .y] (fun _ => rfl) rfl rfl h
  case h_6 => exact labels_of_value? [.number _, .comma] [] (fun _ => rfl) rfl rfl h
  case h_7 => cases h; rfl
  case h_8 => exact labels_of_value? [.hash, .less] [] (fun _ => rfl) rfl rfl h
  case h_9 => exact labels_of_value? [.hash, .greater] [] (fun _ => rfl) rfl rfl h
  case h_10 => exact labels_of_value? [.leftParen] [.rightParen] (fun _ => rfl) rfl rfl h
  case h_11 =>
    exact labels_of_value? [.leftParen] [.rightParen, .comma, .register .y] (fun _ => rfl) rfl rfl h
  case h_12 =>
    exact labels_of_value? [.leftParen] [.comma, .register .x, .rightParen] (fun _ => rfl) rfl rfl h
  case h_13 => cases h

theorem AddressForm.labels {make : OperandValue → OperandShape} {short long : Mode}
    (h : AddressForm make short long) (v : OperandValue) : (make v).labels = v.labels := by
  cases h <;> rfl

/-- The operand of a form has the labels of the shape. -/
theorem OperandForm.labels_eq {shape : OperandShape} {mode : Mode} {operand : Operand}
    (h : OperandForm shape mode operand) : operand.labels = shape.labels := by
  cases h with
  | short hform hfits => rw [hform.labels]; rfl
  | long n hform => rw [hform.labels]; rfl
  | label index hform => rw [hform.labels]; rfl
  | _ => rfl

/-- The labels of a chosen operand are those of its tokens. -/
theorem labels_of_chooseMode {m : Mnemonic} {pos : Position} {tokens : List Token} {mode : Mode}
    {operand : Operand} (h : chooseMode m pos tokens = .ok (mode, operand)) :
    operand.labels = tokens.filterMap fun t => t.kind.label? := by
  obtain ⟨shape, hshape, hform, -⟩ := exists_operandForm h
  rw [hform.labels_eq, OperandShape.labels_of_ofKinds? hshape, List.filterMap_map]
  rfl

/-! ## Tokens of operands -/

variable [Folding]

/-- A token once the labels are known. -/
def Token.bind (labels : Labels) (t : Token) : Token :=
  { t with kind := labels.bindKind t.kind }

@[simp] theorem Token.kind_bind (labels : Labels) (t : Token) :
    (t.bind labels).kind = labels.bindKind t.kind := rfl

@[simp] theorem Token.pos_bind (labels : Labels) (t : Token) : (t.bind labels).pos = t.pos := rfl

theorem Labels.bindKind_of_index? {labels : Labels} {name : String} {index : Nat}
    (h : labels.index? name = some index) : labels.bindKind (.reference name) = .label index := by
  rw [bindKind, h]

theorem Token.kind_bind_eq {labels : Labels} {t : Token} {kind : TokenKind} (hkind : t.kind = kind)
    (hkeep : labels.bindKind kind = kind) : (t.bind labels).kind = kind := by
  rw [Token.kind_bind, hkind, hkeep]

section Operands

variable {symbols : Symbols}

/-- In an operand a reference becomes a label, and all else stands as it is. -/
theorem operand?_eq {word : Lexeme} {t : Token} (h : Inlines symbols.constants word t) :
    word.operand? symbols =
      match t.kind with
      | .reference name =>
        (symbols.labels.index? name).map fun index => { t with kind := .label index }
      | _ => some t := by
  obtain ⟨⟨kind, text, pos⟩, hreads, rfl⟩ := h
  rw [Lexeme.operand?, Lexeme.token?_eq_some_iff_reads.2 hreads, Option.bind_some]
  cases kind with
  | identifier name =>
    simp only [TokenKind.known?, Token.inline, Constants.inlineKind]
    cases symbols.constants.find? name with
    | some value => rfl
    | none => exact Option.map_map _ _ _
  -- No word is read as a reference: references are made of names.
  | reference name => exact absurd hreads.spells id
  | _ => rfl

/-- A word has a token in an operand exactly if it is no reference or one to a label. -/
theorem operand?_eq_some_iff {word : Lexeme} {t t' : Token}
    (h : Inlines symbols.constants word t) :
    word.operand? symbols = some t' ↔
      t' = t.bind symbols.labels ∧
        ∀ name, t.kind = .reference name → symbols.labels.contains name = true := by
  rw [operand?_eq h]
  obtain ⟨kind, text, pos⟩ := t
  cases kind with
  | reference name =>
    constructor
    · intro h
      obtain ⟨index, hindex, rfl⟩ := Option.map_eq_some_iff.1 h
      refine ⟨by rw [Token.bind, Labels.bindKind_of_index? hindex], ?_⟩
      rintro _ ⟨rfl⟩
      exact SymbolTable.exists_index?_iff.1 ⟨index, hindex⟩
    · rintro ⟨rfl, hknown⟩
      obtain ⟨index, hindex⟩ := SymbolTable.exists_index?_iff.2 (hknown name rfl)
      simp only [hindex, Option.map_some, Token.bind, Labels.bindKind_of_index? hindex]
  | _ =>
    constructor
    · rintro ⟨rfl⟩
      exact ⟨rfl, nofun⟩
    · rintro ⟨rfl, -⟩
      rfl

/-- The words of an operand are known exactly if all references are to labels. -/
theorem forall₂_operand?_iff {words : List Lexeme} {tokens tokens' : List Token}
    (h : List.Forall₂ (Inlines symbols.constants) words tokens) :
    List.Forall₂ (fun word t => word.operand? symbols = some t) words tokens' ↔
      tokens' = tokens.map (Token.bind symbols.labels) ∧
        ∀ t ∈ tokens, ∀ name, t.kind = .reference name →
          symbols.labels.contains name = true := by
  induction h generalizing tokens' with
  | nil => simp
  | @cons word t words tokens hhead _ ih =>
    rw [List.forall₂_cons_left_iff, List.map_cons, List.forall_mem_cons]
    constructor
    · rintro ⟨t', rest', hoperand, hrest, rfl⟩
      obtain ⟨rfl, hknown⟩ := (operand?_eq_some_iff hhead).1 hoperand
      obtain ⟨rfl, hmore⟩ := ih.1 hrest
      exact ⟨rfl, hknown, hmore⟩
    · rintro ⟨rfl, hknown, hmore⟩
      exact ⟨_, _, (operand?_eq_some_iff hhead).2 ⟨rfl, hknown⟩, ih.2 ⟨rfl, hmore⟩, rfl⟩

/-- The label of a known word is the one that the word names. -/
theorem map_label?_bind {word : Lexeme} {t : Token} (h : Inlines symbols.constants word t)
    (hknown : ∀ name, t.kind = .reference name → symbols.labels.contains name = true) :
    (t.bind symbols.labels).kind.label?.map (fun index => symbols.labels.names[index]?) =
      (word.labelName? symbols.constants).map some := by
  rw [Lexeme.labelName?, Token.kind_bind, SymbolTable.contains]
  rcases h.cases_spells with ⟨hname, value, hfind, hkind⟩ | ⟨hname, hfind, hkind⟩ | ⟨hname, hspells⟩
  · rw [hkind, hname, hfind]
    rfl
  · obtain ⟨index, hindex⟩ := SymbolTable.exists_index?_iff.2 (hknown _ hkind)
    rw [hkind, hname, hfind, Labels.bindKind_of_index? hindex, TokenKind.label?, Option.map_some,
      SymbolTable.getElem?_names_of_index? hindex]
    rfl
  · -- A word that is no name is read as neither a reference nor a label.
    rw [hname]
    cases hkind : t.kind with
    | reference name => rw [hkind] at hspells; exact absurd hspells id
    | label index => rw [hkind] at hspells; exact absurd hspells id
    | _ => rfl

/-- The labels of known words are those that the words name, in order. -/
theorem labels_bind {words : List Lexeme} {tokens : List Token}
    (h : List.Forall₂ (Inlines symbols.constants) words tokens)
    (hknown : ∀ t ∈ tokens, ∀ name, t.kind = .reference name →
      symbols.labels.contains name = true) :
    ((tokens.map (Token.bind symbols.labels)).filterMap fun t => t.kind.label?).map
        (fun index => symbols.labels.names[index]?) =
      (words.filterMap (Lexeme.labelName? symbols.constants)).map some := by
  rw [List.filterMap_map, List.map_filterMap, List.map_filterMap]
  induction h with
  | nil => rfl
  | @cons word t words tokens hhead _ ih =>
    rw [List.forall_mem_cons] at hknown
    rw [List.filterMap_cons, List.filterMap_cons, ih hknown.2]
    have hword := map_label?_bind hhead hknown.1
    simp only [Function.comp_apply, hword]

end Operands

end Assembler65
