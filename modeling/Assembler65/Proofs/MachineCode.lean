import Assembler65.Proofs.AlikeLines
import Assembler65.Proofs.Disassembly
import Assembler65.Proofs.RecordRows

/-!
# Machine code line by line

A `CodedInstruction` is an opcode byte with the bytes of its operand. For an instruction that is no
branch, the tokens that its disassembly shows are read as the same instruction with a literal
operand (`CodedInstruction.IsLiteral.chooseMode_eq`), so that lines of such tokens give one record
for each instruction (`exists_records_of_instructions`).
-/

set_option autoImplicit false

namespace Assembler65

open Text

/-! ## Machine code -/

/-- An opcode byte with its instruction and the bytes of its operand. -/
structure CodedInstruction where
  instruction : Instruction
  code : UInt8
  operand : List UInt8
  decodes : decode code = some instruction
  length_operand : operand.length = instruction.mode.operandLength

/-- The zero-page mode of the same form as an absolute mode. -/
def Mode.zeroPageForm? : Mode → Option Mode
  | absolute => some zeroPage
  | absoluteX => some zeroPageX
  | absoluteY => some zeroPageY
  | absoluteIndirect => some zeroPageIndirect
  | absoluteIndexedIndirect => some zeroPageIndexedIndirect
  | _ => none

theorem AddressForm.zeroPageForm?_eq {make : OperandValue → OperandShape} {short long : Mode}
    (h : AddressForm make short long) : long.zeroPageForm? = some short := by
  cases h <;> rfl

namespace CodedInstruction

/-- The bytes of an instruction in memory. -/
def bytes (c : CodedInstruction) : List UInt8 := c.code :: c.operand

/-- The word that two operand bytes hold. -/
def word (c : CodedInstruction) : UInt16 := wordOfBytes (c.operand.getD 0 0) (c.operand.getD 1 0)

/-- An instruction that is no branch, and whose operand takes the absolute mode only where the
zero-page mode of the same form cannot take it. -/
structure IsLiteral (c : CodedInstruction) : Prop where
  ne_relative : c.instruction.mode ≠ .relative
  ne_zeroPageRelative : c.instruction.mode ≠ .zeroPageRelative
  no_zeroPageForm : ∀ short ∈ c.instruction.mode.zeroPageForm?,
    c.word.toNat ≤ 0xFF → c.instruction.mnemonic.supports short = false

instance (c : CodedInstruction) : Decidable c.IsLiteral :=
  decidable_of_iff
    (c.instruction.mode ≠ .relative ∧ c.instruction.mode ≠ .zeroPageRelative ∧
      ∀ short ∈ c.instruction.mode.zeroPageForm?,
        c.word.toNat ≤ 0xFF → c.instruction.mnemonic.supports short = false)
    ⟨fun h => ⟨h.1, h.2.1, h.2.2⟩, fun h => ⟨h.1, h.2, h.3⟩⟩

/-- The text of an instruction at an address. -/
def line (c : CodedInstruction) (location : Nat) : String :=
  plain (c.instruction.disassemble (UInt16.ofNat location) c.operand)

/-- The texts of instructions that stand one behind the other in memory. -/
def lines (location : Nat) : List CodedInstruction → List String
  | [] => []
  | c :: rest => c.line location :: lines (location + c.bytes.length) rest

end CodedInstruction

/-! ## The choice of the mode -/

namespace CodedInstruction

/-- The values in the text of an instruction that is no branch. -/
def values (c : CodedInstruction) : List Nat :=
  Instruction.shownValues c.instruction.mode 0 c.operand

/-- The operand of an instruction as a literal. -/
def literal (c : CodedInstruction) : Operand :=
  match c.instruction.mode.operandLength with
  | 0 => .none
  | 1 => .byte (c.operand.getD 0 0)
  | _ => .word c.word

/-- The tokens of an instruction. -/
def tokens (c : CodedInstruction) : List TokenKind :=
  .opcode c.instruction.mnemonic :: c.instruction.mode.operandTokens c.values

theorem supports_mode (c : CodedInstruction) :
    c.instruction.mnemonic.supports c.instruction.mode = true := by
  rw [Mnemonic.supports, decode_eq_some_iff.1 c.decodes]
  rfl

theorem IsLiteral.shownValues_eq {c : CodedInstruction} (h : c.IsLiteral) (pc : UInt16) :
    Instruction.shownValues c.instruction.mode pc c.operand = c.values := by
  rw [values]
  cases hmode : c.instruction.mode with
  | relative => exact absurd hmode h.ne_relative
  | zeroPageRelative => exact absurd hmode h.ne_zeroPageRelative
  | _ => rfl

/-- The tokens of the operand have a form in the mode of the instruction, in which the operand is a
literal and any address in an absolute mode is the word that it holds. -/
theorem IsLiteral.exists_operandForm {c : CodedInstruction} (h : c.IsLiteral) :
    ∃ shape, OperandShape.ofKinds? (c.instruction.mode.operandTokens c.values) = some shape ∧
      OperandForm shape c.instruction.mode c.literal ∧
      ∀ make short n, AddressForm make short c.instruction.mode → shape = make (.number n) →
        n = c.word.toNat := by
  have hbyte : (c.operand.getD 0 0).toNat ≤ Numeral.byteLimit :=
    Nat.le_of_lt_succ (UInt8.toNat_lt _)
  have hshort : ∀ {make : OperandValue → OperandShape} {short long : Mode},
      AddressForm make short long →
        OperandForm (make (.number (c.operand.getD 0 0).toNat)) short
          (.byte (c.operand.getD 0 0)) := by
    intro make short long haddress
    have hform := OperandForm.short haddress hbyte
    rwa [UInt8.ofNat_toNat] at hform
  have hlong : ∀ {make : OperandValue → OperandShape} {short long : Mode},
      AddressForm make short long →
        OperandForm (make (.number c.word.toNat)) long (.word c.word) := by
    intro make short long haddress
    have hform := OperandForm.long c.word.toNat haddress
    rwa [UInt16.ofNat_toNat] at hform
  obtain ⟨hrelative, hbitBranch, -⟩ := h
  rw [literal, values]
  generalize c.instruction.mode = mode at hrelative hbitBranch ⊢
  cases mode with
  | implied => exact ⟨_, rfl, .implied, nofun⟩
  | stack => exact ⟨_, rfl, .stack, nofun⟩
  | accumulator => exact ⟨_, rfl, .accumulator, nofun⟩
  | immediate =>
    have hform := OperandForm.immediate hbyte
    rw [UInt8.ofNat_toNat] at hform
    exact ⟨_, rfl, hform, nofun⟩
  | zeroPage => exact ⟨_, rfl, hshort .direct, nofun⟩
  | zeroPageX => exact ⟨_, rfl, hshort .indexedX, nofun⟩
  | zeroPageY => exact ⟨_, rfl, hshort .indexedY, nofun⟩
  | zeroPageIndirect => exact ⟨_, rfl, hshort .indirect, nofun⟩
  | zeroPageIndexedIndirect => exact ⟨_, rfl, hshort .indexedIndirect, nofun⟩
  | zeroPageIndirectIndexed =>
    have hform := OperandForm.indirectIndexed hbyte
    rw [UInt8.ofNat_toNat] at hform
    exact ⟨_, rfl, hform, nofun⟩
  | absolute => exact ⟨_, rfl, hlong .direct, by rintro _ _ _ ⟨⟩ ⟨⟩; rfl⟩
  | absoluteX => exact ⟨_, rfl, hlong .indexedX, by rintro _ _ _ ⟨⟩ ⟨⟩; rfl⟩
  | absoluteY => exact ⟨_, rfl, hlong .indexedY, by rintro _ _ _ ⟨⟩ ⟨⟩; rfl⟩
  | absoluteIndirect => exact ⟨_, rfl, hlong .indirect, by rintro _ _ _ ⟨⟩ ⟨⟩; rfl⟩
  | absoluteIndexedIndirect => exact ⟨_, rfl, hlong .indexedIndirect, by rintro _ _ _ ⟨⟩ ⟨⟩; rfl⟩
  | relative => exact absurd rfl hrelative
  | zeroPageRelative => exact absurd rfl hbitBranch

/-- The tokens of the operand are given the mode of the instruction again. -/
theorem IsLiteral.chooseMode_eq {c : CodedInstruction} (h : c.IsLiteral) {tokens : List Token}
    (hkinds : tokens.map Token.kind = c.instruction.mode.operandTokens c.values)
    (pos : Position) :
    chooseMode c.instruction.mnemonic pos tokens = .ok (c.instruction.mode, c.literal) := by
  obtain ⟨shape, hshape, hform, hword⟩ := h.exists_operandForm
  rw [← hkinds] at hshape
  refine chooseMode_of_operandForm hshape hform c.supports_mode ?_
  rintro short n ⟨make, haddress, hnumber, hfits, hshort⟩
  rw [hword make short n haddress hnumber] at hfits
  rw [h.no_zeroPageForm short haddress.zeroPageForm?_eq hfits] at hshort
  cases hshort

end CodedInstruction

/-! ## The line of an instruction -/

theorem Constants.inlineKind_of_not_isNamed {constants : Constants} {kind : TokenKind}
    (h : kind.isNamed = false) : constants.inlineKind kind = kind := by
  cases kind with
  | identifier name => cases h
  | _ => rfl

theorem Labels.bindKind_of_not_isNamed {labels : Labels} {kind : TokenKind}
    (h : kind.isNamed = false) : labels.bindKind kind = kind := by
  cases kind with
  | reference name => cases h
  | _ => rfl

namespace CodedInstruction

variable {c : CodedInstruction}

/-- The tokens of an instruction name no symbol, and the numbers in them fit into words. -/
theorem isNamed_and_fits {kind : TokenKind} (h : kind ∈ c.tokens) :
    kind.isNamed = false ∧ ∀ n, kind = .number n → n ≤ Numeral.wordLimit := by
  have hvalues : ∀ i, c.values.getD i 0 ≤ Numeral.wordLimit := by
    intro i
    rw [List.getD_eq_getElem?_getD]
    cases hi : c.values[i]? with
    | none => decide
    | some n =>
      exact Nat.le_of_lt_succ (Instruction.shownValues_lt _ _ _ n (List.mem_of_getElem? hi))
  rw [tokens, List.mem_cons] at h
  rcases h with rfl | h
  · exact ⟨rfl, nofun⟩
  · generalize c.instruction.mode = mode, c.values = values at h hvalues
    revert kind
    cases mode <;>
      simp [Mode.operandTokens, TokenKind.isNamed, or_imp, forall_and,
        -List.getD_eq_getElem?_getD, hvalues]

variable {l : Line}

/-- The tokens of the line of an instruction. -/
theorem exists_tokens (h : l.tokens.map Token.kind = c.tokens) :
    ∃ text pos rest, l.tokens = ⟨.opcode c.instruction.mnemonic, text, pos⟩ :: rest ∧
      rest.map Token.kind = c.instruction.mode.operandTokens c.values := by
  obtain ⟨⟨kind, text, pos⟩, rest, htokens, hkind, hrest⟩ := List.map_eq_cons_iff.1 h
  cases hkind
  exact ⟨text, pos, rest, htokens, hrest⟩

theorem isNamed_of_mem (h : l.tokens.map Token.kind = c.tokens) {t : Token} (ht : t ∈ l.tokens) :
    t.kind.isNamed = false := by
  have hmem := List.mem_map_of_mem (f := Token.kind) ht
  rw [h] at hmem
  exact (isNamed_and_fits hmem).1

theorem inline_eq (h : l.tokens.map Token.kind = c.tokens) (constants : Constants) :
    constants.inline l = l := by
  have htokens : l.tokens.map (fun t => { t with kind := constants.inlineKind t.kind }) =
      l.tokens := by
    refine (List.map_congr_left fun t ht => ?_).trans (List.map_id' l.tokens)
    rw [Constants.inlineKind_of_not_isNamed (isNamed_of_mem h ht)]
  rw [Constants.inline, htokens]

theorem isDefinition_eq_false (h : l.tokens.map Token.kind = c.tokens) :
    l.isDefinition = false := by
  obtain ⟨text, pos, rest, htokens, -⟩ := exists_tokens h
  rw [Line.isDefinition, htokens]

theorem declare_eq (h : l.tokens.map Token.kind = c.tokens) (labels : Labels) :
    labels.declare l = (labels, []) := by
  obtain ⟨text, pos, rest, htokens, -⟩ := exists_tokens h
  rw [Labels.declare, htokens]

/-- The line of an instruction stands for the operation with its literal operand. -/
theorem IsLiteral.statementTokens (hliteral : c.IsLiteral)
    (h : l.tokens.map Token.kind = c.tokens) (labels : Labels) :
    ∃ t rest, l.statement = t :: rest ∧
      StatementTokens labels l.statement (.operation c.instruction c.code c.literal) := by
  obtain ⟨text, pos, rest, htokens, hrest⟩ := exists_tokens h
  have hstatement : l.statement = ⟨.opcode c.instruction.mnemonic, text, pos⟩ :: rest := by
    rw [Line.statement, Line.head, htokens]
    rfl
  have hbound : (rest.map (Token.bind labels)).map Token.kind =
      c.instruction.mode.operandTokens c.values := by
    rw [← hrest, List.map_map]
    refine List.map_congr_left fun t ht => Labels.bindKind_of_not_isNamed ?_
    exact isNamed_of_mem h (by rw [htokens]; exact List.mem_cons_of_mem _ ht)
  refine ⟨_, _, hstatement, ?_⟩
  rw [hstatement]
  refine .operation rfl ?_ (hliteral.chooseMode_eq hbound pos) (decode_eq_some_iff.1 c.decodes)
  intro t ht name hname
  have hnamed := isNamed_of_mem h (by rw [htokens]; exact List.mem_cons_of_mem _ ht)
  rw [hname] at hnamed
  cases hnamed

theorem IsLiteral.clean (hliteral : c.IsLiteral) (h : l.tokens.map Token.kind = c.tokens)
    (labels : Labels) : l.Clean labels := by
  obtain ⟨t, rest, -, hitem⟩ := hliteral.statementTokens h labels
  rw [Line.clean_iff_statementTokens (isDefinition_eq_false h)]
  refine ⟨?_, .inr ⟨_, hitem⟩⟩
  intro t ht n hkind
  have hmem := List.mem_map_of_mem (f := Token.kind) ht
  rw [h] at hmem
  exact (isNamed_and_fits hmem).2 n hkind

theorem IsLiteral.records_eq (hliteral : c.IsLiteral) (h : l.tokens.map Token.kind = c.tokens)
    (labels : Labels) :
    ∃ pos, (labels.bind l).records labels =
      [⟨pos, .operation c.instruction c.code c.literal⟩] := by
  obtain ⟨t, rest, hstatement, hitem⟩ := hliteral.statementTokens h labels
  refine ⟨t.pos, ?_⟩
  have hlabel : (labels.bind l).labelRecord? labels = none := by
    apply Line.labelRecord?_bind_of_no_declaration
    intro t rest name htokens hkind
    have hnamed := isNamed_of_mem h (by rw [htokens]; exact List.mem_cons_self)
    rw [hkind] at hnamed
    cases hnamed
  rw [Line.records, hlabel, Line.statementRecord?_bind hstatement hitem]
  rfl

end CodedInstruction

/-! ## The records of the text -/

section Lines

variable {code : List CodedInstruction} {lines : List Line}

theorem declareAll_of_instructions
    (h : List.Forall₂ (fun (c : CodedInstruction) l => l.tokens.map Token.kind = c.tokens) code
      lines) (labels : Labels) : labels.declareAll lines = (labels, []) := by
  induction h with
  | nil => rfl
  | cons hhead _ ih =>
    simp only [Labels.declareAll, CodedInstruction.declare_eq hhead, ih, List.nil_append]

theorem items_of_instructions (hliteral : ∀ c ∈ code, c.IsLiteral)
    (h : List.Forall₂ (fun (c : CodedInstruction) l => l.tokens.map Token.kind = c.tokens) code
      lines) (labels : Labels) :
    (lines.flatMap fun l => (labels.bind l).records labels).map Record.item =
      code.map fun c => .operation c.instruction c.code c.literal := by
  induction h with
  | nil => rfl
  | cons hhead _ ih =>
    rw [List.forall_mem_cons] at hliteral
    obtain ⟨pos, hrecords⟩ := hliteral.1.records_eq hhead labels
    rw [List.flatMap_cons, hrecords, List.map_append, ih hliteral.2]
    rfl

/-- Lines of instructions give the records of these instructions, and no symbols. -/
theorem exists_records_of_instructions {lexemes : List Lexeme}
    (hliteral : ∀ c ∈ code, c.IsLiteral) (hreading : Line.readingFaults lexemes = [])
    (h : List.Forall₂ (fun (c : CodedInstruction) l => l.tokens.map Token.kind = c.tokens) code
      (Line.ofLexemes lexemes)) :
    ∃ records, (Program.resolve {} lexemes).outcome = .ok records ∧
      records.map Record.item = code.map fun c => .operation c.instruction c.code c.literal := by
  have hdefinition : ∀ l ∈ Line.ofLexemes lexemes, l.isDefinition = false := by
    intro l hl
    obtain ⟨c, -, hc⟩ := exists_of_mem_left h.flip hl
    exact CodedInstruction.isDefinition_eq_false hc
  have hconstants : collect Constants.collectStep {} (Line.ofLexemes lexemes) = ({}, []) := by
    have hnone : (Line.ofLexemes lexemes).filter Line.isDefinition = [] :=
      List.filter_eq_nil_iff.2 fun l hl => by simp [hdefinition l hl]
    rw [← Constants.defineAll_eq_collect, hnone]
    rfl
  have hinlined : Program.inlinedLines {} (Line.ofLexemes lexemes) = Line.ofLexemes lexemes := by
    have hall : (Line.ofLexemes lexemes).filter (fun l => !l.isDefinition) =
        Line.ofLexemes lexemes :=
      List.filter_eq_self.2 fun l hl => by simp [hdefinition l hl]
    rw [Program.inlinedLines, hall]
    refine (List.map_congr_left fun l hl => ?_).trans (List.map_id' _)
    obtain ⟨c, -, hc⟩ := exists_of_mem_left h.flip hl
    exact CodedInstruction.inline_eq hc {}
  have hlabels : (Program.resolve {} lexemes).symbols.labels = {} := by
    rw [Program.labels_resolve hconstants, hinlined, declareAll_of_instructions h]
  refine ⟨_, (Program.outcome_eq_ok_iff_yields hconstants).2 ⟨hreading, ?_⟩,
    items_of_instructions hliteral h {}⟩
  rw [hinlined, hlabels]
  refine ⟨declareAll_of_instructions h {}, ?_, rfl⟩
  intro l hl
  obtain ⟨c, hmem, hc⟩ := exists_of_mem_left h.flip hl
  exact (hliteral c hmem).clean hc {}

end Lines

end Assembler65
