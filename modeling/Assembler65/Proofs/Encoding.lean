import Assembler65.Proofs.Emission
import Assembler65.Proofs.RecordRows

/-!
# The encoding of records

`Record.WellEncoded` says that a record has the opcode of its instruction, and the bytes that its
size sets aside. `rowNumbers` are the numbers that the words of a row ask for, said without the
operand that they become. Main statement: `encoded_of_outcome_eq_ok`, every record of an accepted
program is well encoded, and the records of a row hold the numbers of the row.
-/

set_option autoImplicit false

namespace Assembler65

/-- A record with the right opcode and as many bytes as its size sets aside. -/
structure Record.WellEncoded (r : Record) : Prop where
  opcode : ∀ instruction code operand, r.item = .operation instruction code operand →
    encode instruction.mnemonic instruction.mode = some code
  operand : ∀ instruction code operand, r.item = .operation instruction code operand →
    operand.draft.length = instruction.mode.operandLength
  /-- A record that does not overflow stores the bytes of its size. -/
  size : ∀ e : Emission, e.overflows r = false →
    (e.place r).stores.size = e.stores.size + r.size

/-! ## Numbers -/

/-- The numbers in an operand. -/
def Operand.numbers : Operand → List Nat
  | .byte value | .bitBranch value _ => [value.toNat]
  | .word value => [value.toNat]
  | .none | .label _ | .labelHalf _ _ | .branch _ => []

/-- The numbers in an item. -/
def Item.numbers : Item → List Nat
  | .label _ => []
  | .origin address => [address.toNat]
  | .bytes values => values.map UInt8.toNat
  | .words values => values.map UInt16.toNat
  | .operation _ _ operand => operand.numbers

/-- The half of a number that a word asks for. -/
def Lexeme.half? (l : Lexeme) : Option Half :=
  match l.kind with
  | .less => some .low
  | .greater => some .high
  | _ => none

/-- Numbers, or one half of each. -/
def takeHalf : Option Half → List Nat → List Nat
  | none, numbers => numbers
  | some .low, numbers => numbers.map fun n => n % 0x100
  | some .high, numbers => numbers.map fun n => n / 0x100

/-- The numbers that the words of a row ask for: those of its numerals, of the constants that it
names and of the characters of its strings, or their halves. -/
def rowNumbers [Folding] (constants : Constants) (words : List Lexeme) : List Nat :=
  takeHalf (words.findSome? Lexeme.half?) (words.flatMap (Lexeme.dataValues constants))

/-- The records of some rows, well encoded and with the numbers of the rows. -/
structure Encoded [Folding] (rows : List (List Lexeme)) (records : List Record) : Prop where
  wellEncoded : ∀ r ∈ records, r.WellEncoded
  /-- The records of a row that is no definition hold exactly the numbers of the row. -/
  chunks : ∃ chunks, records = chunks.flatten ∧
    List.Forall₂
      (fun row chunk => RowRecords (symbolsOf rows) row chunk ∧
        (startsDefinition row = false →
          chunk.flatMap (fun r => r.item.numbers) = rowNumbers (symbolsOf rows).constants row))
      rows chunks

/-! ## Numbers of operands -/

/-- The half of a number that a token asks for. -/
def TokenKind.half? : TokenKind → Option Half
  | .less => some .low
  | .greater => some .high
  | _ => none

/-- The numbers of a token. -/
def TokenKind.numbers (kind : TokenKind) : List Nat := kind.dataValues?.getD []

/-- The numbers in a value. -/
def OperandValue.numbers : OperandValue → List Nat
  | .number n => [n]
  | .label _ => []

/-- The numbers in a shape. -/
def OperandShape.numbers : OperandShape → List Nat
  | .empty | .accumulator => []
  | .immediate n => [n]
  | .pair n v => n :: v.numbers
  | .immediateHalf half v => takeHalf (some half) v.numbers
  | .direct v | .indexedX v | .indexedY v | .indirect v | .indirectIndexed v
  | .indexedIndirect v => v.numbers

/-- The value that a shape is made around. -/
def OperandShape.value? : OperandShape → Option OperandValue
  | .empty | .accumulator | .immediate _ => none
  | .direct v | .indexedX v | .indexedY v | .pair _ v | .immediateHalf _ v | .indirect v
  | .indirectIndexed v | .indexedIndirect v => some v

theorem TokenKind.eq_of_value? {kind : TokenKind} {v : OperandValue} (h : kind.value? = some v) :
    (∃ n, kind = .number n ∧ v = .number n) ∨ ∃ index, kind = .label index ∧ v = .label index := by
  cases kind with
  | number n => exact .inl ⟨n, rfl, (Option.some.inj h).symm⟩
  | label index => exact .inr ⟨index, rfl, (Option.some.inj h).symm⟩
  | _ => cases h

/-- A shape has the numbers of its tokens, or the halves that they ask for. -/
theorem OperandShape.numbers_of_ofKinds? {kinds : List TokenKind} {shape : OperandShape}
    (h : OperandShape.ofKinds? kinds = some shape) :
    shape.numbers =
      takeHalf (kinds.findSome? TokenKind.half?) (kinds.flatMap TokenKind.numbers) := by
  unfold OperandShape.ofKinds? at h
  split at h
  case h_1 => cases h; rfl
  case h_2 => cases h; rfl
  case h_7 => cases h; rfl
  case h_13 => cases h
  -- All other shapes are made around the value of one token.
  all_goals
    obtain ⟨v, hv, rfl⟩ := Option.map_eq_some_iff.1 h
    rcases TokenKind.eq_of_value? hv with ⟨n, rfl, rfl⟩ | ⟨index, rfl, rfl⟩ <;> rfl

/-- The number that a shape is made around is one of its tokens. -/
theorem OperandShape.mem_of_ofKinds? {kinds : List TokenKind} {shape : OperandShape} {n : Nat}
    (h : OperandShape.ofKinds? kinds = some shape) (hvalue : shape.value? = some (.number n)) :
    .number n ∈ kinds := by
  unfold OperandShape.ofKinds? at h
  split at h
  case h_1 => cases h; cases hvalue
  case h_2 => cases h; cases hvalue
  case h_7 => cases h; cases hvalue
  case h_13 => cases h
  all_goals
    obtain ⟨v, hv, rfl⟩ := Option.map_eq_some_iff.1 h
    cases hvalue
    rcases TokenKind.eq_of_value? hv with ⟨n, rfl, ⟨rfl⟩⟩ | ⟨index, -, heq⟩
    · simp
    · cases heq

theorem AddressForm.value? {make : OperandValue → OperandShape} {short long : Mode}
    (h : AddressForm make short long) (v : OperandValue) : (make v).value? = some v := by
  cases h <;> rfl

theorem AddressForm.numbers {make : OperandValue → OperandShape} {short long : Mode}
    (h : AddressForm make short long) (v : OperandValue) : (make v).numbers = v.numbers := by
  cases h <;> rfl

theorem takeHalf_eq {n : Nat} (h : n ≤ Numeral.wordLimit) (half : Half) :
    takeHalf (some half) [n] = [(half.of (UInt16.ofNat n)).toNat] := by
  rw [Numeral.wordLimit] at h
  cases half with
  | low => simp [takeHalf, Half.of]
  | high => simp [takeHalf, Half.of, Nat.shiftRight_eq_div_pow]; omega

/-- An operand holds the numbers of its shape: none loses digits where it is cut to size. -/
theorem OperandForm.numbers_eq {shape : OperandShape} {mode : Mode} {operand : Operand}
    (h : OperandForm shape mode operand)
    (hfits : ∀ n, shape.value? = some (.number n) → n ≤ Numeral.wordLimit) :
    operand.numbers = shape.numbers := by
  cases h with
  | short hform hbyte => rw [hform.numbers, Operand.numbers, Numeral.toNat_byte hbyte]; rfl
  | long n hform =>
    rw [hform.numbers, Operand.numbers, Numeral.toNat_word (hfits n (hform.value? _))]
    rfl
  | label index hform => rw [hform.numbers]; rfl
  | bitBranch index hbyte => rw [Operand.numbers, Numeral.toNat_byte hbyte]; rfl
  | immediate hbyte => rw [Operand.numbers, Numeral.toNat_byte hbyte]; rfl
  | half half n => exact (takeHalf_eq (hfits n rfl) half).symm
  | labelHalf half index => cases half <;> rfl
  | indirectIndexed hbyte => rw [Operand.numbers, Numeral.toNat_byte hbyte]; rfl
  | _ => rfl

theorem numbers_of_chooseMode {m : Mnemonic} {pos : Position} {tokens : List Token} {mode : Mode}
    {operand : Operand} (h : chooseMode m pos tokens = .ok (mode, operand))
    (hfits : NumbersFit tokens) :
    operand.numbers =
      takeHalf (tokens.findSome? fun t => t.kind.half?)
        (tokens.flatMap fun t => t.kind.numbers) := by
  obtain ⟨shape, hshape, hform, -⟩ := exists_operandForm h
  rw [hform.numbers_eq, OperandShape.numbers_of_ofKinds? hshape, List.findSome?_map,
    List.flatMap_map]
  · rfl
  · intro n hvalue
    obtain ⟨t, ht, hkind⟩ := List.mem_map.1 (OperandShape.mem_of_ofKinds? hshape hvalue)
    exact hfits t ht n hkind

/-! ## Numbers of rows -/

section Rows

variable [Folding] {symbols : Symbols} {constants : Constants} {word : Lexeme}
  {words row : List Lexeme}

theorem Inlines.half?_eq {t : Token} (h : Inlines constants word t) :
    t.kind.half? = word.half? := by
  rw [Lexeme.half?]
  split
  case h_1 hless =>
    have hspells : word.Spells .less := hless
    rw [h.kind_eq hspells rfl]
    rfl
  case h_2 hgreater =>
    have hspells : word.Spells .greater := hgreater
    rw [h.kind_eq hspells rfl]
    rfl
  case h_3 hless hgreater =>
    cases hkind : t.kind with
    | less => exact absurd (h.spells hkind rfl) hless
    | greater => exact absurd (h.spells hkind rfl) hgreater
    | _ => rfl

theorem Lexeme.dataValues_of_not_isElement (h : word.isElement constants = false) :
    word.dataValues constants = [] := by
  rw [isElement, Bool.or_eq_false_iff, beq_eq_false_iff_ne] at h
  rw [dataValues, if_neg h.1]
  cases hnumber : word.number? constants with
  | none => rfl
  | some n => rw [isNumber_of_number? hnumber] at h; cases h.2

theorem Inlines.numbers_eq {t : Token} (h : Inlines constants word t) (hfits : word.NumeralFits) :
    t.kind.numbers = word.dataValues constants := by
  rw [TokenKind.numbers]
  cases helement : word.isElement constants with
  | true => rw [h.dataValues?_eq helement hfits, Option.getD_some]
  | false =>
    rw [Lexeme.dataValues_of_not_isElement helement]
    cases hvalues : t.kind.dataValues? with
    | none => rfl
    | some values =>
      have hiselement := (h.isElement_and_dataValues hvalues (h.numberFits_iff.2 hfits)).1
      cases helement.symm.trans hiselement

/-- Binding labels leaves numbers and halves as they are. -/
theorem Token.numbers_bind (labels : Labels) (t : Token) :
    (t.bind labels).kind.numbers = t.kind.numbers ∧
      (t.bind labels).kind.half? = t.kind.half? := by
  rw [Token.kind_bind]
  cases t.kind with
  | reference name =>
    rw [Labels.bindKind]
    cases labels.index? name with
    | some index => exact ⟨rfl, rfl⟩
    | none => exact ⟨rfl, rfl⟩
  | _ => exact ⟨rfl, rfl⟩

theorem Token.kind_eq_number_of_bind {labels : Labels} {t : Token} {n : Nat}
    (h : (t.bind labels).kind = .number n) : t.kind = .number n := by
  rw [Token.kind_bind] at h
  cases hkind : t.kind with
  | reference name =>
    rw [hkind, Labels.bindKind] at h
    split at h <;> cases h
  | _ => rw [hkind] at h; exact h

/-- A word that is no number and asks for no half. -/
def Lexeme.IsSilent (constants : Constants) (l : Lexeme) : Prop :=
  l.half? = none ∧ l.dataValues constants = []

theorem rowNumbers_cons (h : word.IsSilent constants) :
    rowNumbers constants (word :: words) = rowNumbers constants words := by
  rw [rowNumbers, rowNumbers, List.findSome?_cons, h.1, List.flatMap_cons, h.2, List.nil_append]

theorem Lexeme.isSilent_of_asDirective? {d : Directive} (h : word.asDirective? = some d) :
    word.IsSilent constants := by
  rw [asDirective?] at h
  split at h
  case h_1 hkind => simp [IsSilent, half?, dataValues, number?, isNumeral, isName, hkind]
  case h_2 hkind => simp [IsSilent, half?, dataValues, number?, isNumeral, isName, hkind]
  case h_3 => cases h

theorem Lexeme.isSilent_of_asMnemonic? {m : Mnemonic} (h : word.asMnemonic? = some m) :
    word.IsSilent constants := by
  have hkind := kind_of_asMnemonic? h
  rw [asMnemonic?, if_pos hkind] at h
  simp [IsSilent, half?, dataValues, number?, isNumeral, isName, isReserved, hkind, h]

/-- No element of a data list asks for a half. -/
theorem DataForm.rowNumbers_eq (h : DataForm constants words) :
    rowNumbers constants words = words.flatMap (Lexeme.dataValues constants) := by
  have helements : ∀ {element : Lexeme}, element.isElement constants = true →
      element.half? = none := by
    intro element helement
    rw [Lexeme.half?]
    split
    case h_1 hkind =>
      simp [Lexeme.isElement, Lexeme.isNumber, Lexeme.isNumeral, Lexeme.isName, hkind] at helement
    case h_2 hkind =>
      simp [Lexeme.isElement, Lexeme.isNumber, Lexeme.isNumeral, Lexeme.isName, hkind] at helement
    case h_3 => rfl
  have hhalf : words.findSome? Lexeme.half? = none := by
    induction h with
    | last helement => rw [List.findSome?_singleton, helements helement]
    | more helement hcomma _ ih =>
      rw [List.findSome?_cons, helements helement, List.findSome?_cons, Lexeme.half?, hcomma]
      exact ih
  rw [rowNumbers, hhalf, takeHalf]

theorem Lexeme.numbers_of_operand? {t : Token} (h : word.operand? symbols = some t)
    (hfits : word.NumeralFits) :
    t.kind.numbers = word.dataValues symbols.constants ∧ t.kind.half? = word.half? ∧
      ∀ n, t.kind = .number n → n ≤ Numeral.wordLimit := by
  obtain ⟨raw, hraw, -⟩ := Option.bind_eq_some_iff.1 h
  have hinlines : Inlines symbols.constants word (raw.inline symbols.constants) :=
    ⟨raw, token?_eq_some_iff_reads.1 hraw, rfl⟩
  obtain ⟨rfl, -⟩ := (operand?_eq_some_iff hinlines).1 h
  obtain ⟨hnumbers, hhalf⟩ := Token.numbers_bind symbols.labels (raw.inline symbols.constants)
  refine ⟨hnumbers.trans (hinlines.numbers_eq hfits), hhalf.trans hinlines.half?_eq, ?_⟩
  intro n hkind
  exact hinlines.numberFits_iff.2 hfits n (Token.kind_eq_number_of_bind hkind)

/-- The numbers of operands are those of their tokens. -/
theorem rowNumbers_of_operand? {tokens : List Token}
    (h : List.Forall₂ (fun word t => word.operand? symbols = some t) words tokens)
    (hfits : NumeralsFit words) :
    rowNumbers symbols.constants words =
        takeHalf (tokens.findSome? fun t => t.kind.half?)
          (tokens.flatMap fun t => t.kind.numbers) ∧
      NumbersFit tokens := by
  -- A half is taken of the whole row, so the induction has to carry it apart from the numbers.
  suffices words.findSome? Lexeme.half? = (tokens.findSome? fun t => t.kind.half?) ∧
      words.flatMap (Lexeme.dataValues symbols.constants) =
        (tokens.flatMap fun t => t.kind.numbers) ∧ NumbersFit tokens by
    obtain ⟨hhalf, hnumbers, htokens⟩ := this
    rw [rowNumbers, hhalf, hnumbers]
    exact ⟨rfl, htokens⟩
  induction h with
  | nil => exact ⟨rfl, rfl, nofun⟩
  | @cons word t words tokens hhead _ ih =>
    rw [NumeralsFit, List.forall_mem_cons] at hfits
    obtain ⟨hvalues, hword, hfit⟩ := Lexeme.numbers_of_operand? hhead hfits.1
    obtain ⟨hhalf, hnumbers, htokens⟩ := ih hfits.2
    rw [List.findSome?_cons, List.findSome?_cons, hhalf, hword, List.flatMap_cons,
      List.flatMap_cons, hnumbers, hvalues, NumbersFit, List.forall_mem_cons]
    exact ⟨rfl, rfl, hfit, htokens⟩

theorem StatementItem.numbers_eq {item : Item} (h : StatementItem symbols words item)
    (hfits : NumeralsFit words) : item.numbers = rowNumbers symbols.constants words := by
  cases h with
  | @origin mark sign number address hmark hsign hnumber =>
    have hmark : mark.IsSilent symbols.constants :=
      Lexeme.isSilent_of_asDirective? (Lexeme.asDirective?_eq_origin_iff.2 hmark)
    have hsign : sign.IsSilent symbols.constants := by
      simp [Lexeme.IsSilent, Lexeme.half?, Lexeme.dataValues, Lexeme.number?, Lexeme.isNumeral,
        Lexeme.isName, hsign]
    -- What is left is a data list of one number.
    have hisNumber := Lexeme.isNumber_of_number? hnumber
    have hform : DataForm symbols.constants [number] :=
      .last (by rw [Lexeme.isElement, hisNumber, Bool.or_true])
    rw [rowNumbers_cons hmark, rowNumbers_cons hsign, hform.rowNumbers_eq, List.flatMap_singleton,
      Lexeme.dataValues, if_neg (Lexeme.kind_ne_string_of_isNumber hisNumber), hnumber]
    rfl
  | bytes hdirective helements hvalues =>
    rw [rowNumbers_cons (Lexeme.isSilent_of_asDirective? hdirective), helements.rowNumbers_eq,
      hvalues]
    rfl
  | words hdirective helements hvalues =>
    rw [rowNumbers_cons (Lexeme.isSilent_of_asDirective? hdirective), helements.rowNumbers_eq,
      hvalues]
    rfl
  | @operation opcode operands tokens m mode operand code hopcode hoperands hchoice hcode hlabels =>
    obtain ⟨hnumbers, htokens⟩ := rowNumbers_of_operand? hoperands fun word hword =>
      hfits word (List.mem_cons_of_mem opcode hword)
    rw [rowNumbers_cons (Lexeme.isSilent_of_asMnemonic? hopcode), hnumbers]
    exact numbers_of_chooseMode hchoice htokens

theorem Lexeme.isSilent_of_declaration (h : word.kind = .declaration) :
    word.IsSilent constants := by
  simp [IsSilent, half?, dataValues, number?, isNumeral, isName, h]

/-- The records of a row that is no definition hold the numbers of the row. -/
theorem RowRecords.numbers_eq {chunk : List Record} (h : RowRecords symbols row chunk)
    (hfits : NumeralsFit row) (hdefinition : startsDefinition row = false) :
    chunk.flatMap (fun r => r.item.numbers) = rowNumbers symbols.constants row := by
  cases h with
  | definition hrow => cases hrow.symm.trans hdefinition
  | declaration hlabel hindex =>
    rw [rowNumbers_cons (Lexeme.isSilent_of_declaration hlabel)]
    rfl
  | statement hitem => rw [List.flatMap_singleton, hitem.numbers_eq hfits]
  | @labelled label word rest index item hlabel hindex hitem =>
    have hown : NumeralsFit (word :: rest) := fun word hword =>
      hfits word (List.mem_cons_of_mem label hword)
    rw [List.flatMap_cons, List.flatMap_singleton, hitem.numbers_eq hown,
      rowNumbers_cons (Lexeme.isSilent_of_declaration hlabel)]
    rfl

end Rows

/-! ## Well-encoded records -/

theorem Item.operandFits_operation_iff {instruction : Instruction} {code : UInt8}
    {operand : Operand} :
    (Item.operation instruction code operand).OperandFits ↔
      operand.draft.length = instruction.mode.operandLength := by
  rw [operand.forall₂_draft.length_eq]
  rfl

theorem Record.size_stores_place {r : Record} (hfits : r.item.OperandFits) {e : Emission}
    (h : e.overflows r = false) : (e.place r).stores.size = e.stores.size + r.size := by
  have hlength : r.item.draft.length = r.size :=
    r.item.length_draft.trans (Item.length_encoding hfits)
  rw [Emission.place_of_not_overflows h, ← hlength, ← Array.length_toList,
    Array.toList_appendList, List.length_append, Store.length_run, Array.length_toList]

theorem Record.WellEncoded.operandFits {r : Record} (h : r.WellEncoded) : r.item.OperandFits := by
  cases hitem : r.item with
  | operation instruction code operand =>
    exact Item.operandFits_operation_iff.2 (h.operand _ _ _ hitem)
  | _ => trivial

/-- A record that is no operation has no opcode and no operand to go wrong. -/
theorem Record.wellEncoded_of_not_isCode {r : Record} (h : r.item.isCode = false) :
    r.WellEncoded := by
  have hoperation : ∀ instruction code operand, r.item ≠ .operation instruction code operand := by
    intro instruction code operand hitem
    rw [hitem] at h
    cases h
  refine ⟨fun _ _ _ hitem => absurd hitem (hoperation _ _ _),
    fun _ _ _ hitem => absurd hitem (hoperation _ _ _), fun e => size_stores_place ?_⟩
  cases hitem : r.item with
  | operation instruction code operand => exact absurd hitem (hoperation _ _ _)
  | _ => trivial

theorem StatementItem.wellEncoded [Folding] {symbols : Symbols} {words : List Lexeme} {item : Item}
    (h : StatementItem symbols words item) (pos : Position) : Record.WellEncoded ⟨pos, item⟩ := by
  cases h with
  | origin => exact Record.wellEncoded_of_not_isCode rfl
  | bytes => exact Record.wellEncoded_of_not_isCode rfl
  | words => exact Record.wellEncoded_of_not_isCode rfl
  | @operation opcode operands tokens m mode operand code hopcode hoperands hchoice hcode hlabels =>
    obtain ⟨shape, -, hform, -⟩ := exists_operandForm hchoice
    have hlength := hform.length_draft
    refine ⟨?_, ?_, fun e => Record.size_stores_place ?_⟩
    · rintro _ _ _ ⟨rfl, rfl, rfl⟩
      exact hcode
    · rintro _ _ _ ⟨rfl, rfl, rfl⟩
      exact hlength
    · exact Item.operandFits_operation_iff.2 hlength

theorem RowRecords.wellEncoded [Folding] {symbols : Symbols} {row : List Lexeme}
    {chunk : List Record} (h : RowRecords symbols row chunk) : ∀ r ∈ chunk, r.WellEncoded := by
  cases h with
  | definition hrow => exact List.forall_mem_nil _
  | declaration hlabel hindex =>
    rw [List.forall_mem_singleton]
    exact Record.wellEncoded_of_not_isCode rfl
  | statement hitem =>
    rw [List.forall_mem_singleton]
    exact hitem.wellEncoded _
  | labelled hlabel hindex hitem =>
    rw [List.forall_mem_cons, List.forall_mem_singleton]
    exact ⟨Record.wellEncoded_of_not_isCode rfl, hitem.wellEncoded _⟩

/-- The records of an accepted program are well encoded, and those of a row hold exactly the numbers
that its words ask for. -/
theorem encoded_of_outcome_eq_ok [Folding] {lexemes : List Lexeme} {records : List Record}
    (h : (Program.resolve {} lexemes).outcome = .ok records) :
    Encoded (Lexeme.wordRows lexemes) records := by
  obtain ⟨hwell, -, chunks, hchunks, rfl⟩ := wellFormed_and_exists_chunks h
  refine ⟨?_, chunks, rfl, ?_⟩
  · intro r hr
    obtain ⟨chunk, hchunk, hr⟩ := List.mem_flatten.1 hr
    obtain ⟨row, -, hrow⟩ := exists_of_mem_left hchunks.flip hchunk
    exact RowRecords.wellEncoded hrow r hr
  · refine ((List.forall₂_and_left _ _).2 ⟨hwell.numerals_fit, hchunks⟩).imp ?_
    rintro row chunk ⟨hfits, hrow⟩
    exact ⟨hrow, hrow.numbers_eq hfits⟩

/-- Halves and the whole of a constant that is defined at the end, the largest byte and word, and a
branch on a bit. -/
def halvesAndLimits : Source where
  name := "halves.s"
  rows := ["* = $0300", "back: LDA #<size", "LDX #>size", "STA size", "BBR0 $FF,back",
    ".byte \"a\", 255", ".word size, $FFFF", ".define size $1234"]

/-- The records of `halvesAndLimits`. -/
def halvesAndLimitsRecords : List Record :=
  [⟨⟨1, 1⟩, .origin 0x0300⟩,
    ⟨⟨2, 1⟩, .label 0⟩, ⟨⟨2, 7⟩, .operation ⟨.lda, .immediate⟩ 0xA9 (.byte 0x34)⟩,
    ⟨⟨3, 1⟩, .operation ⟨.ldx, .immediate⟩ 0xA2 (.byte 0x12)⟩,
    ⟨⟨4, 1⟩, .operation ⟨.sta, .absolute⟩ 0x8D (.word 0x1234)⟩,
    ⟨⟨5, 1⟩, .operation ⟨.bbr ⟨0, by decide⟩, .zeroPageRelative⟩ 0x0F (.bitBranch 0xFF 0)⟩,
    ⟨⟨6, 1⟩, .bytes [97, 255]⟩,
    ⟨⟨7, 1⟩, .words [0x1234, 0xFFFF]⟩]

/-- A folding that takes an accented capital for its small letter. -/
@[reducible] def Folding.accented : Folding :=
  ⟨fun name => String.ofList (name.toList.map fun c => if c = 'É' then 'é' else c.toLower)⟩

/-- A constant `É` and a label `é` before a load of what `é` stands for. -/
def accentedName : List Lexeme :=
  [⟨.directive, "define", ⟨1, 1⟩⟩, ⟨.identifier, "É", ⟨1, 9⟩⟩, ⟨.decimal, "5", ⟨1, 11⟩⟩,
    ⟨.lineEnd, "", ⟨1, 12⟩⟩, ⟨.declaration, "é", ⟨2, 1⟩⟩, ⟨.identifier, "lda", ⟨2, 4⟩⟩,
    ⟨.identifier, "é", ⟨2, 8⟩⟩, ⟨.lineEnd, "", ⟨2, 9⟩⟩]

/-- The records of `accentedName` if its two names are one. -/
def accentedNameRecords : List Record :=
  [⟨⟨2, 1⟩, .label 0⟩, ⟨⟨2, 4⟩, .operation ⟨.lda, .zeroPage⟩ 0xA5 (.byte 5)⟩]

theorem encoded_halvesAndLimits :
    (Program.resolve {} (Lexeme.ofSource halvesAndLimits)).outcome =
        .ok halvesAndLimitsRecords ∧
      Encoded (Lexeme.wordRows (Lexeme.ofSource halvesAndLimits)) halvesAndLimitsRecords ∧
      (@Program.resolve Folding.accented {} accentedName).outcome = .ok accentedNameRecords ∧
      @Encoded Folding.accented (Lexeme.wordRows accentedName) accentedNameRecords := by
  have houtcome : (Program.resolve {} (Lexeme.ofSource halvesAndLimits)).outcome =
      .ok halvesAndLimitsRecords := by
    decide +kernel
  have haccented : (@Program.resolve Folding.accented {} accentedName).outcome =
      .ok accentedNameRecords := by
    decide +kernel
  exact ⟨houtcome, encoded_of_outcome_eq_ok houtcome, haccented,
    @encoded_of_outcome_eq_ok Folding.accented _ _ haccented⟩

end Assembler65
