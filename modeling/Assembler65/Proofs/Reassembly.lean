import Assembler65.Proofs.LiteralRecords
import Assembler65.Proofs.MachineCode

/-!
# Assembling a disassembly again

A stretch of machine code without branches is disassembled to a text, one instruction a line and
without escape sequences. The rows of the text are these lines, and their words spell the tokens of
the instructions (`CodedInstruction.forall₂_words`), so that the text is assembled to the same
bytes. Main statement: `assemble_disassembly`, for all code in which an absolute operand below
`$100` stands only where the mnemonic has no zero-page mode of the same form.
-/

set_option autoImplicit false

namespace Assembler65

open Text

/-! ## The lines of a text -/

namespace Text

theorem segments_cons {c : Char} (h : c ≠ '\n') (rest line : List Char) (more : List (List Char))
    (hrest : segments rest = line :: more) : segments (c :: rest) = (c :: line) :: more := by
  rw [segments, List.foldr_cons, ← segments, hrest, if_neg fun hc => h (beq_iff_eq.1 hc)]

theorem segments_append {line : List Char} (h : ∀ c ∈ line, c ≠ '\n') (rest : List Char) :
    segments (line ++ '\n' :: rest) = line :: segments rest := by
  induction line with
  | nil => rfl
  | cons c line ih =>
    rw [List.forall_mem_cons] at h
    exact segments_cons h.1 _ _ _ (ih h.2)

theorem segments_of_no_feed {line : List Char} (h : ∀ c ∈ line, c ≠ '\n') :
    segments line = [line] := by
  induction line with
  | nil => rfl
  | cons c line ih =>
    rw [List.forall_mem_cons] at h
    exact segments_cons h.1 _ _ _ (ih h.2)

/-- A line that holds characters, and none that breaks lines. -/
structure IsLine (line : List Char) : Prop where
  ne_nil : line ≠ []
  no_feed : ∀ c ∈ line, c ≠ '\n'
  no_return : ∀ c ∈ line, c ≠ '\r'

theorem IsLine.dropReturn_eq {line : List Char} (h : IsLine line) : dropReturn line = line := by
  rw [dropReturn, if_neg]
  intro hlast
  exact h.no_return '\r' (List.mem_of_getLast? (beq_iff_eq.1 hlast)) rfl

theorem map_dropReturn {all : List (List Char)} (h : ∀ line ∈ all, IsLine line) :
    all.map dropReturn = all := by
  rw [List.map_congr_left fun line hline => (h line hline).dropReturn_eq, List.map_id']

/-- Line feeds end all segments but the last. -/
theorem segments_flatMap {init : List (List Char)} {last : List Char}
    (hinit : ∀ line ∈ init, ∀ c ∈ line, c ≠ '\n') (hlast : ∀ c ∈ last, c ≠ '\n') :
    segments ((init.flatMap fun line => line ++ ['\n']) ++ last) = init ++ [last] := by
  induction init with
  | nil => exact segments_of_no_feed hlast
  | cons line init ih =>
    rw [List.forall_mem_cons] at hinit
    rw [List.flatMap_cons, List.append_assoc, List.append_assoc, List.singleton_append,
      segments_append hinit.1, ih hinit.2, List.cons_append]

/-- Lines that line feeds end are the lines of the text. -/
theorem lines_flatMap {all : List (List Char)} (h : ∀ line ∈ all, IsLine line) :
    lines (all.flatMap fun line => line ++ ['\n']) = all := by
  have hsegments := segments_flatMap (fun line hline => (h line hline).no_feed)
    (List.forall_mem_nil fun c => c ≠ '\n')
  rw [List.append_nil] at hsegments
  rw [lines, hsegments, List.dropLast_concat, List.getLast?_concat, map_dropReturn h]
  exact List.append_nil all

/-- Lines with line feeds between them are the lines of the text. -/
theorem lines_intercalate {all : List (List Char)} (h : ∀ line ∈ all, IsLine line) :
    lines (['\n'].intercalate all) = all := by
  have hflatMap : ∀ init last, ['\n'].intercalate (init ++ [last]) =
      (init.flatMap fun line => line ++ ['\n']) ++ last := by
    intro init last
    induction init with
    | nil => simp
    | cons line init ih =>
      rw [List.flatMap_cons, List.append_assoc, ← ih]
      cases init <;> simp [List.intercalate_cons_cons]
  cases all using List.reverseRecOn with
  | nil => rfl
  | append_singleton init last =>
    have hinit : ∀ line ∈ init, IsLine line := fun line hline =>
      h line (List.mem_append_left _ hline)
    have hlast : IsLine last := h last (List.mem_append_right _ (List.mem_singleton_self last))
    have hsegments := segments_flatMap (fun line hline => (hinit line hline).no_feed) hlast.no_feed
    rw [hflatMap, lines, hsegments, List.dropLast_concat, List.getLast?_concat,
      map_dropReturn hinit]
    cases last with
    | nil => exact absurd rfl hlast.ne_nil
    | cons c last => rfl

end Text

/-! ## The text of machine code -/

namespace Mode

/-- The characters of an operand are hexadecimal digits and a few marks and registers. -/
theorem forall_mem_written (mode : Mode) (values : List Nat) {p : Char → Prop}
    (hdigits : ∀ c, Lexeme.isHexadecimal c = true → p c)
    (hmarks : ∀ c ∈ ['$', '#', '(', ')', ',', 'A', 'X', 'Y'], p c) :
    ∀ c ∈ (mode.written values).toList, p c := by
  have hhex : ∀ width n, (∀ c ∈ (hexPadded width n).toList, p c) = True := fun width n =>
    eq_true fun c hc => hdigits c (Numeral.isHexadecimal_of_mem_hexPadded hc)
  simp only [List.forall_mem_cons, List.not_mem_nil, false_imp_iff, implies_true, and_true]
    at hmarks
  cases mode <;>
    simp only [written, String.toList_append, String.reduceToList, List.forall_mem_append,
      List.forall_mem_cons, List.not_mem_nil, false_imp_iff, implies_true, hhex, hmarks, and_self]

end Mode

/-! ## Words of the text -/

theorem RowTokens.exists_not_blank {cs : List Char} {kinds : List TokenKind}
    (h : RowTokens cs kinds) (hkinds : kinds ≠ []) : ∃ c ∈ cs, isBlank c = false := by
  induction h with
  | nil => exact absurd rfl hkinds
  | blank _ _ ih =>
    obtain ⟨c, hc, hblank⟩ := ih hkinds
    exact ⟨c, List.mem_cons_of_mem _ hc, hblank⟩
  | token hform _ _ _ _ =>
    obtain ⟨c, spelling, hspelling, hblank⟩ := Lexeme.spelling_eq_cons hform
    exact ⟨c, List.mem_append_left _ (by rw [hspelling]; exact List.mem_cons_self), hblank⟩

/-- A source can be read if all of its words can. -/
theorem Source.lexemes_eq_ok {s : Source}
    (h : ∀ row ∈ s.words, ∀ word ∈ row, word.token?.isSome = true) :
    s.lexemes = .ok (Lexeme.ofSource s) := by
  have hnone : (Lexeme.ofSource s).filterMap lexemeFault? = [] := by
    rw [List.filterMap_eq_nil_iff]
    intro l hl
    rw [lexemeFault?, if_neg]
    intro hkind
    rw [beq_iff_eq] at hkind
    -- What cannot be read is a word without a token.
    obtain ⟨⟨row, line⟩, hcontent, hl⟩ := List.mem_flatMap.1 hl
    have hword : l ∈ (Lexeme.ofRow row line).filter Lexeme.isWord :=
      List.mem_filter.2 ⟨hl, by rw [Lexeme.isWord, hkind]; rfl⟩
    have hrow : (Lexeme.ofRow row line).filter Lexeme.isWord ∈ s.words := by
      refine List.mem_filter.2 ⟨List.mem_map.2 ⟨(row, line), hcontent, rfl⟩, ?_⟩
      rw [Bool.not_eq_true', List.isEmpty_eq_false_iff]
      exact List.ne_nil_of_mem hword
    have htoken := h _ hrow l hword
    rw [Lexeme.token?, Lexeme.contribution, hkind] at htoken
    cases htoken
  rw [lexemes, hnone]

namespace CodedInstruction

theorem IsLiteral.rowTokens_line {c : CodedInstruction} (h : c.IsLiteral) (location : Nat) :
    RowTokens (c.line location).toList c.tokens := by
  rw [tokens, ← h.shownValues_eq (UInt16.ofNat location)]
  exact c.instruction.rowTokens_disassemble _ _

theorem isLine_line (c : CodedInstruction) (location : Nat) : IsLine (c.line location).toList := by
  have hmnemonic : ∀ ch ∈ (alignLeft 5 c.instruction.mnemonic.name.toLower).toList,
      ch ≠ '\n' ∧ ch ≠ '\r' := by
    intro ch hch
    rcases c.instruction.mnemonic.inName_or_blank_of_mem_alignLeft hch with hname | rfl
    · constructor
      · rintro rfl
        cases hname
      · rintro rfl
        cases hname
    · decide
  have hbreak : ∀ ch ∈ (c.line location).toList, ch ≠ '\n' ∧ ch ≠ '\r' := by
    rw [line, Instruction.plain_disassemble, String.toList_append, List.forall_mem_append]
    refine ⟨hmnemonic, Mode.forall_mem_written _ _ ?_ (by simp)⟩
    rintro ch hch
    constructor
    · rintro rfl
      cases hch
    · rintro rfl
      cases hch
  refine ⟨?_, fun ch hch => (hbreak ch hch).1, fun ch hch => (hbreak ch hch).2⟩
  have hrow := c.instruction.rowTokens_disassemble (UInt16.ofNat location) c.operand
  obtain ⟨ch, hch, -⟩ := hrow.exists_not_blank (List.cons_ne_nil _ _)
  exact List.ne_nil_of_mem hch

theorem isLine_of_mem_lines {code : List CodedInstruction} {location : Nat} {text : String}
    (h : text ∈ lines location code) : IsLine text.toList := by
  induction code generalizing location with
  | nil => cases h
  | cons c code ih =>
    rcases List.mem_cons.1 h with rfl | h
    · exact c.isLine_line location
    · exact ih h

/-- The words of every line spell the tokens of its instruction. -/
theorem forall₂_words {code : List CodedInstruction} (h : ∀ c ∈ code, c.IsLiteral)
    (name : String) (location : Nat) :
    List.Forall₂ (fun c words => List.Forall₂ Lexeme.Spells words c.tokens) code
      (Source.words ⟨name, lines location code⟩) := by
  rw [Source.words, Source.content]
  generalize 1 = first
  induction code generalizing location first with
  | nil => exact .nil
  | cons c code ih =>
    rw [List.forall_mem_cons] at h
    have hrow := h.1.rowTokens_line location
    obtain ⟨ch, hch, hblank⟩ := hrow.exists_not_blank (List.cons_ne_nil _ _)
    have hcontent : isBlankText (c.line location) = false := by
      rw [isBlankText, List.all_eq_false]
      exact ⟨ch, hch, by rw [hblank]; decide⟩
    have hkept : (if isBlankText (c.line location) then none
        else some (first, c.line location)) = some (first, c.line location) :=
      if_neg (by rw [hcontent]; decide)
    have hwords : List.Forall₂ Lexeme.Spells
        ((Lexeme.ofRow first (c.line location)).filter Lexeme.isWord) c.tokens :=
      hrow.forall₂_spells first 1
    have hsome : (!((Lexeme.ofRow first (c.line location)).filter Lexeme.isWord).isEmpty) =
        true := by
      rw [Bool.not_eq_true', List.isEmpty_eq_false_iff]
      intro hnil
      rw [hnil] at hwords
      cases hwords
    simp only [lines, List.zipIdx_cons, List.filterMap_cons, hkept, List.map_cons,
      List.filter_cons, hsome, if_true]
    exact .cons hwords (ih h.2 _ _)

/-- The literal operand of an instruction is laid down as its operand bytes. -/
theorem draft_literal (c : CodedInstruction) : c.literal.draft = c.operand := by
  have hlength := c.length_operand
  have hcount : c.instruction.mode.operandLength ≤ 2 := by
    cases c.instruction.mode <;> decide
  rw [literal, word]
  generalize c.instruction.mode.operandLength = count at hlength hcount
  generalize c.operand = operand at hlength
  subst hlength
  rcases operand with _ | ⟨low, _ | ⟨high, _ | ⟨third, rest⟩⟩⟩
  · rfl
  · rfl
  · have hword : (wordOfBytes low high).toNat = low.toNat + 0x100 * high.toNat := by
      have hlow := low.toNat_lt
      have hhigh := high.toNat_lt
      simp only [wordOfBytes, UInt16.toNat_add, UInt16.toNat_mul, UInt8.toNat_toUInt16,
        UInt16.reduceToNat]
      omega
    have hlow : UInt8.ofNat (wordOfBytes low high).toNat = low := by
      apply UInt8.toNat.inj
      have hlt := low.toNat_lt
      rw [hword, UInt8.toNat_ofNat']
      omega
    have hhigh : UInt8.ofNat ((wordOfBytes low high).toNat / 0x100) = high := by
      apply UInt8.toNat.inj
      have hlt := low.toNat_lt
      have hlt' := high.toNat_lt
      rw [hword, UInt8.toNat_ofNat']
      omega
    exact (bytesOfWord_eq_littleEndian _).trans (congrArg₂ (fun b b' => [b, b']) hlow hhigh)
  · simp at hcount

/-- The record of an instruction is laid down as its bytes. -/
theorem isLiteral_record (c : CodedInstruction) (pos : Position) :
    Record.IsLiteral ⟨pos, .operation c.instruction c.code c.literal⟩ := by
  refine ⟨?_, rfl, ?_⟩
  · rw [literal]
    split <;> rfl
  · rw [Item.operandFits_operation_iff, c.draft_literal, c.length_operand]

end CodedInstruction

/-- Tokens have the kinds that their words spell. -/
theorem map_kind_of_spells {words : List Lexeme} {tokens : List Token} {kinds : List TokenKind}
    (h : List.Forall₂ (fun word t => word.token? = some t) words tokens)
    (hspells : List.Forall₂ Lexeme.Spells words kinds) : tokens.map Token.kind = kinds := by
  induction h generalizing kinds with
  | nil =>
    cases hspells
    rfl
  | cons hhead _ ih =>
    obtain _ | ⟨hkind, hrest⟩ := hspells
    rw [List.map_cons, ih hrest, (Lexeme.token?_eq_some_iff_reads.1 hhead).spells.unique hkind]

/-- The lines of a source whose words spell the tokens of instructions hold these tokens. -/
theorem forall₂_kinds {code : List CodedInstruction} {rows : List (List Lexeme)}
    {lines : List Line}
    (hwords : List.Forall₂ (fun (c : CodedInstruction) words =>
      List.Forall₂ Lexeme.Spells words c.tokens) code rows)
    (hlines : List.Forall₂ RowReads rows lines) :
    List.Forall₂ (fun (c : CodedInstruction) l => l.tokens.map Token.kind = c.tokens) code
      lines := by
  induction hwords generalizing lines with
  | nil =>
    cases hlines
    exact .nil
  | cons hhead _ ih =>
    obtain _ | ⟨hreads, hrest⟩ := hlines
    exact .cons (map_kind_of_spells hreads.tokens hhead) (ih hrest)

/-- A stretch of code that is disassembled line by line is assembled to the same bytes again, with a
line feed at the end of every line or between the lines. -/
theorem assemble_disassembly (name : String) (origin : UInt16) {code : List CodedInstruction}
    (hliteral : ∀ c ∈ code, c.IsLiteral)
    (hsize : (code.flatMap CodedInstruction.bytes).length ≤ 0x10000 - origin.toNat) {text : String}
    (htext : text = String.join ((CodedInstruction.lines origin.toNat code).map (· ++ "\n")) ∨
      text = "\n".intercalate (CodedInstruction.lines origin.toNat code)) :
    ∃ image, assemble (Source.ofText name text) origin = .ok image ∧
      image.bytes = (code.flatMap CodedInstruction.bytes).toArray := by
  have hlines : ∀ line ∈ (CodedInstruction.lines origin.toNat code).map String.toList,
      IsLine line := by
    intro line hline
    obtain ⟨s, hs, rfl⟩ := List.mem_map.1 hline
    exact CodedInstruction.isLine_of_mem_lines hs
  have hrows : Text.lines text.toList =
      (CodedInstruction.lines origin.toNat code).map String.toList := by
    rcases htext with rfl | rfl
    · refine Eq.trans (congrArg Text.lines ?_) (lines_flatMap hlines)
      rw [String.toList_join, List.flatMap_map, List.flatMap_map]
      exact List.flatMap_congr fun line _ => String.toList_append
    · rw [String.toList_intercalate]
      exact lines_intercalate hlines
  have hsource : Source.ofText name text = ⟨name, CodedInstruction.lines origin.toNat code⟩ := by
    rw [Source.ofText, hrows, List.map_map]
    refine congrArg (Source.mk name) ?_
    exact (List.map_congr_left fun line _ => String.ofList_toList).trans (List.map_id' _)
  have hwords := CodedInstruction.forall₂_words hliteral name origin.toNat
  rw [hsource]
  generalize (⟨name, CodedInstruction.lines origin.toNat code⟩ : Source) = s at hwords
  have hreadable : ∀ row ∈ s.words, ∀ word ∈ row, word.token?.isSome = true := by
    intro row hrow word hword
    obtain ⟨c, -, hspells⟩ := exists_of_mem_left hwords.flip hrow
    obtain ⟨kind, -, hkind⟩ := exists_of_mem_left hspells hword
    exact hkind.isSome_token?
  have hreading := readingFaults_ofSource_eq_nil_iff.2 hreadable
  obtain ⟨records, houtcome, hitems⟩ := exists_records_of_instructions hliteral hreading
    (forall₂_kinds hwords (forall₂_lines hreading))
  have hrecords : ∀ r ∈ records, r.IsLiteral := by
    intro r hr
    have hitem := List.mem_map_of_mem (f := Record.item) hr
    rw [hitems] at hitem
    obtain ⟨c, -, hc⟩ := List.mem_map.1 hitem
    obtain ⟨pos, item⟩ := r
    cases hc
    exact c.isLiteral_record pos
  have hbytes : (records.flatMap fun r => r.item.draft) =
      code.flatMap CodedInstruction.bytes := by
    calc (records.flatMap fun r => r.item.draft)
        = (records.map Record.item).flatMap Item.draft := (List.flatMap_map _ _ _).symm
      _ = code.flatMap CodedInstruction.bytes := by
          rw [hitems, List.flatMap_map]
          exact List.flatMap_congr fun c _ => congrArg (c.code :: ·) c.draft_literal
  rw [assemble_eq_link origin (Source.lexemes_eq_ok hreadable) houtcome, ← hbytes]
  obtain ⟨image, himage, -, himageBytes⟩ := exists_link_of_literals hrecords
    (show origin.toNat + _ ≤ memorySize by
      have horigin := origin.toNat_lt
      rw [hbytes, memorySize]
      omega)
  exact ⟨image, himage, himageBytes⟩

/-- `NOP / ASL A / LDA #$80 / JMP ($0012) / STA $1234,X / LDA ($12),Y / BRK`. The jump has no
zero-page mode to be mistaken for. -/
def straightCode : List CodedInstruction :=
  [⟨⟨.nop, .implied⟩, 0xEA, [], by decide +kernel, rfl⟩,
    ⟨⟨.asl, .accumulator⟩, 0x0A, [], by decide +kernel, rfl⟩,
    ⟨⟨.lda, .immediate⟩, 0xA9, [0x80], by decide +kernel, rfl⟩,
    ⟨⟨.jmp, .absoluteIndirect⟩, 0x6C, [0x12, 0x00], by decide +kernel, rfl⟩,
    ⟨⟨.sta, .absoluteX⟩, 0x9D, [0x34, 0x12], by decide +kernel, rfl⟩,
    ⟨⟨.lda, .zeroPageIndirectIndexed⟩, 0xB1, [0x12], by decide +kernel, rfl⟩,
    ⟨⟨.brk, .stack⟩, 0x00, [], by decide +kernel, rfl⟩]

/-- The text of `straightCode`, which fills memory from its origin on to the end. -/
theorem assemble_straightCode :
    ∃ image, assemble (Source.ofText "code.s" (String.join
        ((CodedInstruction.lines 0xFFF3 straightCode).map (· ++ "\n")))) 0xFFF3 = .ok image ∧
      image.bytes = #[0xEA, 0x0A, 0xA9, 0x80, 0x6C, 0x12, 0x00, 0x9D, 0x34, 0x12, 0xB1, 0x12,
        0x00] := by
  have hliteral : ∀ c ∈ straightCode, c.IsLiteral := by
    decide +kernel
  exact assemble_disassembly "code.s" 0xFFF3 hliteral (by decide) (.inl rfl)

end Assembler65
