import Assembler65.Isa.Disassembly
import Assembler65.Proofs.Numerals
import Assembler65.Proofs.Words

/-!
# Reading a disassembly

`Text.plain` takes the escape sequences out of a text. What is left of a disassembled instruction is
its mnemonic and the values that it shows, written as its mode is (`plain_disassemble`), and a row
of this text is read as these tokens again (`forall₂_spells_disassemble`).
-/

set_option autoImplicit false

namespace Assembler65

namespace Text

/-! ## Escape sequences -/

/-- Characters without escape sequences, each of which ends with its first `m`. -/
def dropEscapes : (inside : Bool) → List Char → List Char
  | _, [] => []
  | true, c :: cs => dropEscapes (c != 'm') cs
  | false, c :: cs => if c == '\x1b' then dropEscapes true cs else c :: dropEscapes false cs

/-- A text without escape sequences. -/
def plain (s : String) : String := String.ofList (dropEscapes false s.toList)

/-- A text shows as another one without its escape sequences, whatever follows it. -/
def ShowsAs (s shown : String) : Prop :=
  ∀ rest, dropEscapes false (s.toList ++ rest) = shown.toList ++ dropEscapes false rest

theorem ShowsAs.plain_eq {s shown : String} (h : ShowsAs s shown) : plain s = shown := by
  have hall := h []
  rw [List.append_nil, dropEscapes, List.append_nil] at hall
  rw [plain, hall, String.ofList_toList]

theorem ShowsAs.append {s t shown shown' : String} (hs : ShowsAs s shown)
    (ht : ShowsAs t shown') : ShowsAs (s ++ t) (shown ++ shown') := by
  intro rest
  rw [String.toList_append, List.append_assoc, hs, ht, String.toList_append, List.append_assoc]

/-- A text without an escape character shows as it is. -/
theorem showsAs_self {s : String} (h : ∀ c ∈ s.toList, c ≠ '\x1b') : ShowsAs s s := by
  intro rest
  generalize s.toList = cs at h
  induction cs with
  | nil => rfl
  | cons c cs ih =>
    rw [List.forall_mem_cons] at h
    rw [List.cons_append, dropEscapes, if_neg (fun hc => h.1 (beq_iff_eq.1 hc)), ih h.2]
    rfl

/-- A style does not show. -/
theorem ShowsAs.styled {s shown : String} (h : ShowsAs s shown) (style : Style) :
    ShowsAs (styled [style] s) shown := by
  intro rest
  have hstart : ∀ more, dropEscapes false (style.start.toList ++ more) =
      dropEscapes false more := by
    intro more
    cases style <;> rfl
  have hstop : ∀ more, dropEscapes false (style.stop.toList ++ more) =
      dropEscapes false more := by
    intro more
    cases style <;> rfl
  simp only [Text.styled, List.map_cons, List.map_nil, String.join_cons, String.join_nil,
    String.append_empty, String.toList_append, List.append_assoc]
  rw [hstart, h, hstop]

/-- Hexadecimal digits have no escape character. -/
theorem showsAs_hexPadded (width n : Nat) : ShowsAs (hexPadded width n) (hexPadded width n) := by
  apply showsAs_self
  rintro c hc rfl
  exact absurd (Numeral.isHexadecimal_of_mem_hexPadded hc) (by decide)

end Text

open Text

/-! ## Mnemonics in small letters -/

namespace Mnemonic

/-- The characters of a mnemonic in small letters. -/
def smallLetters (m : Mnemonic) : List Char := m.name.toList.map Char.toLower

theorem toList_toLower_name (m : Mnemonic) : m.name.toLower.toList = m.smallLetters := by
  exact String.toList_map

/-- Small letters make a short name, and the name in capitals is theirs in capitals. -/
theorem smallLetters_spec (m : Mnemonic) :
    m.smallLetters.head?.any Lexeme.startsName = true ∧
      m.smallLetters.all (fun c => Lexeme.inName c && c != '_') = true ∧
      m.smallLetters.length < 5 ∧
      m.smallLetters.map Char.toUpper = m.name.toList.map Char.toUpper := by
  have hall : ∀ m ∈ all, m.smallLetters.head?.any Lexeme.startsName = true ∧
      m.smallLetters.all (fun c => Lexeme.inName c && c != '_') = true ∧
      m.smallLetters.length < 5 ∧
      m.smallLetters.map Char.toUpper = m.name.toList.map Char.toUpper := by
    decide +kernel
  exact hall m m.mem_all

theorem inName_of_mem_smallLetters (m : Mnemonic) {c : Char} (h : c ∈ m.smallLetters) :
    Lexeme.inName c = true ∧ c ≠ '_' := by
  have hletter := List.all_eq_true.1 m.smallLetters_spec.2.1 c h
  rw [Bool.and_eq_true, bne_iff_ne] at hletter
  exact hletter

theorem form_toLower_name (m : Mnemonic) : LexemeForm .identifier m.name.toLower.toList := by
  have hletters := fun c => @inName_of_mem_smallLetters m c
  obtain ⟨c, hhead, hstart⟩ := (Option.any_eq_true _ _).1 m.smallLetters_spec.1
  obtain ⟨rest, hrest⟩ := List.head?_eq_some_iff.1 hhead
  rw [toList_toLower_name, hrest]
  rw [hrest] at hletters
  exact .identifier hstart (fun d hd => (hletters d hd).1)
    ⟨c, List.mem_cons_self, (hletters c List.mem_cons_self).2⟩

theorem length_toLower_name (m : Mnemonic) : m.name.toLower.length < 5 := by
  rw [← String.length_toList, toList_toLower_name]
  exact m.smallLetters_spec.2.2.1

theorem parse?_toLower_name (m : Mnemonic) : parse? m.name.toLower = some m := by
  have hcapitals : m.name.toLower.toUpper = m.name.toUpper := by
    apply String.toList_injective
    have hletters := m.smallLetters_spec.2.2.2
    rw [← toList_toLower_name] at hletters
    simpa [String.toUpper] using hletters
  rw [parse?, hcapitals]
  exact m.parse?_name

/-- A mnemonic in its column is made of letters, digits and blanks. -/
theorem inName_or_blank_of_mem_alignLeft (m : Mnemonic) {c : Char}
    (h : c ∈ (alignLeft 5 m.name.toLower).toList) : Lexeme.inName c = true ∨ c = ' ' := by
  rw [alignLeft, String.toList_append, String.toList_ofList, List.mem_append,
    toList_toLower_name] at h
  rcases h with hname | hblank
  · exact .inl (m.inName_of_mem_smallLetters hname).1
  · exact .inr (List.eq_of_mem_replicate hblank)

end Mnemonic

/-! ## The plain text of an instruction -/

namespace Mode

/-- The operand of a mode as it is written, given the values in it. -/
def written (mode : Mode) (values : List Nat) : String :=
  let byte := "$" ++ hexPadded 2 (values.getD 0 0)
  let word := "$" ++ hexPadded 4 (values.getD 0 0)
  let target := "$" ++ hexPadded 4 (values.getD 1 0)
  match mode with
  | implied | stack => ""
  | accumulator => "A"
  | immediate => "#$" ++ hexPadded 2 (values.getD 0 0)
  | zeroPage => byte
  | zeroPageX => byte ++ "," ++ "X"
  | zeroPageY => byte ++ "," ++ "Y"
  | zeroPageIndirect => "(" ++ byte ++ ")"
  | zeroPageIndexedIndirect => "(" ++ byte ++ "," ++ "X" ++ ")"
  | zeroPageIndirectIndexed => "(" ++ byte ++ ")," ++ "Y"
  | zeroPageRelative => byte ++ "," ++ target
  | absolute | relative => word
  | absoluteX => word ++ "," ++ "X"
  | absoluteY => word ++ "," ++ "Y"
  | absoluteIndirect => "(" ++ word ++ ")"
  | absoluteIndexedIndirect => "(" ++ word ++ "," ++ "X" ++ ")"

/-- The tokens of the operand of a mode, given the values in it. -/
def operandTokens (mode : Mode) (values : List Nat) : List TokenKind :=
  let value := .number (values.getD 0 0)
  match mode with
  | implied | stack => []
  | accumulator => [.register .a]
  | immediate => [.hash, value]
  | zeroPage | absolute | relative => [value]
  | zeroPageX | absoluteX => [value, .comma, .register .x]
  | zeroPageY | absoluteY => [value, .comma, .register .y]
  | zeroPageIndirect | absoluteIndirect => [.leftParen, value, .rightParen]
  | zeroPageIndexedIndirect | absoluteIndexedIndirect =>
    [.leftParen, value, .comma, .register .x, .rightParen]
  | zeroPageIndirectIndexed => [.leftParen, value, .rightParen, .comma, .register .y]
  | zeroPageRelative => [value, .comma, .number (values.getD 1 0)]

end Mode

namespace Instruction

/-- The values that the text of an instruction at an address shows. -/
def shownValues (mode : Mode) (pc : UInt16) (operand : List UInt8) : List Nat :=
  let first := operand.getD 0 0
  let second := operand.getD 1 0
  match mode with
  | .implied | .stack | .accumulator => []
  | .immediate | .zeroPage | .zeroPageX | .zeroPageY | .zeroPageIndirect
  | .zeroPageIndexedIndirect | .zeroPageIndirectIndexed => [first.toNat]
  | .zeroPageRelative => [first.toNat, (branchTarget (pc + 3) second).toNat]
  | .absolute | .absoluteX | .absoluteY | .absoluteIndirect | .absoluteIndexedIndirect =>
    [(wordOfBytes first second).toNat]
  | .relative => [(branchTarget (pc + 2) first).toNat]

theorem showsAs_operandText (mode : Mode) (pc : UInt16) (operand : List UInt8) :
    ShowsAs (operandText mode pc operand) (mode.written (shownValues mode pc operand)) := by
  have hmark : ∀ {s : String}, (s.toList.all (· != '\x1b')) = true → ShowsAs s s := by
    intro s h
    apply showsAs_self
    simpa using h
  have hnumber : ∀ (style : Style) (width n : Nat),
      ShowsAs (styled [style] ("$" ++ hexPadded width n)) ("$" ++ hexPadded width n) :=
    fun style width n => ((hmark rfl).append (showsAs_hexPadded width n)).styled style
  have hregister : ∀ {name : String}, (name.toList.all (· != '\x1b')) = true →
      ShowsAs (styled [.blue] name) name := fun h => (hmark h).styled .blue
  cases mode with
  | implied => exact hmark rfl
  | stack => exact hmark rfl
  | accumulator => exact hregister rfl
  | immediate => exact ((hmark rfl).append (showsAs_hexPadded 2 _)).styled .yellow
  | zeroPage => exact hnumber .yellow 2 _
  | zeroPageX => exact ((hnumber .yellow 2 _).append (hmark rfl)).append (hregister rfl)
  | zeroPageY => exact ((hnumber .yellow 2 _).append (hmark rfl)).append (hregister rfl)
  | zeroPageIndirect => exact ((hmark rfl).append (hnumber .yellow 2 _)).append (hmark rfl)
  | zeroPageIndexedIndirect =>
    exact ((((hmark rfl).append (hnumber .yellow 2 _)).append (hmark rfl)).append
      (hregister rfl)).append (hmark rfl)
  | zeroPageIndirectIndexed =>
    exact (((hmark rfl).append (hnumber .yellow 2 _)).append (hmark rfl)).append (hregister rfl)
  | zeroPageRelative =>
    exact ((hnumber .yellow 2 _).append (hmark rfl)).append (hnumber .green 4 _)
  | absolute => exact hnumber .yellow 4 _
  | absoluteX => exact ((hnumber .yellow 4 _).append (hmark rfl)).append (hregister rfl)
  | absoluteY => exact ((hnumber .yellow 4 _).append (hmark rfl)).append (hregister rfl)
  | absoluteIndirect => exact ((hmark rfl).append (hnumber .yellow 4 _)).append (hmark rfl)
  | absoluteIndexedIndirect =>
    exact ((((hmark rfl).append (hnumber .yellow 4 _)).append (hmark rfl)).append
      (hregister rfl)).append (hmark rfl)
  | relative => exact hnumber .green 4 _

/-- What a disassembled instruction shows: its mnemonic in a column, and its values. -/
theorem plain_disassemble (i : Instruction) (pc : UInt16) (operand : List UInt8) :
    plain (i.disassemble pc operand) =
      alignLeft 5 i.mnemonic.name.toLower ++ i.mode.written (shownValues i.mode pc operand) := by
  have hmnemonic : ShowsAs (alignLeft 5 i.mnemonic.name.toLower)
      (alignLeft 5 i.mnemonic.name.toLower) := by
    apply showsAs_self
    intro c hc
    rcases i.mnemonic.inName_or_blank_of_mem_alignLeft hc with hname | rfl
    · rintro rfl
      cases hname
    · decide
  exact ((hmnemonic.styled .red).append (showsAs_operandText i.mode pc operand)).plain_eq

end Instruction

/-! ## Rows of tokens -/

/-- The rest of a row, and the kinds of the tokens that it is read as. -/
inductive RowTokens : List Char → List TokenKind → Prop
  | nil : RowTokens [] []
  | blank {c : Char} {cs : List Char} {kinds : List TokenKind} (hblank : isBlank c = true)
      (hrest : RowTokens cs kinds) : RowTokens (c :: cs) kinds
  | token {lexeme : LexemeKind} {text rest : List Char} {kind : TokenKind}
      {kinds : List TokenKind} (hform : LexemeForm lexeme text)
      (hends : lexeme.endsBefore rest = true)
      (hspells : ∀ pos, Lexeme.Spells ⟨lexeme, String.ofList text, pos⟩ kind)
      (hrest : RowTokens rest kinds) : RowTokens (lexeme.spelling text ++ rest) (kind :: kinds)

theorem Lexeme.Spells.isWord {l : Lexeme} {kind : TokenKind} (h : l.Spells kind) :
    l.isWord = true := by
  rw [isWord_eq, contribution_eq_token_iff.2 h]

/-- The words of such a row spell these tokens, and all of it can be read. -/
theorem RowTokens.forall₂_spells {cs : List Char} {kinds : List TokenKind} (h : RowTokens cs kinds)
    (row column : Nat) :
    List.Forall₂ Lexeme.Spells ((Lexeme.scan row 0 column cs).filter Lexeme.isWord) kinds := by
  induction h generalizing column with
  | nil => exact .nil
  | blank hblank _ ih =>
    rw [Lexeme.scan_blank hblank]
    exact ih (column + 1)
  | token hform hends hspells _ ih =>
    rw [Lexeme.scan_spelling_append hform hends,
      List.filter_cons_of_pos (hspells ⟨row, column⟩).isWord]
    exact .cons (hspells _) (ih _)

namespace RowTokens

variable {rest : List Char} {kinds : List TokenKind}

theorem mark {c : Char} {lexeme : LexemeKind} {kind : TokenKind}
    (hmark : LexemeKind.ofMark? c = some lexeme)
    (hspells : ∀ text pos, Lexeme.Spells ⟨lexeme, text, pos⟩ kind) (hrest : RowTokens rest kinds) :
    RowTokens (c :: rest) (kind :: kinds) := by
  have h := RowTokens.token (.mark hmark) (LexemeKind.endsBefore_of_ofMark? hmark rest)
    (hspells _) hrest
  rwa [LexemeKind.spelling_of_ofMark? hmark] at h

theorem number {width n : Nat} (hn : n < 0x100000000)
    (hends : Lexeme.endsBefore Lexeme.operandClosing rest = true) (hrest : RowTokens rest kinds) :
    RowTokens ('$' :: ((hexPadded width n).toList ++ rest)) (.number n :: kinds) := by
  refine @RowTokens.token .hexadecimal ('$' :: (hexPadded width n).toList) rest (.number n) kinds
    (.hexadecimal (Numeral.hexPadded_ne_nil width n) fun _ =>
      Numeral.isHexadecimal_of_mem_hexPadded)
    hends (fun pos => ⟨rfl, ?_⟩) hrest
  rw [← Numeral.toList_marked_hexPadded, String.ofList_toList, Numeral.parse?_hexPadded hn]
  rfl

theorem register {c : Char} {r : Register} (hstart : Lexeme.startsName c = true) (hletter : c ≠ '_')
    (hmnemonic : Mnemonic.parse? (String.ofList [c]) = none)
    (hregister : Register.parse? (String.ofList [c]) = some r)
    (hends : Lexeme.endsBefore Lexeme.operandClosing rest = true) (hrest : RowTokens rest kinds) :
    RowTokens (c :: rest) (.register r :: kinds) := by
  refine @RowTokens.token .identifier [c] rest (.register r) kinds (.identifier hstart ?_ ?_) hends
    (fun pos => ⟨rfl, hmnemonic, hregister⟩) hrest
  · rw [List.forall_mem_singleton]
    exact Lexeme.inName_of_startsName hstart
  · exact ⟨c, List.mem_singleton_self c, hletter⟩

theorem comma (hrest : RowTokens rest kinds) : RowTokens (',' :: rest) (.comma :: kinds) :=
  mark rfl (fun _ _ => rfl) hrest

theorem leftParen (hrest : RowTokens rest kinds) : RowTokens ('(' :: rest) (.leftParen :: kinds) :=
  mark rfl (fun _ _ => rfl) hrest

theorem rightParen (hrest : RowTokens rest kinds) :
    RowTokens (')' :: rest) (.rightParen :: kinds) :=
  mark rfl (fun _ _ => rfl) hrest

theorem registerX (hends : Lexeme.endsBefore Lexeme.operandClosing rest = true)
    (hrest : RowTokens rest kinds) : RowTokens ('X' :: rest) (.register .x :: kinds) :=
  register rfl (by decide) (by decide +kernel) (by decide +kernel) hends hrest

theorem registerY (hends : Lexeme.endsBefore Lexeme.operandClosing rest = true)
    (hrest : RowTokens rest kinds) : RowTokens ('Y' :: rest) (.register .y :: kinds) :=
  register rfl (by decide) (by decide +kernel) (by decide +kernel) hends hrest

end RowTokens

theorem Mode.rowTokens_written (mode : Mode) {values : List Nat}
    (h : ∀ n ∈ values, n < 0x100000000) :
    RowTokens (mode.written values).toList (mode.operandTokens values) := by
  have hvalue : ∀ i, values.getD i 0 < 0x100000000 := by
    intro i
    rw [List.getD_eq_getElem?_getD]
    cases hi : values[i]? with
    | none => decide
    | some n => exact h n (List.mem_of_getElem? hi)
  have digits : ∀ {width n : Nat}, n < 0x100000000 →
      RowTokens ('$' :: (hexPadded width n).toList) [.number n] := by
    intro width n hn
    have hnumber := @RowTokens.number [] [] width n hn rfl .nil
    rwa [List.append_nil] at hnumber
  -- The characters of the operand, with the digits of its values left as they are.
  cases mode <;>
    simp only [written, operandTokens, String.toList_append, String.reduceToList, List.append_assoc,
      List.cons_append, List.nil_append]
  case implied => exact .nil
  case stack => exact .nil
  case accumulator =>
    exact .register rfl (by decide) (by decide +kernel) (by decide +kernel) rfl .nil
  case immediate => exact .mark rfl (fun _ _ => rfl) (digits (hvalue 0))
  case zeroPage => exact digits (hvalue 0)
  case zeroPageX => exact .number (hvalue 0) rfl (.comma (.registerX rfl .nil))
  case zeroPageY => exact .number (hvalue 0) rfl (.comma (.registerY rfl .nil))
  case zeroPageIndirect => exact .leftParen (.number (hvalue 0) rfl (.rightParen .nil))
  case zeroPageIndexedIndirect =>
    exact .leftParen (.number (hvalue 0) rfl (.comma (.registerX rfl (.rightParen .nil))))
  case zeroPageIndirectIndexed =>
    exact .leftParen (.number (hvalue 0) rfl (.rightParen (.comma (.registerY rfl .nil))))
  case zeroPageRelative => exact .number (hvalue 0) rfl (.comma (digits (hvalue 1)))
  case absolute => exact digits (hvalue 0)
  case absoluteX => exact .number (hvalue 0) rfl (.comma (.registerX rfl .nil))
  case absoluteY => exact .number (hvalue 0) rfl (.comma (.registerY rfl .nil))
  case absoluteIndirect => exact .leftParen (.number (hvalue 0) rfl (.rightParen .nil))
  case absoluteIndexedIndirect =>
    exact .leftParen (.number (hvalue 0) rfl (.comma (.registerX rfl (.rightParen .nil))))
  case relative => exact digits (hvalue 0)

/-! ## The row of an instruction -/

theorem RowTokens.blanks (n : Nat) {rest : List Char} {kinds : List TokenKind}
    (h : RowTokens rest kinds) : RowTokens (List.replicate n ' ' ++ rest) kinds := by
  induction n with
  | zero => exact h
  | succ n ih =>
    rw [List.replicate_succ]
    exact .blank rfl ih

namespace Instruction

theorem shownValues_lt (mode : Mode) (pc : UInt16) (operand : List UInt8) :
    ∀ n ∈ shownValues mode pc operand, n < 0x10000 := by
  have hbyte : ∀ b : UInt8, b.toNat < 0x10000 := fun b => Nat.lt_trans b.toNat_lt (by decide)
  have hword : ∀ w : UInt16, w.toNat < 0x10000 := fun w => w.toNat_lt
  cases mode with
  | implied | stack | accumulator => exact List.forall_mem_nil _
  | immediate | zeroPage | zeroPageX | zeroPageY | zeroPageIndirect | zeroPageIndexedIndirect
  | zeroPageIndirectIndexed => exact List.forall_mem_singleton.2 (hbyte _)
  | absolute | absoluteX | absoluteY | absoluteIndirect | absoluteIndexedIndirect | relative =>
    exact List.forall_mem_singleton.2 (hword _)
  | zeroPageRelative =>
    exact List.forall_mem_cons.2 ⟨hbyte _, List.forall_mem_singleton.2 (hword _)⟩

theorem rowTokens_disassemble (i : Instruction) (pc : UInt16) (operand : List UInt8) :
    RowTokens (plain (i.disassemble pc operand)).toList
      (.opcode i.mnemonic :: i.mode.operandTokens (shownValues i.mode pc operand)) := by
  have hlength := i.mnemonic.length_toLower_name
  have hoperand := i.mode.rowTokens_written fun n hn =>
    Nat.lt_trans (shownValues_lt i.mode pc operand n hn) (by decide)
  rw [plain_disassemble, alignLeft, String.toList_append, String.toList_append,
    String.toList_ofList, List.append_assoc]
  refine @RowTokens.token .identifier i.mnemonic.name.toLower.toList _ (.opcode i.mnemonic) _
    i.mnemonic.form_toLower_name ?_ ?_ (hoperand.blanks _)
  · obtain ⟨n, hn⟩ := Nat.exists_eq_add_of_lt hlength
    rw [show 5 - i.mnemonic.name.toLower.length = n + 1 by omega, List.replicate_succ]
    rfl
  · intro pos
    rw [String.ofList_toList]
    exact (if_pos rfl).trans i.mnemonic.parse?_toLower_name

/-- The row of a disassembled instruction is read as its mnemonic and the values that it shows. -/
theorem forall₂_spells_disassemble (i : Instruction) (pc : UInt16) (operand : List UInt8)
    (row : Nat) :
    List.Forall₂ Lexeme.Spells
      ((Lexeme.ofRow row (plain (i.disassemble pc operand))).filter Lexeme.isWord)
      (.opcode i.mnemonic :: i.mode.operandTokens (shownValues i.mode pc operand)) :=
  (i.rowTokens_disassemble pc operand).forall₂_spells row 1

end Instruction

end Assembler65
