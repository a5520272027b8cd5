import Assembler65.Proofs.AlikeLines
import Assembler65.Proofs.CharacterClasses

/-!
# Constants in the place of their names

`Lexeme.expanded` leaves the definitions of a program out and writes every constant as a decimal
numeral where it is named. Main statement: `outcome_expanded_eq_ok_iff`, a program whose definitions
keep the rules is accepted exactly if its expansion is, with the same records and the same labels.
-/

set_option autoImplicit false

namespace Assembler65

/-! ## Decimal numerals -/

namespace Numeral

theorem digitValue?_of_isDigit {c : Char} (h : c.isDigit = true) :
    digitValue? c = some (c.toNat - '0'.toNat) := by
  rw [isDigit_iff] at h
  exact digitValue?_eq_some_iff.2 (.inl ⟨h.1, h.2, rfl⟩)

theorem positional_eq_ofDigitChars {digits : List Char} (h : ∀ c ∈ digits, c.isDigit = true) :
    positional 10 digits = Nat.ofDigitChars 10 digits 0 := by
  rw [positional, Nat.ofDigitChars_eq_foldl]
  apply List.foldl_ext
  intro value c hc
  rw [digitValue?_of_isDigit (h c hc), Option.getD_some, Nat.mul_comm]

/-- Decimal digits of a positive number do not start with a zero. -/
theorem head?_toDigits_ne {n : Nat} (h : 0 < n) : (Nat.toDigits 10 n).head? ≠ some '0' := by
  induction n using Nat.strongRecOn with
  | ind n ih =>
    by_cases hlt : n < 10
    · rw [Nat.toDigits_of_lt_base hlt]
      simp
      omega
    · rw [Nat.toDigits_of_base_le (by omega) (by omega)]
      rw [List.head?_append_of_ne_nil _ Nat.toDigits_ne_nil]
      exact ih (n / 10) (by omega) (by omega)

/-- A decimal numeral is read back as its number. -/
theorem parse?_toString {n : Nat} (h : n ≤ wordLimit) : parse? (toString n) = some n := by
  have hlist : (toString n).toList = Nat.toDigits 10 n := by
    rw [Nat.toString_eq_repr, Nat.toList_repr]
  have hdigits : ∀ c ∈ Nat.toDigits 10 n, c.isDigit = true := fun c hc =>
    Nat.isDigit_of_mem_toDigits (by omega) (by omega) hc
  rw [parse?, hlist]
  split
  case h_1 heq => exact absurd (hdigits '$' (heq ▸ List.mem_cons_self)) (by decide)
  case h_2 heq => exact absurd (hdigits '%' (heq ▸ List.mem_cons_self)) (by decide)
  case h_3 d digits heq =>
    -- Only zero starts with the digit zero, and it has no other.
    have hzero : n = 0 := by
      by_contra hne
      exact head?_toDigits_ne (Nat.pos_of_ne_zero hne) (by rw [heq]; rfl)
    rw [hzero, Nat.toDigits_zero] at heq
    cases heq
  case h_4 =>
    have hall : (Nat.toDigits 10 n).all (isDigitIn 10) = true :=
      List.all_eq_true.2 fun c hc => isDigitIn_ten_iff.2 (hdigits c hc)
    have hbound : n < 0x100000000 := by
      rw [wordLimit] at h
      omega
    simp [ofDigits?, hall, positional_eq_ofDigitChars hdigits, Nat.ofDigitChars_ten_toDigits,
      Nat.toDigits_ne_nil, hbound]

end Numeral

/-! ## Expansion -/

namespace Lexeme

/-- A lexeme, or a decimal numeral in its place if it names a constant. -/
def inlined (constants : Constants) (l : Lexeme) : Lexeme :=
  if l.isName then
    match constants.find? l.text with
    | some value => { l with kind := .decimal, text := toString value.toNat }
    | none => l
  else l

/-- The lexemes of all rows but definitions, with decimal numerals in the place of constants. -/
def expanded (lexemes : List Lexeme) : List Lexeme :=
  ((lexemes.splitBy sameRow).filter fun row => !startsDefinition (row.filter isWord)).flatten.map
    (inlined (symbolsOf (wordRows lexemes)).constants)

variable {constants : Constants} {word : Lexeme}

/-- A lexeme is replaced exactly if it names a constant. -/
theorem inlined_cases (constants : Constants) (l : Lexeme) :
    (l.isName = true ∧ ∃ value, constants.find? l.text = some value ∧
        l.inlined constants = { l with kind := .decimal, text := toString value.toNat }) ∨
      ((l.isName = true → constants.find? l.text = none) ∧ l.inlined constants = l) := by
  rw [inlined]
  cases hname : l.isName with
  | false => exact .inr ⟨nofun, rfl⟩
  | true =>
    rw [if_pos rfl]
    cases hfind : constants.find? l.text with
    | some value => exact .inl ⟨rfl, value, rfl, rfl⟩
    | none => exact .inr ⟨fun _ => rfl, rfl⟩

@[simp] theorem pos_inlined (constants : Constants) (l : Lexeme) :
    (l.inlined constants).pos = l.pos := by
  rcases inlined_cases constants l with ⟨-, value, -, heq⟩ | ⟨-, heq⟩
  · rw [heq]
  · rw [heq]

theorem isComment_inlined (constants : Constants) (l : Lexeme) :
    ((l.inlined constants).kind != .comment) = (l.kind != .comment) := by
  rcases inlined_cases constants l with ⟨hname, value, -, heq⟩ | ⟨-, heq⟩
  · rw [heq, kind_of_isName hname]
    rfl
  · rw [heq]

theorem isWord_inlined (constants : Constants) (l : Lexeme) :
    (l.inlined constants).isWord = l.isWord := by
  rcases inlined_cases constants l with ⟨hname, value, -, heq⟩ | ⟨-, heq⟩
  · rw [heq, isWord, isWord, kind_of_isName hname]
    rfl
  · rw [heq]

theorem asDirective?_inlined (constants : Constants) (l : Lexeme) :
    (l.inlined constants).asDirective? = l.asDirective? := by
  rcases inlined_cases constants l with ⟨hname, value, -, heq⟩ | ⟨-, heq⟩
  · rw [heq, asDirective?, asDirective?, kind_of_isName hname]
  · rw [heq]

theorem isSome_token?_inlined (constants : Constants) (l : Lexeme) :
    (l.inlined constants).token?.isSome = l.token?.isSome := by
  rcases inlined_cases constants l with ⟨hname, value, -, heq⟩ | ⟨-, heq⟩
  · have hspells : l.Spells (.identifier l.text) := ⟨hname, rfl⟩
    rw [heq, hspells.isSome_token?]
    rfl
  · rw [heq]

end Lexeme

/-- A numeral in the place of a constant is read as a token like that of the constant. -/
theorem Inlines.alike {constants : Constants} {word : Lexeme} {t t' : Token}
    (h : Inlines constants word t) (h' : Inlines {} (word.inlined constants) t') : t.Alike t' := by
  refine ⟨?_, h.pos.symm.trans ((word.pos_inlined constants).symm.trans h'.pos)⟩
  rcases Lexeme.inlined_cases constants word with ⟨hname, value, hfind, heq⟩ | ⟨hnone, heq⟩
  · rw [heq] at h'
    have hspells : Lexeme.Spells { word with kind := .decimal, text := toString value.toNat }
        (.number value.toNat) := by
      refine ⟨rfl, ?_⟩
      rw [Numeral.parse?_toString (Nat.le_of_lt_succ value.toNat_lt)]
      rfl
    rw [h.kind_of_isName hname, hfind, h'.kind_eq hspells rfl]
  · rw [heq] at h'
    cases hname : word.isName with
    | true =>
      rw [h.kind_of_isName hname, h'.kind_of_isName hname, hnone hname]
      rfl
    | false =>
      -- A word that is no name does not look at the constants.
      rcases h.cases_spells with ⟨hname', -⟩ | ⟨hname', -⟩ | ⟨-, hspells⟩
      · cases hname.symm.trans hname'
      · cases hname.symm.trans hname'
      · rcases h'.cases_spells with ⟨hname', -⟩ | ⟨hname', -⟩ | ⟨-, hspells'⟩
        · cases hname.symm.trans hname'
        · cases hname.symm.trans hname'
        · exact hspells.unique hspells'

theorem startsDefinition_inlined (constants : Constants) (row : List Lexeme) :
    startsDefinition (row.map (Lexeme.inlined constants)) = startsDefinition row := by
  cases row with
  | nil => rfl
  | cons word rest =>
    rw [List.map_cons, startsDefinition, startsDefinition, Lexeme.asDirective?_inlined]

theorem forall₂_of_forall₂_of_forall₂ {α β γ : Type} {r : α → β → Prop} {s : α → γ → Prop}
    {t : β → γ → Prop} {xs : List α} {ys : List β} {zs : List γ} (h : List.Forall₂ r xs ys)
    (h' : List.Forall₂ s xs zs) (ht : ∀ x ∈ xs, ∀ y z, r x y → s x z → t y z) :
    List.Forall₂ t ys zs := by
  induction h generalizing zs with
  | nil =>
    cases h'
    exact .nil
  | cons hhead _ ih =>
    rw [List.forall_mem_cons] at ht
    rcases h' with _ | @⟨_, z, _, zs, hz, hrest⟩
    exact .cons (ht.1 _ _ hhead hz) (ih hrest ht.2)

/-- The line of a row and that of its expansion have the same tokens once their constants are
inlined. -/
theorem RowReads.alike {constants : Constants} {row : List Lexeme} {l l' : Line} (hrow : row ≠ [])
    (h : RowReads row l) (h' : RowReads (row.map (Lexeme.inlined constants)) l') :
    (constants.inline l).Alike (Constants.inline {} l') := by
  refine ⟨?_, ?_⟩
  · obtain ⟨word, hword⟩ := List.exists_mem_of_ne_nil row hrow
    have hnumber := h'.row _ (List.mem_map_of_mem hword)
    rw [Lexeme.pos_inlined] at hnumber
    exact (h.row word hword).symm.trans hnumber
  · have htokens := List.forall₂_map_left_iff.1 (h'.tokens_inline {})
    exact forall₂_of_forall₂_of_forall₂ (h.tokens_inline constants) htokens
      fun _ _ _ _ => Inlines.alike

/-! ## The rows of an expansion -/

theorem splitBy_ofSource (s : Source) :
    (Lexeme.ofSource s).splitBy Lexeme.sameRow =
      s.content.map fun c => Lexeme.ofRow c.1 c.2 := by
  rw [Lexeme.ofSource, List.flatMap_def]
  refine splitBy_flatten_rows s.pairwise_content ?_ fun _ _ => Lexeme.row_of_mem_scan
  intro c
  obtain ⟨l, hl, -⟩ := Lexeme.exists_lineEnd_mem_scan c.1 0 1 c.2.toList
  exact List.ne_nil_of_mem hl

/-- Grouping the lexemes of an expansion by row finds the rows that are no definitions. -/
theorem rows_expanded (s : Source) :
    Lexeme.rows (Lexeme.expanded (Lexeme.ofSource s)) =
      (s.content.filter fun c =>
          !startsDefinition ((Lexeme.ofRow c.1 c.2).filter Lexeme.isWord)).map fun c =>
        (rowLexemes c).map (Lexeme.inlined (symbolsOf s.words).constants) := by
  have hflat : (Lexeme.expanded (Lexeme.ofSource s)).filter (fun l => l.kind != .comment) =
      ((s.content.filter fun c =>
          !startsDefinition ((Lexeme.ofRow c.1 c.2).filter Lexeme.isWord)).map fun c =>
        (rowLexemes c).map (Lexeme.inlined (symbolsOf s.words).constants)).flatten := by
    rw [Lexeme.expanded, wordRows_ofSource, splitBy_ofSource, List.filter_map, List.filter_map]
    simp only [Function.comp_def, Lexeme.isComment_inlined, List.filter_flatten,
      List.map_flatten, List.map_map]
    rfl
  -- The rows that are left keep their numbers, which are still in order.
  rw [Lexeme.rows, hflat]
  apply splitBy_flatten_rows
  · exact s.pairwise_content.filter _
  · intro c
    rw [ne_eq, List.map_eq_nil_iff]
    exact rowLexemes_ne_nil c
  · intro c l hl
    obtain ⟨l, hmem, rfl⟩ := List.mem_map.1 hl
    rw [Lexeme.pos_inlined]
    exact row_of_mem_rowLexemes hmem

/-- The rows of an expansion are those of the program without the definitions. -/
theorem wordRows_expanded (s : Source) :
    Lexeme.wordRows (Lexeme.expanded (Lexeme.ofSource s)) =
      ((s.words).filter fun row => !startsDefinition row).map fun row =>
        row.map (Lexeme.inlined (symbolsOf s.words).constants) := by
  rw [Lexeme.wordRows, rows_expanded, List.map_map]
  generalize (symbolsOf s.words).constants = constants
  have hwords : ∀ c, ((rowLexemes c).map (Lexeme.inlined constants)).filter Lexeme.isWord =
      ((Lexeme.ofRow c.1 c.2).filter Lexeme.isWord).map (Lexeme.inlined constants) := by
    intro c
    rw [List.filter_map, ← filter_isWord_rowLexemes]
    simp only [Function.comp_def, Lexeme.isWord_inlined]
  rw [Source.words]
  simp only [Function.comp_def, hwords]
  -- Both sides are the rows of the source that have words and are no definitions.
  simp only [List.filter_map, List.map_map, List.filter_filter, Function.comp_def,
    List.isEmpty_map, Bool.and_comm]

/-- No row of an expansion is a definition. -/
theorem startsDefinition_of_mem_wordRows_expanded {s : Source} {row : List Lexeme}
    (h : row ∈ Lexeme.wordRows (Lexeme.expanded (Lexeme.ofSource s))) :
    startsDefinition row = false := by
  rw [wordRows_expanded] at h
  obtain ⟨row, hrow, rfl⟩ := List.mem_map.1 h
  have hnot := (List.mem_filter.1 hrow).2
  rw [Bool.not_eq_true'] at hnot
  rw [startsDefinition_inlined, hnot]

/-! ## The lines of an expansion -/

section Lines

variable {s : Source}

/-- An expansion can be read exactly if the program can, the definitions apart. -/
theorem readingFaults_expanded_eq_nil_iff
    (hdefinitions : ∀ row ∈ s.words, startsDefinition row = true →
      (definition? row).isSome = true) :
    Line.readingFaults (Lexeme.expanded (Lexeme.ofSource s)) = [] ↔
      Line.readingFaults (Lexeme.ofSource s) = [] := by
  rw [readingFaults_eq_nil_iff, wordRows_expanded, readingFaults_ofSource_eq_nil_iff]
  constructor
  · intro h row hrow word hword
    cases hdefinition : startsDefinition row with
    | true =>
      have hform := (isSome_definition?_iff {} hdefinition).1 (hdefinitions row hrow hdefinition)
      exact hform.1.isSome_token? word hword
    | false =>
      have hmem : row ∈ s.words.filter fun row => !startsDefinition row :=
        List.mem_filter.2 ⟨hrow, by rw [hdefinition]; rfl⟩
      have hread := h _ (List.mem_map_of_mem hmem) _ (List.mem_map_of_mem hword)
      rwa [Lexeme.isSome_token?_inlined] at hread
  · intro h row' hrow' word' hword'
    obtain ⟨row, hrow, rfl⟩ := List.mem_map.1 hrow'
    obtain ⟨word, hword, rfl⟩ := List.mem_map.1 hword'
    rw [Lexeme.isSome_token?_inlined]
    exact h row (List.mem_of_mem_filter hrow) word hword

/-- Leaving out definitions leaves out the same rows and lines. -/
theorem forall₂_filter_definitions {rows : List (List Lexeme)} {lines : List Line}
    (h : List.Forall₂ RowReads rows lines) :
    List.Forall₂ RowReads (rows.filter fun row => !startsDefinition row)
      (lines.filter fun l => !l.isDefinition) := by
  induction h with
  | nil => exact .nil
  | cons hhead _ ih =>
    rw [List.filter_cons, List.filter_cons, hhead.isDefinition_eq]
    split
    case isTrue => exact .cons hhead ih
    case isFalse => exact ih

/-- The lines of a program and of its expansion have the same tokens once their constants are
inlined. -/
theorem forall₂_alike_expanded (h : Line.readingFaults (Lexeme.ofSource s) = [])
    (h' : Line.readingFaults (Lexeme.expanded (Lexeme.ofSource s)) = []) :
    List.Forall₂ Line.Alike
      (Program.inlinedLines (symbolsOf s.words).constants
        (Line.ofLexemes (Lexeme.ofSource s)))
      (Program.inlinedLines {} (Line.ofLexemes (Lexeme.expanded (Lexeme.ofSource s)))) := by
  have hlines := forall₂_filter_definitions (forall₂_lines h)
  have hlines' := forall₂_filter_definitions (forall₂_wordRows h')
  have hall : (Lexeme.wordRows (Lexeme.expanded (Lexeme.ofSource s))).filter
      (fun row => !startsDefinition row) =
        Lexeme.wordRows (Lexeme.expanded (Lexeme.ofSource s)) := by
    rw [List.filter_eq_self]
    intro row hrow
    rw [startsDefinition_of_mem_wordRows_expanded hrow]
    rfl
  rw [hall, wordRows_expanded, List.forall₂_map_left_iff] at hlines'
  rw [Program.inlinedLines, Program.inlinedLines, List.forall₂_map_left_iff,
    List.forall₂_map_right_iff]
  refine forall₂_of_forall₂_of_forall₂ hlines hlines' ?_
  intro row hrow l l'
  exact RowReads.alike (Source.ne_nil_of_mem_words (List.mem_of_mem_filter hrow))

/-- An expansion defines no constants. -/
theorem collect_constants_expanded
    (h : Line.readingFaults (Lexeme.expanded (Lexeme.ofSource s)) = []) :
    collect Constants.collectStep {}
      (Line.ofLexemes (Lexeme.expanded (Lexeme.ofSource s))) = ({}, []) := by
  have hnone : (Lexeme.wordRows (Lexeme.expanded (Lexeme.ofSource s))).filterMap definition? =
      [] := by
    rw [List.filterMap_eq_nil_iff]
    intro row hrow
    exact definition?_eq_none (startsDefinition_of_mem_wordRows_expanded hrow)
  have hcollect := Constants.collects.collect_eq_iff (forall₂_wordRows h)
  rw [hnone] at hcollect
  refine hcollect.2 ⟨?_, List.nodup_nil⟩
  intro row hrow hdefinition
  rw [startsDefinition_of_mem_wordRows_expanded hrow] at hdefinition
  cases hdefinition

end Lines

/-- A program whose definitions keep the rules is accepted exactly if its expansion is. Both have
the same records and the same labels. -/
theorem outcome_expanded_eq_ok_iff (s : Source) {lexemes : List Lexeme}
    (h : s.lexemes = .ok lexemes)
    (hdefinitions : ∀ row ∈ s.words, startsDefinition row = true →
      (definition? row).isSome = true)
    (hdistinct : (symbolsOf s.words).constants.names.Nodup) :
    (∀ records, (Program.resolve {} lexemes).outcome = .ok records ↔
        (Program.resolve {} (Lexeme.expanded lexemes)).outcome = .ok records) ∧
      ∀ records, (Program.resolve {} lexemes).outcome = .ok records →
        (Program.resolve {} lexemes).symbols.labels =
          (Program.resolve {} (Lexeme.expanded lexemes)).symbols.labels := by
  obtain rfl := Source.lexemes_eq h
  have hreading := readingFaults_expanded_eq_nil_iff hdefinitions
  by_cases hread : Line.readingFaults (Lexeme.ofSource s) = []
  · have halike := forall₂_alike_expanded hread (hreading.2 hread)
    have hconstants := (Constants.collects.collect_eq_iff (forall₂_lines hread)).2
      ⟨hdefinitions, hdistinct⟩
    have hconstants' := collect_constants_expanded (hreading.2 hread)
    have hlabels : (Program.resolve {} (Lexeme.ofSource s)).symbols.labels =
        (Program.resolve {} (Lexeme.expanded (Lexeme.ofSource s))).symbols.labels := by
      rw [Program.labels_resolve hconstants, Program.labels_resolve hconstants']
      exact congrArg Prod.fst (Program.declareAll_of_alike halike {})
    refine ⟨?_, fun _ _ => hlabels⟩
    intro records
    rw [Program.outcome_eq_ok_iff_yields hconstants, Program.outcome_eq_ok_iff_yields hconstants',
      hreading, hlabels]
    refine and_congr_right fun _ => ⟨?_, ?_⟩
    · intro hyields
      exact hyields.of_alike halike Program.isDefinition_of_mem_inlinedLines
    · intro hyields
      exact hyields.of_alike (halike.flip.imp fun _ _ => Line.Alike.symm)
        Program.isDefinition_of_mem_inlinedLines
  · -- A row that cannot be read stands in the program and in its expansion.
    have hfails : ∀ records, (Program.resolve {} (Lexeme.ofSource s)).outcome ≠ .ok records :=
      fun records hrecords => hread (Program.outcome_eq_ok_iff.1 hrecords).1
    have hfails' : ∀ records,
        (Program.resolve {} (Lexeme.expanded (Lexeme.ofSource s))).outcome ≠ .ok records :=
      fun records hrecords => hread (hreading.1 (Program.outcome_eq_ok_iff.1 hrecords).1)
    refine ⟨?_, fun records hrecords => absurd hrecords (hfails records)⟩
    intro records
    exact ⟨fun hrecords => absurd hrecords (hfails records),
      fun hrecords => absurd hrecords (hfails' records)⟩

/-- A constant that shares its name with a label and is used above its definition, in letters of
either case. -/
def sharedName : Source where
  name := "shared.s"
  rows := ["size: LDA #SIZE", "STA Size,X", ".byte size, 1", "JMP DONE",
    ".define sIzE $10 ; sixteen", "Done: RTS"]

/-- The records of `sharedName`. -/
def sharedNameRecords : List Record :=
  [⟨⟨1, 1⟩, .label 0⟩, ⟨⟨1, 7⟩, .operation ⟨.lda, .immediate⟩ 0xA9 (.byte 0x10)⟩,
    ⟨⟨2, 1⟩, .operation ⟨.sta, .zeroPageX⟩ 0x95 (.byte 0x10)⟩,
    ⟨⟨3, 1⟩, .bytes [0x10, 1]⟩,
    ⟨⟨4, 1⟩, .operation ⟨.jmp, .absolute⟩ 0x4C (.label 1)⟩,
    ⟨⟨6, 1⟩, .label 1⟩, ⟨⟨6, 7⟩, .operation ⟨.rts, .stack⟩ 0x60 .none⟩]

theorem outcome_expanded_sharedName :
    sharedName.lexemes = .ok (Lexeme.ofSource sharedName) ∧
      (Program.resolve {} (Lexeme.ofSource sharedName)).outcome = .ok sharedNameRecords ∧
      (Program.resolve {} (Lexeme.expanded (Lexeme.ofSource sharedName))).outcome =
        .ok sharedNameRecords ∧
      (Program.resolve {} (Lexeme.ofSource sharedName)).symbols.labels =
        (Program.resolve {} (Lexeme.expanded (Lexeme.ofSource sharedName))).symbols.labels := by
  have hlexemes : sharedName.lexemes = .ok (Lexeme.ofSource sharedName) := by decide +kernel
  have houtcome : (Program.resolve {} (Lexeme.ofSource sharedName)).outcome =
      .ok sharedNameRecords := by
    decide +kernel
  have hdefinitions : ∀ row ∈ sharedName.words, startsDefinition row = true →
      (definition? row).isSome = true := by
    decide +kernel
  have hdistinct : (symbolsOf sharedName.words).constants.names.Nodup := by decide +kernel
  have hexpanded := outcome_expanded_eq_ok_iff sharedName hlexemes hdefinitions hdistinct
  exact ⟨hlexemes, houtcome, (hexpanded.1 _).1 houtcome, hexpanded.2 _ houtcome⟩

end Assembler65
