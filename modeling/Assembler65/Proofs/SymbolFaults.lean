import Assembler65.Proofs.RepeatedNames

/-!
# Faults of symbols

A label that is declared again is reported once for each row that does so, and so is a constant that
is defined again; a broken definition claims its name all the same. Both tables are filled by steps
that enter names (`Labels.enters`, `Constants.enters`). Main statement: `symbol_faults_exact`, of
sources with any other faults.
-/

set_option autoImplicit false

namespace Assembler65

open Fault (about)

/-- The word that declares a label at the start of a row, if its name is free to be one. -/
def freeDeclaration? (row : List Lexeme) : Option Lexeme :=
  (declaration? row).filter fun word => !isReserved word.text

/-- The name that a definition claims, whatever follows it. -/
def claimedName? : List Lexeme → Option Lexeme
  | directive :: name :: _ =>
    if directive.asDirective? = some .define ∧ name.isName = true then some name else none
  | _ => none

/-- The fault of a label that is declared again. -/
def labelRepeated (word first : Lexeme) : Fault :=
  .inSource word.pos (.redefinedLabel word.text first.pos.row)

/-- The fault of a constant that is defined again. -/
def constantRepeated (word _first : Lexeme) : Fault :=
  .inSource word.pos (.redefinedConstant word.text)

namespace Source

/-- The words that declare labels at the start of rows. -/
def declared (s : Source) : List Lexeme := s.words.filterMap freeDeclaration?

/-- The words that definitions claim as names of constants. -/
def claimed (s : Source) : List Lexeme := s.words.filterMap claimedName?

/-- One fault for each declaration of a label that an earlier row declares. -/
def repeatedLabels (s : Source) : List Fault :=
  s.declared.filterMap (repeatFault? labelRepeated s.declared)

/-- One fault for each definition of a name that an earlier row claims. -/
def repeatedConstants (s : Source) : List Fault :=
  s.claimed.filterMap (repeatFault? constantRepeated s.claimed)

end Source

/-! ## Labels -/

theorem freeDeclaration?_eq_some_iff {row : List Lexeme} {word : Lexeme} :
    freeDeclaration? row = some word ↔
      declaration? row = some word ∧ isReserved word.text = false := by
  rw [freeDeclaration?, Option.filter_eq_some_iff, Bool.not_eq_true']

theorem freeDeclaration?_readableWords (words : List Lexeme) :
    freeDeclaration? (readableWords words) = freeDeclaration? words := by
  rw [freeDeclaration?, freeDeclaration?]
  congr 1
  cases words with
  | nil => rfl
  | cons word rest =>
    by_cases hword : word.token?.isSome = true
    · rw [readableWords_cons_of_isSome hword]
      rfl
    · -- A declaration can be read, so that the word is none.
      have hkind : word.kind ≠ .declaration := by
        intro hkind
        have hspells : word.Spells (.declaration word.text) := ⟨hkind, rfl⟩
        exact hword hspells.isSome_token?
      rw [readableWords_cons_of_none hword]
      exact (if_neg hkind).symm

theorem mem_of_freeDeclaration? {row : List Lexeme} {word : Lexeme}
    (h : freeDeclaration? row = some word) : word ∈ row :=
  mem_of_declaration? (freeDeclaration?_eq_some_iff.1 h).1

namespace Labels

variable {labels : Labels} {l : Line} {t : Token} {rest : List Token} {name : String}

theorem declare_of_reserved (htokens : l.tokens = t :: rest) (hkind : t.kind = .declaration name)
    (hreserved : isReserved name = true) :
    labels.declare l = (labels, [.inSource t.pos (.reservedLabel name)]) := by
  obtain ⟨kind, text, pos⟩ := t
  cases hkind
  simp only [declare, htokens, hreserved, if_true]

theorem declare_of_known (htokens : l.tokens = t :: rest) (hkind : t.kind = .declaration name)
    (hfree : isReserved name = false) {firstRow : Nat} (hfind : labels.find? name = some firstRow) :
    labels.declare l = (labels, [.inSource t.pos (.redefinedLabel name firstRow)]) := by
  obtain ⟨kind, text, pos⟩ := t
  cases hkind
  simp [declare, htokens, hfree, hfind]

theorem declare_of_new (htokens : l.tokens = t :: rest) (hkind : t.kind = .declaration name)
    (hfree : isReserved name = false) (hfind : labels.find? name = none) :
    labels.declare l = (labels.insert name l.row, []) := by
  obtain ⟨kind, text, pos⟩ := t
  cases hkind
  simp [declare, htokens, hfree, hfind]

end Labels

/-- The line of a row that declares a free name. -/
theorem RowReads.exists_declaration {row : List Lexeme} {l : Line} {word : Lexeme}
    (h : RowReads row l) (hword : freeDeclaration? row = some word) (constants : Constants) :
    l.isDefinition = false ∧ word.pos.row = l.row ∧
      ∃ t rest, (constants.inline l).tokens = t :: rest ∧ t.kind = .declaration word.text ∧
        t.pos = word.pos := by
  obtain ⟨hdeclares, -⟩ := freeDeclaration?_eq_some_iff.1 hword
  rcases cases_declaration (h.tokens_inline constants) with
    ⟨first, t, rest, hfirst, htokens, hrow, hkind, hpos, -⟩ | ⟨hnone, -, -⟩
  · cases hdeclares.symm.trans hfirst
    refine ⟨?_, h.row word (hrow ▸ List.mem_cons_self), t, rest, htokens, hkind, hpos.symm⟩
    rw [h.isDefinition_eq]
    by_contra hstarts
    rw [declaration?_eq_none (Bool.eq_true_of_not_eq_false hstarts)] at hfirst
    cases hfirst
  · rw [hnone] at hdeclares
    cases hdeclares

/-- Declaring the label of a line enters the name that its row declares. -/
theorem Labels.enters (constants : Constants) :
    Enters (collectStep constants) .label freeDeclaration?
      (fun word firstRow => firstRow = word.pos.row) labelRepeated where
  mem := mem_of_freeDeclaration?
  readable := freeDeclaration?_readableWords
  skip := by
    intro row l hrow labels hnone
    rw [collectStep]
    split
    case isTrue => exact ⟨rfl, rfl⟩
    case isFalse =>
      rcases cases_declaration (hrow.tokens_inline constants) with
        ⟨word, t, rest, hword, htokens, -, hkind, -, -⟩ | ⟨-, -, hkinds⟩
      · -- The row declares a name, which can only be a reserved one.
        have hreserved : isReserved word.text = true := by
          by_contra hfree
          rw [freeDeclaration?_eq_some_iff.2 ⟨hword, Bool.eq_false_iff.2 hfree⟩] at hnone
          cases hnone
        rw [declare_of_reserved htokens hkind hreserved]
        exact ⟨rfl, rfl⟩
      · rw [declare_of_no_declaration hkinds]
        exact ⟨rfl, rfl⟩
  enter := by
    intro row l word hrow labels hword hfind
    obtain ⟨hdefinition, hnumber, t, rest, htokens, hkind, -⟩ :=
      hrow.exists_declaration hword constants
    have hfree := (freeDeclaration?_eq_some_iff.1 hword).2
    rw [collectStep, hdefinition, if_neg Bool.false_ne_true,
      declare_of_new htokens hkind hfree hfind]
    exact ⟨rfl, l.row, hnumber.symm, rfl⟩
  refuse := by
    rintro row l word first value hrow labels hword hfind rfl
    obtain ⟨hdefinition, -, t, rest, htokens, hkind, hpos⟩ :=
      hrow.exists_declaration hword constants
    have hfree := (freeDeclaration?_eq_some_iff.1 hword).2
    rw [collectStep, hdefinition, if_neg Bool.false_ne_true,
      declare_of_known htokens hkind hfree hfind, hpos]
    exact ⟨rfl, rfl⟩

/-! ## Constants -/

theorem claimedName?_eq_some_iff {row : List Lexeme} {name : Lexeme} :
    claimedName? row = some name ↔ ∃ directive rest, row = directive :: name :: rest ∧
      directive.asDirective? = some .define ∧ name.isName = true := by
  constructor
  · intro h
    unfold claimedName? at h
    split at h
    case h_1 directive other rest =>
      rw [Option.ite_none_right_eq_some] at h
      cases h.2
      exact ⟨directive, rest, rfl, h.1⟩
    case h_2 => cases h
  · rintro ⟨directive, rest, rfl, hdirective, hname⟩
    rw [claimedName?, if_pos ⟨hdirective, hname⟩]

theorem claimedName?_readableWords (words : List Lexeme) :
    claimedName? (readableWords words) = claimedName? words := by
  apply Option.ext
  intro name
  rw [claimedName?_eq_some_iff, claimedName?_eq_some_iff]
  constructor
  · rintro ⟨directive, rest, hreadable, hclaims⟩
    -- What can be read is the first part of the row.
    have hwords :=
      List.takeWhile_append_dropWhile (p := fun word => word.token?.isSome) (l := words)
    rw [← readableWords, hreadable] at hwords
    exact ⟨directive, _, hwords.symm, hclaims⟩
  · rintro ⟨directive, rest, rfl, hdirective, hname⟩
    have hfirst : directive.Spells (.directive .define) := hdirective
    have hsecond : name.Spells (.identifier name.text) := ⟨hname, rfl⟩
    rw [readableWords_cons_of_isSome hfirst.isSome_token?,
      readableWords_cons_of_isSome hsecond.isSome_token?]
    exact ⟨directive, _, rfl, hdirective, hname⟩

theorem mem_of_claimedName? {row : List Lexeme} {name : Lexeme}
    (h : claimedName? row = some name) : name ∈ row := by
  obtain ⟨directive, rest, rfl, -⟩ := claimedName?_eq_some_iff.1 h
  exact List.mem_cons_of_mem _ List.mem_cons_self

/-- The line of a row that claims a name. -/
theorem RowReads.exists_identifier {row : List Lexeme} {l : Line} {word : Lexeme}
    (h : RowReads row l) (hword : claimedName? row = some word) :
    l.isDefinition = true ∧ ∃ t rest, l.tokens.drop 1 = t :: rest ∧
      t.kind = .identifier word.text ∧ t.pos = word.pos := by
  obtain ⟨directive, words, rfl, hdirective, hname⟩ := claimedName?_eq_some_iff.1 hword
  have hdefinition : l.isDefinition = true := by
    rw [h.isDefinition_eq]
    exact beq_iff_eq.2 hdirective
  refine ⟨hdefinition, ?_⟩
  have hreads := h.reads
  generalize l.tokens = tokens at hreads
  rcases hreads with _ | @⟨_, _, _, _, _, _ | @⟨_, t, _, rest, ht, _⟩⟩
  exact ⟨t, rest, rfl, ht.kind_eq_iff.2 ⟨hname, rfl⟩, ht.pos.symm⟩

/-- A definition whose row claims no name has none. -/
theorem RowReads.kind_ne_identifier {row : List Lexeme} {l : Line} (h : RowReads row l)
    (hdefinition : l.isDefinition = true) (hnone : claimedName? row = none) :
    ∀ t rest name, l.tokens.drop 1 = t :: rest → t.kind ≠ .identifier name := by
  intro t rest name htokens hkind
  rw [h.isDefinition_eq] at hdefinition
  have hreads := h.reads
  generalize l.tokens = tokens at hreads htokens
  rcases hreads with _ | @⟨directive, _, _, _, _, _ | @⟨word, _, words, _, hword, _⟩⟩
  · cases htokens
  · cases htokens
  · cases htokens
    obtain ⟨hname, -⟩ := hword.kind_eq_iff.1 hkind
    rw [claimedName?_eq_some_iff.2 ⟨directive, words, rfl, beq_iff_eq.1 hdefinition, hname⟩]
      at hnone
    cases hnone

/-- The line of a definition enters the name that its row claims, whatever else is wrong with it. -/
theorem Constants.enters :
    Enters collectStep .constant claimedName? (fun _ _ => True) constantRepeated where
  mem := mem_of_claimedName?
  readable := claimedName?_readableWords
  skip := by
    intro row l hrow constants hnone
    rw [collectStep]
    split
    case isTrue hdefinition =>
      rw [define_of_no_identifier (hrow.kind_ne_identifier hdefinition hnone)]
      exact ⟨rfl, (among_expectedFault _ _ _).about_eq_nil (by decide)⟩
    case isFalse => exact ⟨rfl, rfl⟩
  enter := by
    intro row l word hrow constants hword hfind
    obtain ⟨hdefinition, t, rest, htokens, hkind, -⟩ := hrow.exists_identifier hword
    obtain ⟨htable, hfaults⟩ := define_of_identifier constants htokens hkind
    have hnew : constants.contains word.text = false := by rw [SymbolTable.contains, hfind]; rfl
    rw [hnew, if_neg Bool.false_ne_true] at htable hfaults
    rw [collectStep, if_pos hdefinition]
    refine ⟨?_, _, trivial, htable⟩
    rw [hfaults, List.append_nil]
    exact l.among_definition.about_eq_nil (by decide)
  refuse := by
    intro row l word first value hrow constants hword hfind _
    obtain ⟨hdefinition, t, rest, htokens, hkind, hpos⟩ := hrow.exists_identifier hword
    obtain ⟨htable, hfaults⟩ := define_of_identifier constants htokens hkind
    have hknown : constants.contains word.text = true := by rw [SymbolTable.contains, hfind]; rfl
    rw [hknown, if_pos rfl] at htable hfaults
    rw [collectStep, if_pos hdefinition]
    refine ⟨htable, ?_⟩
    rw [hfaults, Fault.about_append, l.among_definition.about_eq_nil (by decide), hpos]
    rfl

/-! ## Programs -/

namespace Source

variable (s : Source)

theorem knows_labels :
    Knows (fun word firstRow => firstRow = word.pos.row) s.declared s.symbols.labels := by
  rw [symbols, Program.labels_bind]
  exact ((Labels.enters _).collect_source s).1

theorem knows_constants : Knows (fun _ _ => True) s.claimed s.symbols.constants := by
  rw [symbols, Program.constants_bind]
  exact (Constants.enters.collect_source s).1

/-- A subject that one step alone finds faults about, in reading order. -/
theorem about_resolve_eq {subject : Subject} {found : List Fault}
    (hsubject : subject ∉ [Subject.range, .other]) (hfound : about subject s.lineFaults = found)
    (hordered : found.Pairwise fun f g => f.le g) :
    about subject (Program.resolve {} (Lexeme.ofSource s)).faults = found := by
  rw [about_resolve _ hsubject, Fault.about_sorted (hfound ▸ hordered), hfound]

theorem about_label_resolve :
    about .label (Program.resolve {} (Lexeme.ofSource s)).faults = s.repeatedLabels := by
  have henters := Labels.enters s.symbols.constants
  apply about_resolve_eq _ (by decide)
  · rw [about_lineFaults_label]
    exact (henters.collect_source s).2
  · exact pairwise_filterMap_repeatFault? (fun _ _ => rfl) (henters.pairwise_names s)

theorem about_constant_resolve :
    about .constant (Program.resolve {} (Lexeme.ofSource s)).faults = s.repeatedConstants := by
  apply about_resolve_eq _ (by decide)
  · rw [about_lineFaults_constant]
    exact (Constants.enters.collect_source s).2
  · exact pairwise_filterMap_repeatFault? (fun _ _ => rfl) (Constants.enters.pairwise_names s)

end Source

/-- A reference that is reported is in no table. -/
theorem RowReads.find?_eq_none_of_referenceFaults {row : List Lexeme} {l : Line}
    (h : RowReads row l) {constants : Constants} {labels : Labels} {pos : Position} {name : String}
    (hf : .inSource pos (.undefinedLabel name) ∈ (constants.inline l).referenceFaults labels) :
    constants.find? name = none ∧ labels.find? name = none := by
  rw [Line.referenceFaults] at hf
  split at hf
  case isTrue => cases hf
  case isFalse =>
    obtain ⟨t, ht, hfault⟩ := List.mem_filterMap.1 hf
    split at hfault
    case h_1 reference hkind =>
      rw [Option.ite_none_left_eq_some] at hfault
      cases hfault.2
      refine ⟨?_, Option.not_isSome_iff_eq_none.1 hfault.1⟩
      -- A name becomes a reference only if it is no constant.
      obtain ⟨word, hinlines⟩ : ∃ word, Inlines constants word t := by
        obtain ⟨word, -, hword⟩ := exists_of_mem_left (h.tokens_inline constants).flip ht
        exact ⟨word, hword⟩
      rcases hinlines.cases_spells with ⟨-, value, -, hnumber⟩ | ⟨-, hnone, hname⟩ | ⟨-, hspells⟩
      · rw [hkind] at hnumber
        cases hnumber
      · rw [hkind] at hname
        cases hname
        exact hnone
      · rw [hkind] at hspells
        exact hspells.elim
    case h_2 => cases hfault

/-- What is reported as unknown is neither claimed as a constant nor declared as a label. -/
theorem Source.hasName_eq_false_of_mem_resolve {s : Source} {pos : Position} {name : String}
    (hf : .inSource pos (.undefinedLabel name) ∈
      (Program.resolve {} (Lexeme.ofSource s)).faults) :
    ∀ word ∈ s.claimed ++ s.declared, word.hasName name = false := by
  have hreference : .inSource pos (.undefinedLabel name) ∈ about .reference s.lineFaults := by
    have habout := Fault.mem_about.2 ⟨hf, rfl⟩
    rw [show Fault.subject _ = Subject.reference from rfl, about_resolve _ (by decide),
      Fault.mem_about, (Fault.sorted_perm _).mem_iff] at habout
    exact Fault.mem_about.2 habout
  rw [about_lineFaults_reference] at hreference
  obtain ⟨inlined, hinlined, hf⟩ := List.mem_flatMap.1 hreference
  obtain ⟨l, hl, -, rfl⟩ := Program.mem_inlinedLines.1 hinlined
  obtain ⟨row, -, hrow⟩ := exists_of_mem_left (forall₂_readableRows (Lexeme.ofSource s)).flip hl
  have hnone := RowReads.find?_eq_none_of_referenceFaults hrow hf
  rw [List.forall_mem_append]
  exact ⟨s.knows_constants.hasName_eq_false hnone.1, s.knows_labels.hasName_eq_false hnone.2⟩

/-- Whatever else is wrong with a source, each row that declares a label again is reported once,
with the row of the first declaration, and each definition of a name that is claimed already is
reported once; no other faults are about repeated names. No name that is claimed or declared
anywhere is reported as unknown. -/
theorem symbol_faults_exact (s : Source) {lexemes : List Lexeme} (h : s.lexemes = .ok lexemes) :
    about .label (Program.resolve {} lexemes).faults = s.repeatedLabels ∧
      about .constant (Program.resolve {} lexemes).faults = s.repeatedConstants ∧
      ∀ pos name, .inSource pos (.undefinedLabel name) ∈ (Program.resolve {} lexemes).faults →
        ∀ word ∈ s.claimed ++ s.declared, word.hasName name = false := by
  rw [Source.lexemes_eq h]
  refine ⟨s.about_label_resolve, s.about_constant_resolve, ?_⟩
  intro pos name hf
  exact Source.hasName_eq_false_of_mem_resolve hf

/-- A label in three rows, and a broken definition that is given again. -/
def repeatedNames : Source where
  name := "names.s"
  rows := ["Loop: NOP", ".define WIDTH", "LOOP: LDA width", ".define width 10", "loop: NOP"]

/-- A jump to a name that is unknown. -/
def unknownName : Source where
  name := "unknown.s"
  rows := [".define width", "loop: LDA width", "JMP nowhere"]

theorem repeatedNames_reported :
    (∃ lexemes, repeatedNames.lexemes = .ok lexemes ∧
        about .label (Program.resolve {} lexemes).faults =
          [.inSource ⟨3, 1⟩ (.redefinedLabel "LOOP" 1),
            .inSource ⟨5, 1⟩ (.redefinedLabel "loop" 1)] ∧
        about .constant (Program.resolve {} lexemes).faults =
          [.inSource ⟨4, 9⟩ (.redefinedConstant "width")]) ∧
      ∃ lexemes, unknownName.lexemes = .ok lexemes ∧
        .inSource ⟨3, 5⟩ (.undefinedLabel "nowhere") ∈ (Program.resolve {} lexemes).faults ∧
        ∀ word ∈ unknownName.claimed ++ unknownName.declared,
          word.hasName "nowhere" = false := by
  have hlexemes : repeatedNames.lexemes = .ok (Lexeme.ofSource repeatedNames) ∧
      unknownName.lexemes = .ok (Lexeme.ofSource unknownName) := by
    decide +kernel
  have hlabels : repeatedNames.repeatedLabels =
      [.inSource ⟨3, 1⟩ (.redefinedLabel "LOOP" 1),
        .inSource ⟨5, 1⟩ (.redefinedLabel "loop" 1)] := by
    decide +kernel
  have hconstants : repeatedNames.repeatedConstants =
      [.inSource ⟨4, 9⟩ (.redefinedConstant "width")] := by
    decide +kernel
  have hunknown : .inSource ⟨3, 5⟩ (.undefinedLabel "nowhere") ∈ unknownName.lineFaults := by
    decide +kernel
  obtain ⟨hlabel, hconstant, -⟩ := symbol_faults_exact repeatedNames hlexemes.1
  obtain ⟨-, -, hnames⟩ := symbol_faults_exact unknownName hlexemes.2
  have hreported := Source.mem_faults_resolve _ hunknown
  exact ⟨⟨_, hlexemes.1, hlabel.trans hlabels, hconstant.trans hconstants⟩,
    _, hlexemes.2, hreported, hnames _ _ hreported⟩

end Assembler65
