import Assembler65.Proofs.FaultPlaces

/-!
# Lists of faults

Assembling stops behind the first stage that finds a fault, and this stage reports all that it
finds: lexemes that no rule reads, then whatever is wrong with names and lines, then operations
without an encoding, then faults of the link. Main statement: `fault_lists_complete_and_ordered`.
The lexical faults need no sorting, as rows and columns ascend; and what is wrong with a line is
never what would be wrong with its operation, as a byte list is no operation.
-/

set_option autoImplicit false

namespace Assembler65

namespace Source

/-- One fault for each lexeme that no rule reads, row by row. -/
def lexicalFaults (s : Source) : List Fault :=
  s.content.flatMap fun (row, line) =>
    ((Lexeme.ofRow row line).filter fun l => l.kind == .unexpected).map fun l =>
      .inSource l.pos (.unexpectedText l.text)

/-- The faults of names and lines, which are found before records are made. -/
def lineFaults (s : Source) : List Fault :=
  Program.faultsOf (Program.bind {} (Lexeme.ofSource s)).remarks

/-- The faults that are found if records are made. -/
def recordFaults (s : Source) : List Fault :=
  Program.faultsOf ((Program.bind {} (Lexeme.ofSource s)).lines.flatMap Line.recordRemarks)

end Source

/-! ## Lexical faults -/

/-- The columns of a row ascend. -/
theorem Lexeme.pairwise_column_ofRow (row : Nat) (line : String) :
    (ofRow row line).Pairwise fun l m => l.pos.column < m.pos.column := by
  obtain ⟨pieces, hscanned, -, hscan⟩ := Piece.exists_scansTo line.toList
  rw [ofRow, hscan]
  exact Piece.pairwise_column_lexemes hscanned

/-- The lexemes of a source stand in reading order. -/
theorem Lexeme.pairwise_ofSource (s : Source) :
    (ofSource s).Pairwise fun l m =>
      toLex (l.pos.row, l.pos.column) < toLex (m.pos.row, m.pos.column) := by
  -- In a row the columns ascend, and all of one row comes before all of the next.
  rw [ofSource, List.pairwise_flatMap]
  constructor
  · rintro ⟨row, line⟩ -
    apply (pairwise_column_ofRow row line).imp_of_mem
    intro l m hl hm hlt
    rw [Prod.Lex.toLex_lt_toLex]
    exact .inr ⟨(row_of_mem_scan hl).trans (row_of_mem_scan hm).symm, hlt⟩
  · apply s.pairwise_content.imp
    rintro ⟨row, line⟩ ⟨row', line'⟩ hlt l hl m hm
    rw [Prod.Lex.toLex_lt_toLex, row_of_mem_scan hl, row_of_mem_scan hm]
    exact .inl hlt

namespace Source

variable {s : Source}

theorem lexicalFaults_eq (s : Source) :
    s.lexicalFaults = (Lexeme.ofSource s).filterMap lexemeFault? := by
  rw [lexicalFaults, Lexeme.ofSource, List.filterMap_flatMap]
  congr 1
  funext c
  show List.map _ (List.filter _ (Lexeme.ofRow c.1 c.2)) =
    (Lexeme.ofRow c.1 c.2).filterMap lexemeFault?
  rw [← List.filterMap_eq_map, List.filterMap_filter]
  rfl

theorem lexemes_of_lexicalFaults (h : s.lexicalFaults ≠ []) :
    s.lexemes = .error s.lexicalFaults := by
  rw [lexicalFaults_eq] at h ⊢
  simp only [lexemes]

theorem lexemes_of_lexicalFaults_eq_nil (h : s.lexicalFaults = []) :
    s.lexemes = .ok (Lexeme.ofSource s) := by
  rw [lexicalFaults_eq] at h
  simp only [lexemes, h]

theorem kind_ne_of_lexicalFaults_eq_nil (h : s.lexicalFaults = []) {l : Lexeme}
    (hl : l ∈ Lexeme.ofSource s) : l.kind ≠ .unexpected := by
  rw [lexicalFaults_eq, List.filterMap_eq_nil_iff] at h
  intro hkind
  exact absurd (lexemeFault?_eq_some_iff.2 ⟨hkind, rfl⟩) (by rw [h l hl]; exact nofun)

/-- Lexical faults are found in reading order, no two at one place. -/
theorem pairwise_lexicalFaults (s : Source) :
    s.lexicalFaults.Pairwise fun f g => f.place < g.place := by
  rw [lexicalFaults_eq]
  refine (Lexeme.pairwise_ofSource s).filterMap _ ?_
  intro l m hlt f hf g hg
  rw [(lexemeFault?_eq_some_iff.1 hf).2, (lexemeFault?_eq_some_iff.1 hg).2]
  exact WithBot.coe_lt_coe.2 hlt

theorem category_of_mem_lexicalFaults {f : Fault} (h : f ∈ s.lexicalFaults) :
    f.category = .lexical := by
  rw [lexicalFaults_eq] at h
  obtain ⟨l, -, hf⟩ := List.mem_filterMap.1 h
  rw [(lexemeFault?_eq_some_iff.1 hf).2]
  rfl

/-! ## Stages -/

theorem assemble_of_lexicalFaults (origin : UInt16) (h : s.lexicalFaults ≠ []) :
    assemble s origin = .error s.lexicalFaults ∧ assemblyRemarks s origin = [s.lexemeRemark] := by
  have hlexemes := lexemes_of_lexicalFaults h
  simp [assemble, assemblyRemarks, hlexemes, bind, Except.bind]

theorem outcome_of_lineFaults (h : s.lineFaults ≠ []) :
    (Program.resolve {} (Lexeme.ofSource s)).outcome = .error (Fault.sorted s.lineFaults) := by
  simp only [Program.resolve]
  split
  case h_1 hnil => exact absurd hnil h
  case h_2 => rfl

theorem outcome_of_recordFaults (hline : s.lineFaults = []) (h : s.recordFaults ≠ []) :
    (Program.resolve {} (Lexeme.ofSource s)).outcome = .error (Fault.sorted s.recordFaults) := by
  rw [lineFaults] at hline
  simp only [Program.resolve, hline]
  split
  case h_1 hnil => exact absurd hnil h
  case h_2 => rfl

theorem assemble_of_lineFaults (origin : UInt16) (hlexical : s.lexicalFaults = [])
    (h : s.lineFaults ≠ []) : assemble s origin = .error (Fault.sorted s.lineFaults) :=
  assemble_eq_error origin (lexemes_of_lexicalFaults_eq_nil hlexical) (outcome_of_lineFaults h)

theorem assemble_of_recordFaults (origin : UInt16) (hlexical : s.lexicalFaults = [])
    (hline : s.lineFaults = []) (h : s.recordFaults ≠ []) :
    assemble s origin = .error (Fault.sorted s.recordFaults) :=
  assemble_eq_error origin (lexemes_of_lexicalFaults_eq_nil hlexical)
    (outcome_of_recordFaults hline h)

end Source

/-! ## Lines and their rows -/

/-- The directive that a token stands for. -/
def TokenKind.directive? : TokenKind → Option Directive
  | directive d => some d
  | _ => none

namespace Line

/-- The directive that the statement of a line starts with. -/
def directive? (l : Line) : Option Directive :=
  l.statement.head?.bind fun t => t.kind.directive?

theorem directive?_replace {replace : TokenKind → TokenKind}
    (h : ∀ kind, (replace kind).isDeclaration = kind.isDeclaration ∧
      (replace kind).directive? = kind.directive?) (l : Line) :
    ({ l with tokens := l.tokens.map fun t => { t with kind := replace t.kind } } :
      Line).directive? = l.directive? := by
  rw [directive?, statement_replace fun kind => (h kind).1, List.head?_map, Option.bind_map,
    directive?]
  congr 1
  funext t
  exact (h t.kind).2

theorem directive?_inline (constants : Constants) (l : Line) :
    (constants.inline l).directive? = l.directive? := by
  apply directive?_replace
  intro kind
  cases kind with
  | identifier name =>
    rw [Constants.inlineKind]
    cases constants.find? name with
    | some value => exact ⟨rfl, rfl⟩
    | none => exact ⟨rfl, rfl⟩
  | _ => exact ⟨rfl, rfl⟩

theorem directive?_bind (labels : Labels) (l : Line) :
    (labels.bind l).directive? = l.directive? := by
  apply directive?_replace
  intro kind
  cases kind with
  | reference name =>
    rw [Labels.bindKind]
    cases labels.index? name with
    | some index => exact ⟨rfl, rfl⟩
    | none => exact ⟨rfl, rfl⟩
  | _ => exact ⟨rfl, rfl⟩

section Becomes

variable {symbols : Symbols} {l k : Line}

theorem Becomes.directive?_eq (h : l.Becomes symbols k) : k.directive? = l.directive? := by
  cases h with
  | read => rfl
  | inlined => exact directive?_inline _ l
  | bound => exact (directive?_bind _ _).trans (directive?_inline _ l)

theorem Becomes.row_of_mem {row : Nat} (h : l.Becomes symbols k)
    (hrow : ∀ t ∈ l.tokens, t.pos.row = row) : ∀ t ∈ k.tokens, t.pos.row = row := by
  cases h with
  | read => exact hrow
  | inlined => exact List.forall_mem_map.2 hrow
  | bound => exact List.forall_mem_map.2 (List.forall_mem_map.2 hrow)

end Becomes

/-- The tokens of a line stand in its row. -/
theorem row_of_mem_ofLexemes {lexemes : List Lexeme} {l : Line} (h : l ∈ ofLexemes lexemes) :
    ∀ t ∈ l.tokens, t.pos.row = l.row := by
  obtain ⟨row, hrow, hl⟩ := List.mem_filterMap.1 h
  rw [ofRow?, Option.ite_none_left_eq_some] at hl
  cases hl.2
  intro t ht
  obtain ⟨w, hw, htoken⟩ := exists_lexeme_of_mem_readRow ht
  rw [← (Lexeme.token?_eq_some_iff.1 htoken).2.2]
  exact row_of_mem_rows hrow hw

theorem row_of_ofRow?_rowLexemes {c : Nat × String} {l : Line}
    (h : ofRow? (rowLexemes c) = some l) : l.row = c.1 := by
  rw [ofRow?, Option.ite_none_left_eq_some] at h
  cases h.2
  obtain ⟨first, rest, heq⟩ := List.exists_cons_of_ne_nil (rowLexemes_ne_nil c)
  have hfirst : first ∈ rowLexemes c := heq ▸ List.mem_cons_self
  rw [reading, heq]
  exact row_of_mem_rowLexemes hfirst

/-- No two lines of a source have the same row. -/
theorem pairwise_row_ofLexemes (s : Source) :
    (ofLexemes (Lexeme.ofSource s)).Pairwise fun k l => k.row ≠ l.row := by
  rw [ofLexemes, rows_ofSource, List.filterMap_map]
  refine s.pairwise_content.filterMap _ ?_
  intro c d hlt k hk l hl
  rw [row_of_ofRow?_rowLexemes hk, row_of_ofRow?_rowLexemes hl]
  exact Nat.ne_of_lt hlt

theorem eq_of_row_eq {s : Source} {k l : Line} (hk : k ∈ ofLexemes (Lexeme.ofSource s))
    (hl : l ∈ ofLexemes (Lexeme.ofSource s)) (h : k.row = l.row) : k = l := by
  have hsymm : Std.Symm fun k l : Line => k.row ≠ l.row := ⟨fun _ _ => Ne.symm⟩
  by_contra hne
  exact (pairwise_row_ofLexemes s).forall hk hl hne h

end Line

/-! ## Faults of lines are not those of records -/

namespace Reported

variable {limit : Nat} {finish pos : Position} {tokens : List Token} {cause : Cause}

theorem not_refuses (h : Reported limit finish tokens (.inSource pos cause)) (m : Mnemonic) :
    ¬ m.Refuses cause := by
  intro hrefuses
  cases h with
  | token ht hblamed => cases hblamed <;> cases hrefuses
  | finish wanted => cases hrefuses

theorem exists_token_of_overflow {text : String} {bound : Nat}
    (h : Reported limit finish tokens (.inSource pos cause))
    (hcause : cause = .constantOverflow text bound) :
    bound = limit ∧ ∃ t ∈ tokens, t.pos = pos := by
  cases h with
  | token ht hblamed => cases hblamed <;> cases hcause <;> exact ⟨rfl, _, ht, rfl⟩
  | finish wanted => cases hcause

theorem category_ne (h : Reported limit finish tokens (.inSource pos cause)) :
    (Fault.inSource pos cause).category ≠ .lexical := by
  cases h with
  | token ht hblamed => cases hblamed <;> nofun
  | finish wanted => nofun

end Reported

namespace Source

variable {s : Source}

/-- What is wrong with a line before its record is made is not that its mnemonic refuses an operand,
and only the values of a byte list have to fit into a byte. -/
theorem cause_of_mem_lineFaults (hlexical : s.lexicalFaults = []) {pos : Position} {cause : Cause}
    (h : .inSource pos cause ∈ s.lineFaults) :
    (∀ m : Mnemonic, ¬ m.Refuses cause) ∧
      ∀ text, cause = .constantOverflow text Numeral.byteLimit →
        ∃ l ∈ Line.ofLexemes (Lexeme.ofSource s), l.directive? = some .bytes ∧
          pos.row = l.row := by
  rcases Program.reported_of_mem_bind h with hreading | ⟨l, hl, k, hk, hflawed⟩
  · obtain ⟨w, hw, _, hcause, heq⟩ := Line.exists_lexeme_of_mem_readingFaults hreading
    cases heq
    rcases Lexeme.cases_of_contribution_eq_fault hcause with ⟨-, rfl⟩ | ⟨hkind, -⟩
    · exact ⟨fun _ => nofun, fun _ => nofun⟩
    · exact absurd hkind (kind_ne_of_lexicalFaults_eq_nil hlexical hw)
  · rcases hflawed with hword | ⟨hstatement, hbyte⟩
    · refine ⟨hword.not_refuses, fun text hcause => ?_⟩
      exact absurd (hword.exists_token_of_overflow hcause).1 (by decide)
    · refine ⟨hbyte.not_refuses, fun text hcause => ⟨l, hl, ?_, ?_⟩⟩
      · rw [← hk.directive?_eq, Line.directive?, hstatement]
        rfl
      · obtain ⟨-, t, ht, rfl⟩ := hbyte.exists_token_of_overflow hcause
        exact hk.row_of_mem (Line.row_of_mem_ofLexemes hl) t ht

/-- No fault of a line is one that making records would find. -/
theorem not_mem_recordFaults (hlexical : s.lexicalFaults = []) {f : Fault}
    (h : f ∈ s.lineFaults) : f ∉ s.recordFaults := by
  intro hrecord
  obtain ⟨k, hk, hstatement, hrejects⟩ := Program.exists_line_of_mem_recordRemarks hrecord
  rw [Program.lines_bind] at hk
  obtain ⟨l, hl, -, rfl⟩ := Program.mem_boundLines.1 hk
  have hbound : l.Becomes (Program.bind {} (Lexeme.ofSource s)).symbols _ := .bound
  cases hrejects with
  | refused hcause => exact (cause_of_mem_lineFaults hlexical h).1 _ hcause
  | wide ht hkind hlimit =>
    -- The same row would hold a byte list and an operation.
    obtain ⟨bytes, hbytes, hdirective, hrow⟩ := (cause_of_mem_lineFaults hlexical h).2 _ rfl
    have htoken := Line.subset_tokens_of_statement hstatement (List.mem_cons_of_mem _ ht)
    rw [hbound.row_of_mem (Line.row_of_mem_ofLexemes hl) _ htoken] at hrow
    cases Line.eq_of_row_eq hl hbytes hrow
    rw [← hbound.directive?_eq, Line.directive?, hstatement] at hdirective
    cases hdirective

/-- Only lexemes that no rule reads are lexical faults. -/
theorem category_ne_of_assemble (hlexical : s.lexicalFaults = []) {origin : UInt16}
    {faults : List Fault} (h : assemble s origin = .error faults) :
    ∀ f ∈ faults, f.category ≠ .lexical := by
  intro f hf
  have hlexemes := lexemes_of_lexicalFaults_eq_nil hlexical
  rcases stage_of_assemble_eq_error h with
    hfault | ⟨lexemes, hread, hsemantic | ⟨records, houtcome, hlink⟩⟩
  · cases hlexemes.symm.trans hfault
  · cases hlexemes.symm.trans hread
    obtain ⟨pos, cause, rfl⟩ := Program.located_of_outcome hsemantic f hf
    rcases Program.reported_of_outcome hsemantic _ hf with hreading | ⟨l, -, k, -, hreports⟩
    · obtain ⟨w, hw, _, hcause, heq⟩ := Line.exists_lexeme_of_mem_readingFaults hreading
      cases heq
      rcases Lexeme.cases_of_contribution_eq_fault hcause with ⟨-, rfl⟩ | ⟨hkind, -⟩
      · nofun
      · exact absurd hkind (kind_ne_of_lexicalFaults_eq_nil hlexical hw)
    · rcases hreports with (hword | ⟨-, hbyte⟩) | ⟨-, hrejects⟩
      · exact hword.category_ne
      · exact hbyte.category_ne
      · cases hrejects with
        | wide => nofun
        | refused hcause => cases hcause <;> nofun
  · obtain ⟨-, rfl⟩ := (link_eq_error_iff (operandFits_of_outcome houtcome)).1 hlink
    rcases blamed_or_unresolvedLabel ((Fault.sorted_perm _).mem_iff.1 hf) with
      ⟨p, -, cause, hblamed, rfl⟩ | ⟨index, rfl⟩
    · cases hblamed <;> nofun
    · nofun

/-- Whatever stage a failed assembly stops at, its faults stand in reading order. -/
theorem pairwise_of_assemble {origin : UInt16} {faults : List Fault}
    (h : assemble s origin = .error faults) : faults.Pairwise fun f g => f.place ≤ g.place := by
  rcases stage_of_assemble_eq_error h with
    hfault | ⟨lexemes, hread, hsemantic | ⟨records, houtcome, hlink⟩⟩
  · by_cases hlexical : s.lexicalFaults = []
    · cases (lexemes_of_lexicalFaults_eq_nil hlexical).symm.trans hfault
    · cases (lexemes_of_lexicalFaults hlexical).symm.trans hfault
      exact s.pairwise_lexicalFaults.imp le_of_lt
  · rcases Program.cases_of_outcome_eq_error hsemantic with rfl | rfl
    · exact (Fault.stablySorted_sorted _).ordered
    · exact (Fault.stablySorted_sorted _).ordered
  · obtain ⟨-, rfl⟩ := (link_eq_error_iff (operandFits_of_outcome houtcome)).1 hlink
    exact (Fault.stablySorted_sorted _).ordered

end Source

/-- Failed assemblies report their faults in reading order, and all those of one stage. If some
lexemes cannot be read, there is one fault for each of them, no two at one place, and nothing else is
looked at. Else, if names or lines are at fault, all of these faults are reported, and none that the
operations have. Only else the faults of operations are reported. -/
theorem fault_lists_complete_and_ordered (s : Source) (origin : UInt16) :
    (∀ faults, assemble s origin = .error faults →
        faults.Pairwise (fun f g => f.place ≤ g.place) ∧
          ((∃ f ∈ faults, f.category = .lexical) ↔ s.lexicalFaults ≠ [])) ∧
      (s.lexicalFaults ≠ [] → assemble s origin = .error s.lexicalFaults ∧
        s.lexicalFaults.Pairwise (fun f g => f.place < g.place) ∧
        assemblyRemarks s origin = [s.lexemeRemark]) ∧
      (s.lexicalFaults = [] → s.lineFaults ≠ [] → ∃ faults, assemble s origin = .error faults ∧
        Fault.StablySorted s.lineFaults faults ∧ ∀ f ∈ faults, f ∉ s.recordFaults) ∧
      (s.lexicalFaults = [] → s.lineFaults = [] → s.recordFaults ≠ [] →
        ∃ faults, assemble s origin = .error faults ∧
          Fault.StablySorted s.recordFaults faults) := by
  refine ⟨?_, ?_, ?_, ?_⟩
  · intro faults h
    refine ⟨Source.pairwise_of_assemble h, ?_, ?_⟩
    · rintro ⟨f, hf, hcategory⟩ hlexical
      exact Source.category_ne_of_assemble hlexical h f hf hcategory
    · intro hlexical
      cases (Source.assemble_of_lexicalFaults origin hlexical).1.symm.trans h
      obtain ⟨f, hf⟩ := List.exists_mem_of_ne_nil _ hlexical
      exact ⟨f, hf, Source.category_of_mem_lexicalFaults hf⟩
  · intro hlexical
    obtain ⟨hassemble, hremarks⟩ := Source.assemble_of_lexicalFaults origin hlexical
    exact ⟨hassemble, s.pairwise_lexicalFaults, hremarks⟩
  · intro hlexical hline
    refine ⟨_, Source.assemble_of_lineFaults origin hlexical hline,
      Fault.stablySorted_sorted _, ?_⟩
    intro f hf
    exact Source.not_mem_recordFaults hlexical ((Fault.sorted_perm _).mem_iff.1 hf)
  · intro hlexical hline hrecord
    exact ⟨_, Source.assemble_of_recordFaults origin hlexical hline hrecord,
      Fault.stablySorted_sorted _⟩

/-- Two marks that no rule reads, a name that is no label and an operand that is too large. -/
def strayMarks : Source where
  name := "marks.s"
  rows := ["LDA @", " ", "JMP nowhere ?", "LDA #$100"]

/-- A byte that is too large, and an immediate operand as well. -/
def wideBytes : Source where
  name := "wide.s"
  rows := ["LDA #$100", ".byte $100"]

/-- An immediate operand that is too large. -/
def wideOperand : Source where
  name := "operand.s"
  rows := ["LDA #$100"]

theorem fault_lists_of_stages :
    assemble strayMarks 0x0600 = .error
        [.inSource ⟨1, 5⟩ (.unexpectedText "@"), .inSource ⟨3, 13⟩ (.unexpectedText "?")] ∧
      (wideBytes.lexicalFaults = [] ∧ wideBytes.lineFaults ≠ [] ∧
        .inSource ⟨1, 6⟩ (.constantOverflow "$100" 255) ∈ wideBytes.recordFaults ∧
        ∃ faults, assemble wideBytes 0x0600 = .error faults ∧
          .inSource ⟨1, 6⟩ (.constantOverflow "$100" 255) ∉ faults) ∧
      (wideOperand.lexicalFaults = [] ∧ wideOperand.lineFaults = [] ∧
        ∃ faults, assemble wideOperand 0x0600 = .error faults ∧
          Fault.StablySorted wideOperand.recordFaults faults) := by
  have hmarks : strayMarks.lexicalFaults =
      [.inSource ⟨1, 5⟩ (.unexpectedText "@"), .inSource ⟨3, 13⟩ (.unexpectedText "?")] := by
    decide +kernel
  have hbytes : wideBytes.lexicalFaults = [] ∧ wideBytes.lineFaults ≠ [] := by decide +kernel
  have hwide : .inSource ⟨1, 6⟩ (.constantOverflow "$100" 255) ∈ wideBytes.recordFaults := by
    decide +kernel
  have hoperand : wideOperand.lexicalFaults = [] ∧ wideOperand.lineFaults = [] ∧
      wideOperand.recordFaults ≠ [] := by
    decide +kernel
  obtain ⟨-, hlexical, -, -⟩ := fault_lists_complete_and_ordered strayMarks 0x0600
  obtain ⟨-, -, hline, -⟩ := fault_lists_complete_and_ordered wideBytes 0x0600
  obtain ⟨-, -, -, hrecord⟩ := fault_lists_complete_and_ordered wideOperand 0x0600
  refine ⟨?_, ⟨hbytes.1, hbytes.2, hwide, ?_⟩, hoperand.1, hoperand.2.1, ?_⟩
  · rw [← hmarks]
    exact (hlexical (hmarks ▸ List.cons_ne_nil _ _)).1
  · obtain ⟨faults, hassemble, -, hnot⟩ := hline hbytes.1 hbytes.2
    exact ⟨faults, hassemble, fun hmem => hnot _ hmem hwide⟩
  · exact hrecord hoperand.1 hoperand.2.1 hoperand.2.2

end Assembler65
