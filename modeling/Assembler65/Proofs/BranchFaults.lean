import Assembler65.Proofs.LostLabels
import Assembler65.Proofs.RepeatedNames
import Assembler65.Proofs.Spelling
import Assembler65.Proofs.SurfaceForms

/-!
# Branches out of reach

A branch is two bytes long, or three with a zero-page operand, and its displacement counts from the
byte behind it. The linker knows the label by its number alone: `StatementItem.branchWords` and
`RowRecords.declares` trace the number back to the words of the branch and of the declaration, which
share a name. Main statement: `branch_faults_measure_to_label`, a branch that is out of reach is
reported where it stands, with the name of its label and the distance to it.
-/

set_option autoImplicit false

namespace Assembler65

namespace Mnemonic

/-- The branches on a flag, and the one that is always taken. -/
def branches : List Mnemonic := [bcc, bcs, beq, bmi, bne, bpl, bra, bvc, bvs]

/-- The branches on a bit of the zero page. -/
def bitBranches : List Mnemonic := BitIndex.all.map bbr ++ BitIndex.all.map bbs

theorem mem_branches_of_supports {m : Mnemonic} (h : m.supports .relative = true) :
    m ∈ branches := by
  have each : ∀ m ∈ all, m.supports .relative = true → m ∈ branches := by decide +kernel
  exact each m m.mem_all h

theorem mem_bitBranches_of_supports {m : Mnemonic} (h : m.supports .zeroPageRelative = true) :
    m ∈ bitBranches := by
  have each : ∀ m ∈ all, m.supports .zeroPageRelative = true → m ∈ bitBranches := by
    decide +kernel
  exact each m m.mem_all h

end Mnemonic

/-- The words of a branch statement, with its mnemonic, its target and the number of its bytes. -/
inductive BranchWords : List Lexeme → Lexeme → Lexeme → Nat → Prop
  | branch {opcode target : Lexeme} {m : Mnemonic} (hopcode : opcode.asMnemonic? = some m)
      (hbranch : m ∈ Mnemonic.branches) (htarget : target.isName = true) :
      BranchWords [opcode, target] opcode target 2
  | bitBranch {opcode zeroPage comma target : Lexeme} {m : Mnemonic}
      (hopcode : opcode.asMnemonic? = some m) (hbranch : m ∈ Mnemonic.bitBranches)
      (hcomma : comma.kind = .comma) (htarget : target.isName = true) :
      BranchWords [opcode, zeroPage, comma, target] opcode target 3

namespace Source

/-- A branch of some bytes to a name, in letters of either case. -/
def BranchesTo (s : Source) (opcode : Lexeme) (name : String) (size : Nat) : Prop :=
  ∃ row ∈ s.words, ∃ target, BranchWords (statementWords row) opcode target size ∧
    target.hasName name = true

/-- A word declares the label of a name, in letters of either case. -/
def Declares (s : Source) (word : Lexeme) (name : String) : Prop :=
  ∃ row ∈ s.words, declaration? row = some word ∧ word.hasName name = true

end Source

/-- A branch and the label that it names, among the records that are laid out within memory. -/
structure BranchLayout (placed : List Placed) (opcode declared : Lexeme) (branch label : Placed) :
    Prop where
  branch_mem : branch ∈ fitting placed
  branch_pos : branch.record.pos = opcode.pos
  label_mem : label ∈ fitting placed
  label_pos : label.record.pos = declared.pos
  names : ∃ index, branch.record.item.labelUse? = some ⟨index, true⟩ ∧
    label.record.item = .label index

/-! ## Words of branches -/

section Words

variable {symbols : Symbols} {word : Lexeme} {t : Token} {index : Nat}

/-- A word in an operand is read as it is spelled, but for names, which stand for the value of a
constant or for the label of that name. -/
theorem Lexeme.cases_of_operand? (h : word.operand? symbols = some t) :
    word.Spells t.kind ∨ (∃ n, t.kind = .number n) ∨
      ∃ index, t.kind = .label index ∧ word.isName = true ∧
        symbols.labels.names[index]? = some (SymbolTable.key word.text) := by
  obtain ⟨⟨raw, text, pos⟩, htoken, h⟩ := Option.bind_eq_some_iff.1 h
  obtain ⟨kind, hknown, rfl⟩ := Option.map_eq_some_iff.1 h
  have hspells := (token?_eq_some_iff_reads.1 htoken).spells
  cases raw with
  | identifier name =>
    obtain ⟨hname, rfl⟩ := hspells
    simp only [TokenKind.known?] at hknown
    split at hknown
    case h_1 value _ =>
      cases hknown
      exact .inr (.inl ⟨_, rfl⟩)
    case h_2 =>
      obtain ⟨index, hindex, rfl⟩ := Option.map_eq_some_iff.1 hknown
      exact .inr (.inr ⟨index, rfl, hname, SymbolTable.getElem?_names_of_index? hindex⟩)
  | _ =>
    cases hknown
    exact .inl hspells

theorem Lexeme.name_of_operand? (h : word.operand? symbols = some t)
    (hkind : t.kind = .label index) :
    word.isName = true ∧ symbols.labels.names[index]? = some (SymbolTable.key word.text) := by
  rcases cases_of_operand? h with hspells | ⟨n, hnumber⟩ | ⟨other, hlabel, hname, hindex⟩
  · rw [hkind] at hspells
    exact absurd hspells id
  · cases hkind.symm.trans hnumber
  · cases hkind.symm.trans hlabel
    exact ⟨hname, hindex⟩

theorem Lexeme.kind_of_operand? (h : word.operand? symbols = some t) (hkind : t.kind = .comma) :
    word.kind = .comma := by
  rcases cases_of_operand? h with hspells | ⟨n, hnumber⟩ | ⟨other, hlabel, -⟩
  · rw [hkind] at hspells
    exact hspells
  · cases hkind.symm.trans hnumber
  · cases hkind.symm.trans hlabel

/-- A statement with a relative operand is a branch to the name of its label. -/
theorem StatementItem.branchWords {words : List Lexeme} {item : Item}
    (h : StatementItem symbols words item) (huse : item.labelUse? = some ⟨index, true⟩) :
    ∃ opcode target, words.head? = some opcode ∧ BranchWords words opcode target item.size ∧
      symbols.labels.names[index]? = some (SymbolTable.key target.text) := by
  cases h with
  | origin => cases huse
  | bytes => cases huse
  | words => cases huse
  | @operation opcode operands tokens m mode operand code hopcode hoperands hchoice =>
    obtain ⟨shape, hshape, hform, hsupports⟩ := Assembler65.exists_operandForm hchoice
    have hkinds := OperandShape.eq_kinds_of_ofKinds? hshape
    -- Of all forms only those of the two branch modes have a relative operand.
    cases hform with
    | relative other =>
      cases huse
      obtain ⟨t, rfl, hkind⟩ := List.map_eq_singleton_iff.1 hkinds
      obtain ⟨target, _, htarget, hnil, rfl⟩ := List.forall₂_cons_right_iff.1 hoperands
      cases hnil
      obtain ⟨hname, hindex⟩ := Lexeme.name_of_operand? htarget hkind
      exact ⟨opcode, target, rfl,
        .branch hopcode (Mnemonic.mem_branches_of_supports hsupports) hname, hindex⟩
    | bitBranch other hfits =>
      cases huse
      obtain ⟨first, rest, rfl, -, hkinds⟩ := List.map_eq_cons_iff.1 hkinds
      obtain ⟨second, rest, rfl, hcommaKind, hkinds⟩ := List.map_eq_cons_iff.1 hkinds
      obtain ⟨third, rfl, hkind⟩ := List.map_eq_singleton_iff.1 hkinds
      obtain ⟨zeroPage, _, -, hbehind, rfl⟩ := List.forall₂_cons_right_iff.1 hoperands
      obtain ⟨comma, _, hcomma, hlast, rfl⟩ := List.forall₂_cons_right_iff.1 hbehind
      obtain ⟨target, _, htarget, hnil, rfl⟩ := List.forall₂_cons_right_iff.1 hlast
      cases hnil
      obtain ⟨hname, hindex⟩ := Lexeme.name_of_operand? htarget hkind
      exact ⟨opcode, target, rfl,
        .bitBranch hopcode (Mnemonic.mem_bitBranches_of_supports hsupports)
          (Lexeme.kind_of_operand? hcomma hcommaKind) hname, hindex⟩
    | _ => cases huse

/-! ## Words of records -/

variable {row : List Lexeme} {chunk : List Record} {r : Record}

/-- A record with a relative operand stands where the branch of its row does. -/
theorem RowRecords.branches (h : RowRecords symbols row chunk) (hr : r ∈ chunk)
    (huse : r.item.labelUse? = some ⟨index, true⟩) :
    ∃ opcode target, r.pos = opcode.pos ∧ BranchWords (statementWords row) opcode target r.size ∧
      symbols.labels.names[index]? = some (SymbolTable.key target.text) := by
  have hstatement : ∀ {word rest item}, StatementItem symbols (word :: rest) item →
      item.labelUse? = some ⟨index, true⟩ → ∃ opcode target, word.pos = opcode.pos ∧
        BranchWords (word :: rest) opcode target item.size ∧
        symbols.labels.names[index]? = some (SymbolTable.key target.text) := by
    intro word rest item hitem huse
    obtain ⟨opcode, target, hhead, hwords, hindex⟩ := hitem.branchWords huse
    cases hhead
    exact ⟨word, target, rfl, hwords, hindex⟩
  cases h with
  | definition => cases hr
  | declaration =>
    obtain rfl := List.mem_singleton.1 hr
    cases huse
  | statement hitem =>
    obtain rfl := List.mem_singleton.1 hr
    rw [statementWords, if_neg hitem.statementForm.kind_ne_declaration]
    exact hstatement hitem huse
  | labelled hlabel _ hitem =>
    rw [statementWords, if_pos hlabel]
    rcases List.mem_pair.1 hr with rfl | rfl
    · cases huse
    · exact hstatement hitem huse

/-- A record that places a label stands where the declaration of its row does. -/
theorem RowRecords.declares (h : RowRecords symbols row chunk) (hr : r ∈ chunk)
    (hitem : r.item = .label index) :
    ∃ word, r.pos = word.pos ∧ declaration? row = some word ∧
      symbols.labels.names[index]? = some (SymbolTable.key word.text) := by
  have hnone : ∀ {words item}, StatementItem symbols words item → item ≠ .label index := by
    rintro words item hstatement rfl
    cases hstatement
  cases h with
  | definition => cases hr
  | declaration hlabel hindex =>
    obtain rfl := List.mem_singleton.1 hr
    cases hitem
    exact ⟨_, rfl, if_pos hlabel, hindex⟩
  | statement hstatement =>
    obtain rfl := List.mem_singleton.1 hr
    exact absurd hitem (hnone hstatement)
  | labelled hlabel hindex hstatement =>
    rcases List.mem_pair.1 hr with rfl | rfl
    · cases hitem
      exact ⟨_, rfl, if_pos hlabel, hindex⟩
    · exact absurd hitem (hnone hstatement)

end Words

/-! ## Faults of branches -/

section Faults

variable {pos : Position} {name : String} {displacement : Int}

/-- No line reports a branch. -/
theorem Line.not_reports_branchOutOfRange {l : Line} :
    ¬ l.Reports (.inSource pos (.branchOutOfRange name displacement)) := by
  have hreported : ∀ {limit finish tokens},
      ¬ Reported limit finish tokens (.inSource pos (.branchOutOfRange name displacement)) := by
    intro limit finish tokens h
    cases h with
    | token _ hcause => cases hcause
  rintro ((hword | ⟨-, hbyte⟩) | ⟨-, hrejects⟩)
  · exact hreported hword
  · exact hreported hbyte
  · cases hrejects with
    | refused hcause => cases hcause

theorem Lexeme.contribution_ne_branchOutOfRange {l : Lexeme} :
    l.contribution ≠ .fault (.branchOutOfRange name displacement) := by
  intro h
  rcases cases_of_contribution_eq_fault h with ⟨-, hcause⟩ | ⟨-, hcause⟩ <;> cases hcause

/-- Branches are found to be out of reach when a program is linked, and not before. -/
theorem linked_of_branchOutOfRange_mem {s : Source} {origin : UInt16} {faults : List Fault}
    (h : assemble s origin = .error faults)
    (hmem : .inSource pos (.branchOutOfRange name displacement) ∈ faults) :
    ∃ records, s.lexemes = .ok (Lexeme.ofSource s) ∧
      (Program.resolve {} (Lexeme.ofSource s)).outcome = .ok records ∧
      .inSource pos (.branchOutOfRange name displacement) ∈
        linkFaults (symbolsOf s.words).labels.names (counted origin.toNat records) := by
  rcases stage_of_assemble_eq_error h with
    hlexical | ⟨lexemes, hlexemes, hsemantic | ⟨records, houtcome, hlink⟩⟩
  · obtain ⟨l, -, _, hcause, heq⟩ := Source.exists_lexeme_of_lexemes hlexical _ hmem
    cases heq
    exact absurd hcause Lexeme.contribution_ne_branchOutOfRange
  · rcases Program.reported_of_outcome hsemantic _ hmem with hreading | ⟨_, -, _, -, hreports⟩
    · obtain ⟨w, -, _, hcause, heq⟩ := Line.exists_lexeme_of_mem_readingFaults hreading
      cases heq
      exact absurd hcause Lexeme.contribution_ne_branchOutOfRange
    · exact absurd hreports Line.not_reports_branchOutOfRange
  · obtain rfl := Source.lexemes_eq hlexemes
    obtain ⟨-, rfl⟩ := (link_eq_error_iff (operandFits_of_outcome houtcome)).1 hlink
    obtain ⟨-, hsymbols, -⟩ := wellFormed_and_exists_chunks houtcome
    rw [hsymbols, wordRows_ofSource] at hmem
    exact ⟨records, hlexemes, houtcome, (Fault.sorted_perm _).mem_iff.1 hmem⟩

/-- The record of a branch that is out of reach, and the record that places its label. -/
theorem exists_of_branchOutOfRange_mem {names : List String} {placed : List Placed}
    (h : .inSource pos (.branchOutOfRange name displacement) ∈ linkFaults names placed) :
    ∃ branch ∈ fitting placed, ∃ label ∈ fitting placed, ∃ index,
      branch.record.item.labelUse? = some ⟨index, true⟩ ∧ label.record.item = .label index ∧
      branch.record.pos = pos ∧ labelName names index = name ∧
      branch.displacement label.location = displacement ∧ ¬ InReach displacement := by
  rcases List.mem_append.1 h with hover | hoperand
  · obtain ⟨_, -, heq⟩ := List.mem_map.1 hover
    cases heq
  · obtain ⟨branch, hbranch, hfault⟩ := List.mem_filterMap.1 hoperand
    obtain ⟨⟨index, relative⟩, huse, hfault⟩ := Option.bind_eq_some_iff.1 hfault
    split at hfault
    case h_1 => cases hfault
    case h_2 location hlocation =>
      rw [Option.ite_none_right_eq_some] at hfault
      obtain ⟨⟨hrelative, hreach⟩, heq⟩ := hfault
      obtain ⟨label, hlabel, hitem, rfl⟩ := exists_of_labelLocation? hlocation
      obtain rfl : relative = true := hrelative
      cases heq
      exact ⟨branch, hbranch, label, hlabel, index, huse, hitem, rfl, rfl, rfl, hreach⟩

end Faults

/-! ## Names of labels -/

/-- The text of a declared label starts like a name. -/
theorem LexemeForm.exists_startsName {text : List Char} (h : LexemeForm .declaration text) :
    ∃ c rest, text = c :: rest ∧ Lexeme.startsName c = true := by
  cases h with
  | mark hmark =>
    unfold LexemeKind.ofMark? at hmark
    split at hmark <;> cases hmark
  | declaration hstart => exact ⟨_, _, rfl, hstart⟩

theorem Lexeme.toLower_ne_of_startsName {c : Char} (h : startsName c = true) : c.toLower ≠ '#' := by
  intro hlower
  rw [startsName, Bool.or_eq_true, beq_iff_eq, ← isAlpha_toLower_char, hlower] at h
  rcases h with hletter | rfl
  · exact absurd hletter (by decide)
  · exact absurd hlower (by decide)

namespace Source

variable {s : Source} {word other : Lexeme} {name : String}

/-- No label has a name like the number that stands in for a missing one. -/
theorem Declares.ne_number (h : s.Declares word name) (index : Nat) :
    name ≠ labelName [] index := by
  rintro rfl
  obtain ⟨row, hrow, hdeclaration, hname⟩ := h
  obtain ⟨⟨number, line⟩, -, rfl⟩ := List.mem_map.1 (List.mem_of_mem_filter hrow)
  have hkind := kind_of_declaration? hdeclaration
  have hform := Lexeme.form_of_mem_scan
    (List.mem_of_mem_filter (mem_of_declaration? hdeclaration)) (by rw [hkind]; nofun)
    (by rw [hkind]; nofun)
  rw [hkind] at hform
  obtain ⟨c, rest, htext, hstart⟩ := hform.exists_startsName
  -- The first letter of the name would be the sign in front of the number.
  have hletters := beq_iff_eq.1 hname
  rw [htext, labelName, List.getD_nil, String.toList_append] at hletters
  exact Lexeme.toLower_ne_of_startsName hstart (List.cons.inj hletters).1

/-- The labels of an accepted program have different names. -/
theorem Declares.unique (hdistinct : (symbolsOf s.words).labels.names.Nodup)
    (h : s.Declares word name) (hother : s.Declares other name) : other = word := by
  obtain ⟨row, hrow, hword, hname⟩ := h
  obtain ⟨row', hrow', hword', hname'⟩ := hother
  rw [names_symbolsOf] at hdistinct
  have hkeys : SymbolTable.key other.text = SymbolTable.key word.text :=
    (Lexeme.hasName_iff.1 hname').trans (Lexeme.hasName_iff.1 hname).symm
  exact List.inj_on_of_nodup_map hdistinct (List.mem_filterMap.2 ⟨row', hrow', hword'⟩)
    (List.mem_filterMap.2 ⟨row, hrow, hword⟩) hkeys

end Source

/-! ## Words of laid out records -/

/-- A name that a table has under a number is that of the label with this number. -/
theorem Lexeme.hasName_labelName {labels : Labels} {index : Nat} {word : Lexeme}
    (h : labels.names[index]? = some (SymbolTable.key word.text)) :
    word.hasName (labelName labels.names index) = true := by
  rw [hasName_iff, labelName, List.getD_eq_getElem?_getD, h, Option.getD_some,
    SymbolTable.key_key]

section Layout

variable {s : Source} {chunks : List (List Record)} {location index : Nat} {p : Placed}

/-- A record that is laid out is made of the words of one row. -/
theorem exists_rowRecords_of_mem_fitting
    (h : List.Forall₂ (RowRecords (symbolsOf s.words)) s.words chunks)
    (hp : p ∈ fitting (counted location chunks.flatten)) :
    ∃ row ∈ s.words, ∃ chunk, RowRecords (symbolsOf s.words) row chunk ∧ p.record ∈ chunk := by
  have hrecord : p.record ∈ chunks.flatten := by
    rw [← map_record_counted location chunks.flatten]
    exact List.mem_map_of_mem (List.mem_of_mem_filter hp)
  obtain ⟨chunk, hchunk, hrecord⟩ := List.mem_flatten.1 hrecord
  obtain ⟨row, hrow, hrecords⟩ := exists_of_mem_left h.flip hchunk
  exact ⟨row, hrow, chunk, hrecords, hrecord⟩

theorem exists_branchesTo (h : List.Forall₂ (RowRecords (symbolsOf s.words)) s.words chunks)
    (hp : p ∈ fitting (counted location chunks.flatten))
    (huse : p.record.item.labelUse? = some ⟨index, true⟩) :
    ∃ opcode, p.record.pos = opcode.pos ∧
      s.BranchesTo opcode (labelName (symbolsOf s.words).labels.names index) p.record.size := by
  obtain ⟨row, hrow, chunk, hrecords, hrecord⟩ := exists_rowRecords_of_mem_fitting h hp
  obtain ⟨opcode, target, hpos, hwords, htarget⟩ := hrecords.branches hrecord huse
  exact ⟨opcode, hpos, row, hrow, target, hwords, Lexeme.hasName_labelName htarget⟩

theorem exists_declares (h : List.Forall₂ (RowRecords (symbolsOf s.words)) s.words chunks)
    (hp : p ∈ fitting (counted location chunks.flatten))
    (hitem : p.record.item = .label index) :
    ∃ declared, p.record.pos = declared.pos ∧
      s.Declares declared (labelName (symbolsOf s.words).labels.names index) := by
  obtain ⟨row, hrow, chunk, hrecords, hrecord⟩ := exists_rowRecords_of_mem_fitting h hp
  obtain ⟨declared, hpos, hdeclaration, hdeclared⟩ := hrecords.declares hrecord hitem
  exact ⟨declared, hpos, row, hrow, hdeclaration, Lexeme.hasName_labelName hdeclared⟩

end Layout

/-- A branch that is out of reach is reported where it stands, with the name of its label, which is
declared once. The displacement is the distance to the label from behind the bytes of the branch. -/
theorem branch_faults_measure_to_label (s : Source) (origin : UInt16) {faults : List Fault}
    (h : assemble s origin = .error faults) {pos : Position} {name : String} {displacement : Int}
    (hmem : .inSource pos (.branchOutOfRange name displacement) ∈ faults) :
    (∃ opcode size declared records branch label,
      (s.BranchesTo opcode name size ∧ opcode.pos = pos) ∧
      (s.Declares declared name ∧ ∀ other, s.Declares other name → other = declared) ∧
      s.ResolvesTo records ∧
      BranchLayout (counted origin.toNat records) opcode declared branch label ∧
      displacement = (label.location : Int) - (branch.location + size : Nat)) ∧
      (displacement < -128 ∨ 127 < displacement) ∧ ∀ index, name ≠ labelName [] index := by
  obtain ⟨records, hlexemes, houtcome, hfault⟩ := linked_of_branchOutOfRange_mem h hmem
  obtain ⟨branch, hbranch, label, hlabel, index, huse, hitem, rfl, rfl, rfl, hreach⟩ :=
    exists_of_branchOutOfRange_mem hfault
  obtain ⟨hwell, -, chunks, hchunks, rfl⟩ := wellFormed_and_exists_chunks houtcome
  rw [wordRows_ofSource] at hwell hchunks
  -- The number of the label leads to a name in the row of either record.
  obtain ⟨opcode, hopcode, hbranches⟩ := exists_branchesTo hchunks hbranch huse
  obtain ⟨declared, hdeclared, hdeclares⟩ := exists_declares hchunks hlabel hitem
  refine ⟨⟨opcode, branch.record.size, declared, chunks.flatten, branch, label, ?_⟩, ?_,
    hdeclares.ne_number⟩
  · exact ⟨⟨hbranches, hopcode.symm⟩,
      ⟨hdeclares, fun _ => hdeclares.unique hwell.labels_distinct⟩, ⟨_, hlexemes, houtcome⟩,
      ⟨hbranch, hopcode, hlabel, hdeclared, index, huse, hitem⟩, rfl⟩
  · rw [InReach] at hreach
    omega

/-- A branch forward and a longer one back, both beyond their reach. -/
def farBranches : Source where
  name := "far.s"
  rows := ["start: BEQ far", "* = $0700", "far: BBS7 $10, start"]

/-- The records of `farBranches`. -/
def farBranchRecords : List Record :=
  [⟨⟨1, 1⟩, .label 0⟩, ⟨⟨1, 8⟩, .operation ⟨.beq, .relative⟩ 0xF0 (.branch 1)⟩,
    ⟨⟨2, 1⟩, .origin 0x0700⟩,
    ⟨⟨3, 1⟩, .label 1⟩,
    ⟨⟨3, 6⟩, .operation ⟨.bbs (Fin.last 7), .zeroPageRelative⟩ 0xFF (.bitBranch 0x10 0)⟩]

/-- The faults of `farBranches`, from `$0602` to `$0700` and from `$0703` to `$0600`. -/
def farBranchFaults : List Fault :=
  [.inSource ⟨1, 8⟩ (.branchOutOfRange "far" 254),
    .inSource ⟨3, 6⟩ (.branchOutOfRange "start" (-259))]

theorem lexemes_farBranches : farBranches.lexemes = .ok (Lexeme.ofSource farBranches) := by
  decide +kernel

theorem outcome_farBranches :
    (Program.resolve {} (Lexeme.ofSource farBranches)).outcome = .ok farBranchRecords := by
  decide +kernel

theorem assemble_farBranches : assemble farBranches 0x0600 = .error farBranchFaults := by
  have hnames : (Program.resolve {} (Lexeme.ofSource farBranches)).symbols.labels.names =
      ["start", "far"] := by
    decide +kernel
  have hfaults : linkFaults ["start", "far"] (counted 0x0600 farBranchRecords) =
      farBranchFaults := by
    decide +kernel
  have hsorted : Fault.sorted farBranchFaults = farBranchFaults :=
    List.mergeSort_of_pairwise (by decide)
  rw [assemble_eq_link 0x0600 lexemes_farBranches outcome_farBranches, hnames]
  refine (link_eq_error_iff (by decide)).2 ⟨hfaults ▸ List.cons_ne_nil _ _, ?_⟩
  exact (hfaults ▸ hsorted).symm

theorem farBranches_measured :
    assemble farBranches 0x0600 = .error farBranchFaults ∧
      (∃ opcode declared,
        (farBranches.BranchesTo opcode "far" 2 ∧ opcode.pos = ⟨1, 8⟩) ∧
        (farBranches.Declares declared "far" ∧ declared.pos = ⟨3, 1⟩ ∧
          ∀ other, farBranches.Declares other "far" → other = declared) ∧
        BranchLayout (counted 0x0600 farBranchRecords) opcode declared
          ⟨0x0600, ⟨⟨1, 8⟩, .operation ⟨.beq, .relative⟩ 0xF0 (.branch 1)⟩⟩
          ⟨0x0700, ⟨⟨3, 1⟩, .label 1⟩⟩ ∧
        (254 : Int) = 0x0700 - (0x0600 + 2)) ∧
      ∃ opcode declared,
        (farBranches.BranchesTo opcode "start" 3 ∧ opcode.pos = ⟨3, 6⟩) ∧
        (farBranches.Declares declared "start" ∧ declared.pos = ⟨1, 1⟩ ∧
          ∀ other, farBranches.Declares other "start" → other = declared) ∧
        BranchLayout (counted 0x0600 farBranchRecords) opcode declared
          ⟨0x0700, ⟨⟨3, 6⟩,
            .operation ⟨.bbs (Fin.last 7), .zeroPageRelative⟩ 0xFF (.bitBranch 0x10 0)⟩⟩
          ⟨0x0600, ⟨⟨1, 1⟩, .label 0⟩⟩ ∧
        (-259 : Int) = 0x0600 - (0x0700 + 3) := by
  have hbranch : ∀ p ∈ fitting (counted 0x0600 farBranchRecords), p.record.pos = ⟨1, 8⟩ →
      p = ⟨0x0600, ⟨⟨1, 8⟩, .operation ⟨.beq, .relative⟩ 0xF0 (.branch 1)⟩⟩ := by
    decide +kernel
  have hlabel : ∀ p ∈ fitting (counted 0x0600 farBranchRecords), p.record.item = .label 1 →
      p = ⟨0x0700, ⟨⟨3, 1⟩, .label 1⟩⟩ := by
    decide +kernel
  have hbitBranch : ∀ p ∈ fitting (counted 0x0600 farBranchRecords), p.record.pos = ⟨3, 6⟩ →
      p = ⟨0x0700, ⟨⟨3, 6⟩,
        .operation ⟨.bbs (Fin.last 7), .zeroPageRelative⟩ 0xFF (.bitBranch 0x10 0)⟩⟩ := by
    decide +kernel
  have hother : ∀ p ∈ fitting (counted 0x0600 farBranchRecords), p.record.item = .label 0 →
      p = ⟨0x0600, ⟨⟨1, 1⟩, .label 0⟩⟩ := by
    decide +kernel
  have hresolves : farBranches.ResolvesTo farBranchRecords :=
    ⟨_, lexemes_farBranches, outcome_farBranches⟩
  refine ⟨assemble_farBranches, ?_, ?_⟩
  · obtain ⟨⟨opcode, size, declared, records, branch, label, ⟨hbranches, hpos⟩,
      ⟨hdeclares, hunique⟩, hrecords, hlayout, hdistance⟩, -⟩ :=
      branch_faults_measure_to_label farBranches 0x0600 assemble_farBranches List.mem_cons_self
    obtain rfl := hresolves.unique hrecords
    obtain rfl := hbranch branch hlayout.branch_mem (hlayout.branch_pos.trans hpos)
    obtain ⟨index, huse, hitem⟩ := hlayout.names
    cases huse
    obtain rfl := hlabel label hlayout.label_mem hitem
    obtain rfl : size = 2 := by
      have hdistance : (254 : Int) = (0x0700 : Nat) - (0x0600 + size : Nat) := hdistance
      omega
    exact ⟨opcode, declared, ⟨hbranches, hpos⟩, ⟨hdeclares, hlayout.label_pos.symm, hunique⟩,
      hlayout, hdistance⟩
  · obtain ⟨⟨opcode, size, declared, records, branch, label, ⟨hbranches, hpos⟩,
      ⟨hdeclares, hunique⟩, hrecords, hlayout, hdistance⟩, -⟩ :=
      branch_faults_measure_to_label farBranches 0x0600 assemble_farBranches
        (List.mem_cons_of_mem _ List.mem_cons_self)
    obtain rfl := hresolves.unique hrecords
    obtain rfl := hbitBranch branch hlayout.branch_mem (hlayout.branch_pos.trans hpos)
    obtain ⟨index, huse, hitem⟩ := hlayout.names
    cases huse
    obtain rfl := hother label hlayout.label_mem hitem
    obtain rfl : size = 3 := by
      have hdistance : (-259 : Int) = (0x0600 : Nat) - (0x0700 + size : Nat) := hdistance
      omega
    exact ⟨opcode, declared, ⟨hbranches, hpos⟩, ⟨hdeclares, hlayout.label_pos.symm, hunique⟩,
      hlayout, hdistance⟩

end Assembler65
