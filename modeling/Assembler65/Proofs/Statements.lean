import Assembler65.Proofs.DataList
import Assembler65.Proofs.Operations

/-!
# Statements of lines

What each check of a line finds, said of the tokens of the line: numbers, references, the token
that a statement starts with, and the operands of directives. `Line.Clean` gathers the checks, and
the lemmas about `gathered?` and `statementRecord?` give the record of a line that passes them.
-/

set_option autoImplicit false

namespace Assembler65

/-- The kinds of tokens that a statement starts with. -/
def TokenKind.startsStatement : TokenKind → Bool
  | .opcode _ => true
  | .directive d => d != .define
  | _ => false

namespace Line

variable {l : Line} {labels : Labels}

/-! ## Checks -/

theorem statement_of_declaration {t : Token} {rest : List Token} {name : String}
    (htokens : l.tokens = t :: rest) (hkind : t.kind = .declaration name) :
    l.statement = rest := by
  obtain ⟨kind, text, pos⟩ := t
  cases hkind
  simp only [statement, head, htokens, List.drop_succ_cons, List.drop_zero]

theorem statement_of_no_declaration
    (h : ∀ t rest name, l.tokens = t :: rest → t.kind ≠ .declaration name) :
    l.statement = l.tokens := by
  have hhead : l.head = 0 := by
    rw [head]
    split
    case h_1 name text pos rest htokens => exact absurd rfl (h _ _ name htokens)
    case h_2 => rfl
  rw [statement, hhead, List.drop_zero]

/-- The numbers of a line are in range exactly if all of them fit into a word. -/
theorem rangeFaults_eq_nil_iff :
    l.rangeFaults = [] ↔
      ∀ t ∈ l.tokens, ∀ n, t.kind = .number n → n ≤ Numeral.wordLimit := by
  rw [rangeFaults, List.filterMap_eq_nil_iff]
  refine forall₂_congr fun t _ => ?_
  cases t.kind with
  | number n => simp
  | _ => simp

/-- A line that is no definition starts well exactly if its statement does. -/
theorem headFaults_eq_nil_iff (hdefinition : l.isDefinition = false) :
    l.headFaults = [] ↔
      ∀ t rest, l.statement = t :: rest → t.kind.startsStatement = true := by
  obtain ⟨row, tokens, finish⟩ := l
  cases tokens with
  | nil =>
    refine ⟨?_, fun _ => rfl⟩
    intro _ t rest hstatement
    cases hstatement
  | cons t rest =>
    obtain ⟨kind, text, pos⟩ := t
    by_cases hkind : ∃ name, kind = .declaration name
    · -- Behind a label declaration the check looks at the second token.
      obtain ⟨name, rfl⟩ := hkind
      rw [statement_of_declaration rfl rfl]
      cases rest with
      | nil =>
        refine ⟨?_, fun _ => rfl⟩
        intro _ t rest hstatement
        cases hstatement
      | cons t' rest' =>
        obtain ⟨kind', text', pos'⟩ := t'
        cases kind' <;> simp [headFaults, TokenKind.startsStatement]
    · have hdeclaration : ∀ t' rest' name, ⟨kind, text, pos⟩ :: rest = t' :: rest' →
          t'.kind ≠ .declaration name := by
        rintro _ _ name ⟨rfl, rfl⟩ hname
        exact hkind ⟨name, hname⟩
      rw [statement_of_no_declaration hdeclaration]
      cases kind with
      | declaration name => exact absurd ⟨name, rfl⟩ hkind
      | directive d => cases d <;> simp_all [headFaults, TokenKind.startsStatement, isDefinition]
      | _ => simp [headFaults, TokenKind.startsStatement]

/-- A line that is no gathered directive has only known references exactly if all of them are to
labels. -/
theorem referenceFaults_eq_nil_iff [Folding] (hgathered : l.gathered? = none) :
    l.referenceFaults labels = [] ↔
      ∀ t ∈ l.tokens, ∀ name, t.kind = .reference name → labels.contains name = true := by
  rw [referenceFaults, hgathered, if_neg (by simp), List.filterMap_eq_nil_iff]
  refine forall₂_congr fun t _ => ?_
  cases t.kind with
  | reference name => simp
  | _ => simp

theorem referenceFaults_of_gathered? [Folding] {item : Item}
    (hgathered : l.gathered? = some item) :
    l.referenceFaults labels = [] := by
  rw [referenceFaults, hgathered]
  rfl

end Line

/-! ## Operands of directives -/

/-- An origin mark without a fault has a number behind the equal sign and nothing more. -/
theorem exists_of_originOperand {finish : Position} {tokens : List Token}
    (h : (originOperand finish tokens).2 = []) :
    ∃ sign number n, tokens = [sign, number] ∧ sign.kind = .equal ∧ number.kind = .number n := by
  unfold originOperand at h
  split at h
  case h_1 text pos n text' pos' rest =>
    cases rest with
    | nil => exact ⟨⟨.equal, text, pos⟩, ⟨.number n, text', pos'⟩, n, rfl, rfl, rfl⟩
    | cons t rest => cases h
  case h_2 => cases h
  case h_3 => cases h

theorem originOperand_of_number {finish : Position} {sign number : Token} {n : Nat}
    (hsign : sign.kind = .equal) (hnumber : number.kind = .number n) :
    originOperand finish [sign, number] = (Numeral.word? n, []) := by
  obtain ⟨kind, text, pos⟩ := sign
  obtain ⟨kind', text', pos'⟩ := number
  cases hsign
  cases hnumber
  rfl

/-- Binding labels leaves data lists as they are. -/
theorem DataTokens.bind [Folding] (labels : Labels) {tokens : List Token} {values : List Nat}
    (h : DataTokens tokens values) : DataTokens (tokens.map (Token.bind labels)) values := by
  have hkeep : ∀ {t : Token} {values}, t.kind.dataValues? = some values →
      (t.bind labels).kind.dataValues? = some values := by
    intro t values hvalues
    cases hkind : t.kind with
    | number n =>
      rw [Token.kind_bind_eq hkind rfl, ← hkind]
      exact hvalues
    | string text =>
      rw [Token.kind_bind_eq hkind rfl, ← hkind]
      exact hvalues
    | _ =>
      rw [hkind] at hvalues
      cases hvalues
  induction h with
  | last hvalues => exact .last (hkeep hvalues)
  | @more t comma rest own others hvalues hcomma _ ih =>
    exact .more (hkeep hvalues) (Token.kind_bind_eq hcomma rfl) ih

/-- The tokens of a directive with the item that it stands for. -/
inductive DirectiveTokens : List Token → Item → Prop
  | origin {mark sign number : Token} {n : Nat} (hmark : mark.kind = .directive .origin)
      (hsign : sign.kind = .equal) (hnumber : number.kind = .number n)
      (hfits : n ≤ Numeral.wordLimit) :
      DirectiveTokens [mark, sign, number] (.origin (UInt16.ofNat n))
  | bytes {t : Token} {rest : List Token} {values : List Nat}
      (hkind : t.kind = .directive .bytes) (hrest : DataTokens rest values)
      (hfits : ∀ v ∈ values, v ≤ Numeral.byteLimit) :
      DirectiveTokens (t :: rest) (.bytes (values.map UInt8.ofNat))
  | words {t : Token} {rest : List Token} {values : List Nat}
      (hkind : t.kind = .directive .words) (hrest : DataTokens rest values)
      (hfits : ∀ v ∈ values, v ≤ Numeral.wordLimit) :
      DirectiveTokens (t :: rest) (.words (values.map UInt16.ofNat))

/-- Binding labels leaves directives as they are. -/
theorem DirectiveTokens.bind [Folding] (labels : Labels) {tokens : List Token} {item : Item}
    (h : DirectiveTokens tokens item) :
    DirectiveTokens (tokens.map (Token.bind labels)) item := by
  cases h with
  | origin hmark hsign hnumber hfits =>
    exact .origin (Token.kind_bind_eq hmark rfl) (Token.kind_bind_eq hsign rfl)
      (Token.kind_bind_eq hnumber rfl) hfits
  | bytes hkind hrest hfits =>
    exact .bytes (Token.kind_bind_eq hkind rfl) (hrest.bind labels) hfits
  | words hkind hrest hfits =>
    exact .words (Token.kind_bind_eq hkind rfl) (hrest.bind labels) hfits

/-- The tokens of a statement with the item that it stands for. -/
inductive StatementTokens [Folding] (labels : Labels) : List Token → Item → Prop
  | directive {tokens : List Token} {item : Item} (htokens : DirectiveTokens tokens item) :
      StatementTokens labels tokens item
  | operation {t : Token} {rest : List Token} {m : Mnemonic} {mode : Mode} {operand : Operand}
      {code : UInt8} (hkind : t.kind = .opcode m)
      (hknown : ∀ t ∈ rest, ∀ name, t.kind = .reference name → labels.contains name = true)
      (hchoice : chooseMode m t.pos (rest.map (Token.bind labels)) = .ok (mode, operand))
      (hcode : encode m mode = some code) :
      StatementTokens labels (t :: rest) (.operation ⟨m, mode⟩ code operand)

theorem DirectiveTokens.exists_cons {tokens : List Token} {item : Item}
    (h : DirectiveTokens tokens item) :
    ∃ t rest d, tokens = t :: rest ∧ t.kind = .directive d ∧ d ≠ .define := by
  cases h with
  | @origin mark sign number n hmark hsign hnumber hfits =>
    exact ⟨mark, _, _, rfl, hmark, by decide⟩
  | @bytes t rest values hkind hrest hfits => exact ⟨t, rest, _, rfl, hkind, by decide⟩
  | @words t rest values hkind hrest hfits => exact ⟨t, rest, _, rfl, hkind, by decide⟩

/-- Whether a token declares a label. -/
def TokenKind.isDeclaration : TokenKind → Bool
  | declaration _ => true
  | _ => false

namespace Line

variable {l : Line} {labels : Labels} {t : Token} {rest : List Token}

theorem gatherOrigin_of_origin (h : l.statement = t :: rest)
    (hkind : t.kind = .directive .origin) :
    l.gatherOrigin =
      ((originOperand l.finish rest).1.map .origin, (originOperand l.finish rest).2) := by
  obtain ⟨kind, text, pos⟩ := t
  cases hkind
  simp only [gatherOrigin, h]

theorem gatherOrigin_of_ne (h : ∀ t ∈ l.statement.head?, t.kind ≠ .directive .origin) :
    l.gatherOrigin = (none, []) := by
  rw [gatherOrigin]
  split
  case h_1 text pos rest hstatement => exact absurd rfl (h _ (by rw [hstatement]; rfl))
  case h_2 => rfl

theorem gatherData_of_bytes (h : l.statement = t :: rest) (hkind : t.kind = .directive .bytes) :
    l.gatherData =
      ((dataList Numeral.byteLimit l.finish rest).1.map fun vs => .bytes (vs.map UInt8.ofNat),
        (dataList Numeral.byteLimit l.finish rest).2) := by
  obtain ⟨kind, text, pos⟩ := t
  cases hkind
  simp only [gatherData, h]

theorem gatherData_of_words (h : l.statement = t :: rest) (hkind : t.kind = .directive .words) :
    l.gatherData =
      ((dataList Numeral.wordLimit l.finish rest).1.map fun vs => .words (vs.map UInt16.ofNat),
        (dataList Numeral.wordLimit l.finish rest).2) := by
  obtain ⟨kind, text, pos⟩ := t
  cases hkind
  simp only [gatherData, h]

theorem gatherData_of_ne (h : ∀ t ∈ l.statement.head?,
    t.kind ≠ .directive .bytes ∧ t.kind ≠ .directive .words) :
    l.gatherData = (none, []) := by
  rw [gatherData]
  split
  case h_1 text pos rest hstatement => exact absurd rfl (h _ (by rw [hstatement]; rfl)).1
  case h_2 text pos rest hstatement => exact absurd rfl (h _ (by rw [hstatement]; rfl)).2
  case h_3 => rfl

/-- A directive is gathered without a fault. -/
theorem gather_of_directiveTokens {item : Item} (h : DirectiveTokens l.statement item) :
    l.gathered? = some item ∧ l.gatherOrigin.2 = [] ∧ l.gatherData.2 = [] := by
  generalize hstatement : l.statement = tokens at h
  rw [gathered?]
  cases h with
  | @origin mark sign number n hmark hsign hnumber hfits =>
    have hdata : l.gatherData = (none, []) := gatherData_of_ne (by simp [hstatement, hmark])
    have hword : Numeral.word? n = some (UInt16.ofNat n) := if_pos hfits
    rw [gatherOrigin_of_origin hstatement hmark, originOperand_of_number hsign hnumber, hdata,
      hword]
    exact ⟨rfl, rfl, rfl⟩
  | @bytes t rest values hkind hrest hfits =>
    have horigin : l.gatherOrigin = (none, []) := gatherOrigin_of_ne (by simp [hstatement, hkind])
    rw [gatherData_of_bytes hstatement hkind, dataList_of_dataTokens hrest hfits, horigin]
    exact ⟨rfl, rfl, rfl⟩
  | @words t rest values hkind hrest hfits =>
    have horigin : l.gatherOrigin = (none, []) := gatherOrigin_of_ne (by simp [hstatement, hkind])
    rw [gatherData_of_words hstatement hkind, dataList_of_dataTokens hrest hfits, horigin]
    exact ⟨rfl, rfl, rfl⟩

/-- A directive without a fault, all of its numbers within a word, stands for an item. -/
theorem exists_directiveTokens {d : Directive} (h : l.statement = t :: rest)
    (hkind : t.kind = .directive d) (hdefine : d ≠ .define) (horigin : l.gatherOrigin.2 = [])
    (hdata : l.gatherData.2 = [])
    (hrange : ∀ t ∈ rest, ∀ n, t.kind = .number n → n ≤ Numeral.wordLimit) :
    ∃ item, DirectiveTokens l.statement item := by
  rw [h]
  cases d with
  | define => exact absurd rfl hdefine
  | origin =>
    rw [gatherOrigin_of_origin h hkind] at horigin
    obtain ⟨sign, number, n, rfl, hsign, hnumber⟩ := exists_of_originOperand horigin
    exact ⟨_, .origin hkind hsign hnumber (hrange number (by simp) n hnumber)⟩
  | bytes =>
    rw [gatherData_of_bytes h hkind] at hdata
    obtain ⟨values, hvalues⟩ := exists_dataList_eq_some hdata hrange
    obtain ⟨htokens, hfits⟩ := dataList_eq_some_iff.1 hvalues
    exact ⟨_, .bytes hkind htokens hfits⟩
  | words =>
    rw [gatherData_of_words h hkind] at hdata
    obtain ⟨values, hvalues⟩ := exists_dataList_eq_some hdata hrange
    obtain ⟨htokens, hfits⟩ := dataList_eq_some_iff.1 hvalues
    exact ⟨_, .words hkind htokens hfits⟩

/-- An operation is gathered by no directive. -/
theorem gather_of_opcode {m : Mnemonic} (h : l.statement = t :: rest)
    (hkind : t.kind = .opcode m) :
    l.gatherOrigin = (none, []) ∧ l.gatherData = (none, []) := by
  refine ⟨gatherOrigin_of_ne ?_, gatherData_of_ne ?_⟩
  · simp [h, hkind]
  · simp [h, hkind]

/-! ## Records of statements -/

theorem statementRecord?_of_opcode {m : Mnemonic} (h : l.statement = t :: rest)
    (hkind : t.kind = .opcode m) :
    l.statementRecord? =
      some ((operationItem m t.pos rest).map fun item => ⟨t.pos, item⟩) := by
  obtain ⟨kind, text, pos⟩ := t
  cases hkind
  simp only [statementRecord?, h]

theorem statementRecord?_of_directive {d : Directive} (h : l.statement = t :: rest)
    (hkind : t.kind = .directive d) :
    l.statementRecord? = l.gathered?.map fun item => .ok ⟨t.pos, item⟩ := by
  obtain ⟨kind, text, pos⟩ := t
  cases hkind
  simp only [statementRecord?, h]

theorem statementRecord?_of_nil (h : l.statement = []) : l.statementRecord? = none := by
  simp only [statementRecord?, h]

theorem head_cons (row : Nat) (t : Token) (rest : List Token) (finish : Position) :
    (⟨row, t :: rest, finish⟩ : Line).head = if t.kind.isDeclaration then 1 else 0 := by
  obtain ⟨kind, text, pos⟩ := t
  cases kind <;> rfl

/-- Replacing what tokens mean leaves the statement of a line where it is, if a token is a
declaration exactly if it was one before. -/
theorem statement_replace {replace : TokenKind → TokenKind}
    (h : ∀ kind, (replace kind).isDeclaration = kind.isDeclaration) (l : Line) :
    ({ l with tokens := l.tokens.map fun t => { t with kind := replace t.kind } } : Line).statement =
      l.statement.map fun t => { t with kind := replace t.kind } := by
  obtain ⟨row, tokens, finish⟩ := l
  cases tokens with
  | nil => rfl
  | cons t rest =>
    rw [statement, statement, List.map_drop, head_cons]
    simp only [List.map_cons, head_cons, h]

/-- Every token of a line is in its statement or declares a label. -/
theorem mem_statement_or_declaration (h : t ∈ l.tokens) :
    t ∈ l.statement ∨ ∃ name, t.kind = .declaration name := by
  by_cases hdeclaration : ∃ t rest name, l.tokens = t :: rest ∧ t.kind = .declaration name
  · obtain ⟨t', rest, name, htokens, hkind⟩ := hdeclaration
    rw [statement_of_declaration htokens hkind]
    rw [htokens] at h
    rcases List.mem_cons.1 h with rfl | h
    · exact .inr ⟨name, hkind⟩
    · exact .inl h
  · rw [statement_of_no_declaration]
    · exact .inl h
    · intro t' rest name htokens hkind
      exact hdeclaration ⟨t', rest, name, htokens, hkind⟩

variable [Folding]

theorem statement_bind (labels : Labels) (l : Line) :
    (labels.bind l).statement = l.statement.map (Token.bind labels) := by
  apply statement_replace
  intro kind
  cases kind with
  | reference name =>
    -- A reference may become a label, but never a declaration.
    rw [Labels.bindKind]
    cases labels.index? name with
    | some index => rfl
    | none => rfl
  | _ => rfl

/-- A line with its constants inlined in which no check finds a fault. -/
structure Clean (labels : Labels) (l : Line) : Prop where
  range : l.rangeFaults = []
  origin : l.gatherOrigin.2 = []
  data : l.gatherData.2 = []
  references : l.referenceFaults labels = []
  head : l.headFaults = []
  record : ∀ fault, (labels.bind l).statementRecord? ≠ some (.error fault)

/-- A statement gives its record once the labels are known. -/
theorem statementRecord?_bind {item : Item} (h : l.statement = t :: rest)
    (hitem : StatementTokens labels l.statement item) :
    (labels.bind l).statementRecord? = some (.ok ⟨t.pos, item⟩) := by
  have hbound := statement_bind labels l
  rw [h] at hbound hitem
  cases hitem with
  | directive htokens =>
    have hdirective : DirectiveTokens (labels.bind l).statement item := by
      rw [hbound]
      exact htokens.bind labels
    obtain ⟨t', rest', d, heq, hkind, -⟩ := hdirective.exists_cons
    cases hbound.symm.trans heq
    rw [statementRecord?_of_directive heq hkind, (gather_of_directiveTokens hdirective).1]
    rfl
  | @operation _ _ m mode operand code hkind hknown hchoice hcode =>
    have hkind' : (t.bind labels).kind = .opcode m := Token.kind_bind_eq hkind rfl
    rw [statementRecord?_of_opcode hbound hkind', Token.pos_bind,
      operationItem_eq_ok_iff.2 ⟨mode, operand, code, hchoice, hcode, rfl⟩]
    rfl

/-- The statement of a clean line stands for an item. -/
theorem Clean.exists_statementTokens (hclean : l.Clean labels)
    (hdefinition : l.isDefinition = false) (h : l.statement = t :: rest) :
    ∃ item, StatementTokens labels l.statement item := by
  have hmem : ∀ t' ∈ rest, t' ∈ l.tokens := by
    intro t' ht'
    have ht' : t' ∈ l.statement := by
      rw [h]
      exact List.mem_cons_of_mem t ht'
    exact List.mem_of_mem_drop ht'
  have hrange := rangeFaults_eq_nil_iff.1 hclean.range
  have hstarts := (headFaults_eq_nil_iff hdefinition).1 hclean.head t rest h
  cases hkind : t.kind with
  | directive d =>
    -- Gathering passes over numbers beyond a word, so this case needs the range check as well.
    rw [hkind] at hstarts
    obtain ⟨item, hitem⟩ := exists_directiveTokens h hkind (bne_iff_ne.1 hstarts) hclean.origin
      hclean.data fun t' ht' => hrange t' (hmem t' ht')
    exact ⟨item, .directive hitem⟩
  | opcode m =>
    -- Nothing was gathered, so that all references of the line have been looked up.
    obtain ⟨horigin, hdata⟩ := gather_of_opcode h hkind
    have hgathered : l.gathered? = none := by
      rw [gathered?, horigin, hdata]
      rfl
    have hknown := (referenceFaults_eq_nil_iff hgathered).1 hclean.references
    have hbound := statement_bind labels l
    rw [h, List.map_cons] at hbound
    have hkind' : (t.bind labels).kind = .opcode m := Token.kind_bind_eq hkind rfl
    have hrecord := hclean.record
    rw [statementRecord?_of_opcode hbound hkind', Token.pos_bind] at hrecord
    cases hoperation : operationItem m t.pos (rest.map (Token.bind labels)) with
    | error fault =>
      rw [hoperation] at hrecord
      exact absurd rfl (hrecord fault)
    | ok item =>
      obtain ⟨mode, operand, code, hchoice, hcode, rfl⟩ := operationItem_eq_ok_iff.1 hoperation
      rw [h]
      exact ⟨_, .operation hkind (fun t' ht' => hknown t' (hmem t' ht')) hchoice hcode⟩
  | _ =>
    rw [hkind] at hstarts
    cases hstarts

/-- A line without a statement is clean. -/
theorem clean_of_statement_eq_nil (hrange : l.rangeFaults = [])
    (hdefinition : l.isDefinition = false) (h : l.statement = []) : l.Clean labels := by
  have horigin : l.gatherOrigin = (none, []) := gatherOrigin_of_ne (by simp [h])
  have hdata : l.gatherData = (none, []) := gatherData_of_ne (by simp [h])
  have hbound : (labels.bind l).statement = [] := by rw [statement_bind, h, List.map_nil]
  refine ⟨hrange, by rw [horigin], by rw [hdata], ?_, ?_, ?_⟩
  · -- The only token left is the label declaration, which is no reference.
    rw [referenceFaults_eq_nil_iff (by rw [gathered?, horigin, hdata]; rfl)]
    intro t ht name hname
    rcases mem_statement_or_declaration ht with ht | ⟨other, hother⟩
    · rw [h] at ht
      cases ht
    · cases hname.symm.trans hother
  · rw [headFaults_eq_nil_iff hdefinition]
    intro t rest hstatement
    cases h.symm.trans hstatement
  · intro fault hrecord
    rw [statementRecord?_of_nil hbound] at hrecord
    cases hrecord

/-- A line whose statement stands for an item is clean. -/
theorem clean_of_statementTokens {item : Item} (hrange : l.rangeFaults = [])
    (hdefinition : l.isDefinition = false) (h : StatementTokens labels l.statement item) :
    l.Clean labels := by
  have hrecord : ∀ {t rest}, l.statement = t :: rest →
      ∀ fault, (labels.bind l).statementRecord? ≠ some (.error fault) := by
    intro t rest hstatement fault hrecord
    rw [statementRecord?_bind hstatement h] at hrecord
    cases hrecord
  generalize hstatement : l.statement = tokens at h
  cases h with
  | directive htokens =>
    obtain ⟨t, rest, d, rfl, hkind, hdefine⟩ := htokens.exists_cons
    obtain ⟨hgathered, horigin, hdata⟩ :=
      gather_of_directiveTokens (by rw [hstatement]; exact htokens)
    refine ⟨hrange, horigin, hdata, referenceFaults_of_gathered? hgathered, ?_, hrecord hstatement⟩
    rw [headFaults_eq_nil_iff hdefinition]
    intro t' rest' ht'
    cases hstatement.symm.trans ht'
    rw [hkind]
    exact bne_iff_ne.2 hdefine
  | @operation t rest m mode operand code hkind hknown hchoice hcode =>
    obtain ⟨horigin, hdata⟩ := gather_of_opcode hstatement hkind
    refine ⟨hrange, by rw [horigin], by rw [hdata], ?_, ?_, hrecord hstatement⟩
    · rw [referenceFaults_eq_nil_iff (by rw [gathered?, horigin, hdata]; rfl)]
      intro t' ht' name hname
      rcases mem_statement_or_declaration ht' with ht' | ⟨other, hother⟩
      · rw [hstatement] at ht'
        rcases List.mem_cons.1 ht' with rfl | ht'
        · cases hname.symm.trans hkind
        · exact hknown t' ht' name hname
      · cases hname.symm.trans hother
    · rw [headFaults_eq_nil_iff hdefinition]
      intro t' rest' ht'
      cases hstatement.symm.trans ht'
      rw [hkind]
      rfl

end Line

end Assembler65
