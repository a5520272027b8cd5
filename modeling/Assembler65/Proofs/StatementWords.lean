import Assembler65.Proofs.Statements

/-!
# Words of statements

The words of a statement and its tokens with the constants inlined say the same: tokens that stand
for an item come from words that do (`statementItem_of_statementTokens`), and words of the right
form, all numbers in range, give tokens that stand for an item
(`StatementForm.exists_statementTokens`).
-/

set_option autoImplicit false

namespace Assembler65

/-- The numbers among some tokens fit into words of the machine. -/
def NumbersFit (tokens : List Token) : Prop :=
  ∀ t ∈ tokens, ∀ n, t.kind = .number n → n ≤ Numeral.wordLimit

/-! ## Data lists -/

section DataLists

variable [Folding] {constants : Constants} {word : Lexeme} {t : Token}

theorem Lexeme.kind_ne_string_of_isNumber (h : word.isNumber constants = true) :
    word.kind ≠ .string := by
  intro hkind
  simp [isNumber, isNumeral, isName, hkind] at h

theorem Lexeme.isNumber_of_number? {n : Nat} (h : word.number? constants = some n) :
    word.isNumber constants = true := by
  rw [number?] at h
  split at h
  case isTrue hnumeral => rw [isNumber, hnumeral, Bool.true_or]
  case isFalse =>
    split at h
    case isTrue hname =>
      obtain ⟨value, hfind, -⟩ := Option.map_eq_some_iff.1 h
      rw [isNumber, hname, SymbolTable.contains, hfind]
      exact Bool.or_true _
    case isFalse => cases h

theorem Inlines.isElement_and_dataValues (h : Inlines constants word t) {values : List Nat}
    (hvalues : t.kind.dataValues? = some values)
    (hfits : ∀ n, t.kind = .number n → n ≤ Numeral.wordLimit) :
    word.isElement constants = true ∧ word.dataValues constants = values := by
  cases hkind : t.kind with
  | number n =>
    have hnumber := h.isNumber hkind
    rw [hkind, TokenKind.dataValues?, Option.some.injEq] at hvalues
    rw [Lexeme.isElement, hnumber, Bool.or_true, Lexeme.dataValues,
      if_neg (Lexeme.kind_ne_string_of_isNumber hnumber), h.number?_eq hkind (hfits n hkind)]
    exact ⟨rfl, hvalues⟩
  | string text =>
    obtain ⟨hstring, rfl⟩ := h.spells hkind rfl
    rw [hkind, TokenKind.dataValues?, Option.some.injEq] at hvalues
    rw [Lexeme.isElement, hstring, Lexeme.dataValues, if_pos hstring]
    exact ⟨rfl, hvalues⟩
  | _ =>
    rw [hkind] at hvalues
    cases hvalues

theorem Inlines.dataValues?_eq (h : Inlines constants word t)
    (helement : word.isElement constants = true) (hfits : word.NumeralFits) :
    t.kind.dataValues? = some (word.dataValues constants) := by
  rw [Lexeme.isElement, Bool.or_eq_true, beq_iff_eq] at helement
  rcases helement with hstring | hnumber
  · have hspells : word.Spells (.string word.text) := ⟨hstring, rfl⟩
    rw [h.kind_eq hspells rfl, Lexeme.dataValues, if_pos hstring]
    rfl
  · obtain ⟨n, hn, hle⟩ := Lexeme.exists_number? hnumber hfits
    rw [h.kind_of_number? hn hle, Lexeme.dataValues,
      if_neg (Lexeme.kind_ne_string_of_isNumber hnumber), hn]
    rfl

theorem Lexeme.dataValues_of_comma (hcomma : word.kind = .comma) :
    word.dataValues constants = [] := by
  simp [dataValues, number?, isNumeral, isName, hcomma]

/-- A data list of tokens comes from a data list of words with the same values. -/
theorem DataTokens.dataForm {words : List Lexeme} {tokens : List Token} {values : List Nat}
    (h : DataTokens tokens values) (hwords : List.Forall₂ (Inlines constants) words tokens)
    (hfits : NumbersFit tokens) :
    DataForm constants words ∧ words.flatMap (Lexeme.dataValues constants) = values := by
  induction h generalizing words with
  | @last t values hvalues =>
    rcases hwords with _ | @⟨element, _, _, _, helement, _ | _⟩
    obtain ⟨hiselement, hown⟩ :=
      helement.isElement_and_dataValues hvalues (hfits t List.mem_cons_self)
    refine ⟨.last hiselement, ?_⟩
    rw [List.flatMap_singleton, hown]
  | @more t comma rest values others hvalues hcomma _ ih =>
    rcases hwords with _ | @⟨element, _, _, _, helement, _ | @⟨sign, _, words, _, hsign, hrest⟩⟩
    obtain ⟨hiselement, hown⟩ :=
      helement.isElement_and_dataValues hvalues (hfits t List.mem_cons_self)
    -- The comma between two elements adds no value.
    have hspells := hsign.spells hcomma rfl
    obtain ⟨hform, hothers⟩ := ih hrest fun t' ht' =>
      hfits t' (List.mem_cons_of_mem _ (List.mem_cons_of_mem _ ht'))
    refine ⟨.more hiselement hspells hform, ?_⟩
    rw [List.flatMap_cons, List.flatMap_cons, hown, Lexeme.dataValues_of_comma hspells,
      List.nil_append, hothers]

/-- A data list of words gives a data list of tokens with the same values. -/
theorem DataForm.dataTokens {words : List Lexeme} {tokens : List Token}
    (h : DataForm constants words) (hwords : List.Forall₂ (Inlines constants) words tokens)
    (hfits : NumeralsFit words) :
    DataTokens tokens (words.flatMap (Lexeme.dataValues constants)) := by
  induction h generalizing tokens with
  | @last element helement =>
    rcases hwords with _ | @⟨_, t, _, _, ht, _ | _⟩
    rw [List.flatMap_singleton]
    exact .last (ht.dataValues?_eq helement (hfits element List.mem_cons_self))
  | @more element comma rest helement hcomma _ ih =>
    rcases hwords with _ | @⟨_, t, _, _, ht, _ | @⟨_, sign, _, tokens, hsign, hrest⟩⟩
    have hothers := ih hrest fun word hword =>
      hfits word (List.mem_cons_of_mem _ (List.mem_cons_of_mem _ hword))
    rw [List.flatMap_cons, List.flatMap_cons, Lexeme.dataValues_of_comma hcomma, List.nil_append]
    refine .more (ht.dataValues?_eq helement (hfits element List.mem_cons_self)) ?_ hothers
    exact hsign.kind_eq hcomma rfl

end DataLists

/-! ## Statements -/

/-- Values that all can be stored are read back. -/
theorem map_map_eq_self {α : Type} {values : List Nat} {store : Nat → α} {read : α → Nat}
    (h : ∀ v ∈ values, read (store v) = v) : (values.map store).map read = values := by
  rw [List.map_map]
  exact (List.map_congr_left (g := id) h).trans (List.map_id values)

section Statements

variable [Folding] {symbols : Symbols} {words : List Lexeme} {tokens : List Token} {item : Item}

/-- Tokens that stand for an item come from words that do. -/
theorem statementItem_of_statementTokens (h : StatementTokens symbols.labels tokens item)
    (hwords : List.Forall₂ (Inlines symbols.constants) words tokens) (hfits : NumbersFit tokens) :
    StatementItem symbols words item := by
  have htail : ∀ {t rest}, tokens = t :: rest → NumbersFit rest := by
    rintro t rest rfl t' ht'
    exact hfits t' (List.mem_cons_of_mem t ht')
  cases h with
  | directive htokens =>
    cases htokens with
    | @origin mark sign number n hmark hsign hnumber hn =>
      rcases hwords with _ | @⟨w₁, _, _, _, h₁, _ | @⟨w₂, _, _, _, h₂, _ |
        @⟨w₃, _, _, _, h₃, _ | _⟩⟩⟩
      have hstar := Lexeme.asDirective?_eq_origin_iff.1 (h₁.spells hmark rfl)
      refine .origin hstar (h₂.spells hsign rfl) ?_
      rw [h₃.number?_eq hnumber hn, Numeral.word?_eq_some_iff.1 (if_pos hn)]
    | @bytes t rest values hkind hrest hvalues =>
      rcases hwords with _ | @⟨directive, _, elements, _, hdirective, helements⟩
      obtain ⟨hform, hall⟩ := hrest.dataForm helements (htail rfl)
      refine .bytes (hdirective.spells hkind rfl) hform ?_
      rw [hall, map_map_eq_self]
      intro v hv
      exact Numeral.toNat_byte (hvalues v hv)
    | @words t rest values hkind hrest hvalues =>
      rcases hwords with _ | @⟨directive, _, elements, _, hdirective, helements⟩
      obtain ⟨hform, hall⟩ := hrest.dataForm helements (htail rfl)
      refine .words (hdirective.spells hkind rfl) hform ?_
      rw [hall, map_map_eq_self]
      intro v hv
      exact Numeral.toNat_word (hvalues v hv)
  | @operation t rest m mode operand code hkind hknown hchoice hcode =>
    rcases hwords with _ | @⟨opcode, _, operands, _, hopcode, hoperands⟩
    -- The choice names a place in its faults, and word and token stand at the same one.
    have hchoice' := hchoice
    rw [← hopcode.pos] at hchoice'
    refine .operation (hopcode.spells hkind rfl)
      ((forall₂_operand?_iff hoperands).2 ⟨rfl, hknown⟩) hchoice' hcode ?_
    rw [labels_of_chooseMode hchoice]
    exact labels_bind hoperands hknown

/-- Words that stand for an item have the form of a statement. -/
theorem StatementItem.statementForm (h : StatementItem symbols words item) :
    StatementForm symbols words := by
  cases h with
  | origin hmark hsign hnumber => exact .origin hmark hsign (Lexeme.isNumber_of_number? hnumber)
  | bytes hdirective helements hvalues =>
    exact .data (by rw [Lexeme.dataLimit?, hdirective]) helements
  | words hdirective helements hvalues =>
    exact .data (by rw [Lexeme.dataLimit?, hdirective]) helements
  | operation hopcode hoperands hchoice hcode hlabels =>
    exact .operation hopcode hoperands hchoice

/-- The tokens of words of the right form, all numbers in range, stand for an item. -/
theorem StatementForm.exists_statementTokens (h : StatementForm symbols words)
    (hwords : List.Forall₂ (Inlines symbols.constants) words tokens) (hfits : NumeralsFit words)
    (hdata : DataFits symbols.constants words) :
    ∃ item, StatementTokens symbols.labels tokens item := by
  cases h with
  | @origin mark sign number hmark hsign hnumber =>
    rcases hwords with _ | @⟨_, t₁, _, _, h₁, _ | @⟨_, t₂, _, _, h₂, _ | @⟨_, t₃, _, _, h₃, _ | _⟩⟩⟩
    obtain ⟨n, hn, hle⟩ := Lexeme.exists_number? hnumber (hfits number (by simp))
    have hstar : mark.Spells (.directive .origin) := Lexeme.asDirective?_eq_origin_iff.2 hmark
    exact ⟨_, .directive (.origin (h₁.kind_eq hstar rfl) (h₂.kind_eq hsign rfl)
      (h₃.kind_of_number? hn hle) hle)⟩
  | @data directive elements limit hdirective helements =>
    rcases hwords with _ | @⟨_, t, _, rest, ht, hrest⟩
    have hvalues := helements.dataTokens hrest fun word hword =>
      hfits word (List.mem_cons_of_mem directive hword)
    have hle : ∀ v ∈ elements.flatMap (Lexeme.dataValues symbols.constants), v ≤ limit := by
      intro v hv
      obtain ⟨element, helement, hmem⟩ := List.mem_flatMap.1 hv
      exact hdata directive elements limit rfl hdirective element helement v hmem
    -- The limit tells bytes from words.
    rw [Lexeme.dataLimit?] at hdirective
    split at hdirective
    case h_1 hbytes =>
      cases hdirective
      have hkind : directive.Spells (.directive .bytes) := hbytes
      exact ⟨_, .directive (.bytes (ht.kind_eq hkind rfl) hvalues hle)⟩
    case h_2 hwords =>
      cases hdirective
      have hkind : directive.Spells (.directive .words) := hwords
      exact ⟨_, .directive (.words (ht.kind_eq hkind rfl) hvalues hle)⟩
    case h_3 => cases hdirective
  | @operation opcode operands operandTokens m choice hopcode hoperands hchoice =>
    rcases hwords with _ | @⟨_, t, _, rest, ht, hrest⟩
    obtain ⟨rfl, hknown⟩ := (forall₂_operand?_iff hrest).1 hoperands
    rw [ht.pos] at hchoice
    obtain ⟨code, hcode⟩ := exists_encode_of_chooseMode hchoice
    have hkind : opcode.Spells (.opcode m) := hopcode
    exact ⟨_, .operation (ht.kind_eq hkind rfl) hknown hchoice hcode⟩

end Statements

end Assembler65
