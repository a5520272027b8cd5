import Assembler65.Proofs.Acceptance

/-!
# Lines of the same tokens

The text of a token is only there to be quoted in a fault. Lines whose tokens agree in kind and
place therefore pass the same checks and give the same records (`Program.Yields.of_alike`), once
their constants are inlined.
-/

set_option autoImplicit false

namespace Assembler65

/-- Tokens of one kind at one place, with any texts. -/
structure Token.Alike (t t' : Token) : Prop where
  kind : t.kind = t'.kind
  pos : t.pos = t'.pos

/-- Lines of one row with the same tokens but for their texts. -/
structure Line.Alike (l l' : Line) : Prop where
  row : l.row = l'.row
  tokens : List.Forall₂ Token.Alike l.tokens l'.tokens

section Tokens

variable {labels : Labels} {tokens tokens' : List Token} {item : Item}

theorem Token.Alike.symm {t t' : Token} (h : t.Alike t') : t'.Alike t := ⟨h.kind.symm, h.pos.symm⟩

theorem Line.Alike.symm {l l' : Line} (h : l.Alike l') : l'.Alike l :=
  ⟨h.row.symm, h.tokens.flip.imp fun _ _ => Token.Alike.symm⟩

theorem Token.Alike.bind {t t' : Token} (h : t.Alike t') (labels : Labels) :
    (t.bind labels).Alike (t'.bind labels) :=
  ⟨congrArg labels.bindKind h.kind, h.pos⟩

theorem forall₂_alike_bind (labels : Labels) (h : List.Forall₂ Token.Alike tokens tokens') :
    List.Forall₂ Token.Alike (tokens.map (Token.bind labels)) (tokens'.map (Token.bind labels)) :=
  List.forall₂_map_left_iff.2 (List.forall₂_map_right_iff.2 (h.imp fun _ _ ht => ht.bind labels))

theorem map_kind_of_alike (h : List.Forall₂ Token.Alike tokens tokens') :
    tokens.map Token.kind = tokens'.map Token.kind := by
  induction h with
  | nil => rfl
  | cons hhead _ ih => rw [List.map_cons, List.map_cons, hhead.kind, ih]

/-! ## Statements -/

theorem NumbersFit.of_alike (h : NumbersFit tokens)
    (halike : List.Forall₂ Token.Alike tokens tokens') : NumbersFit tokens' := by
  intro t' ht' n hkind
  obtain ⟨t, ht, hsame⟩ := exists_of_mem_left halike.flip ht'
  exact h t ht n (hsame.kind.trans hkind)

/-- A choice that succeeds looks at the kinds of tokens only. -/
theorem chooseMode_of_map_kind {m : Mnemonic} {pos : Position} {choice : Candidate}
    (hkinds : tokens.map Token.kind = tokens'.map Token.kind)
    (h : chooseMode m pos tokens = .ok choice) : chooseMode m pos tokens' = .ok choice := by
  rw [chooseMode] at h ⊢
  -- The fault of a wide immediate quotes a text, so only its absence depends on kinds alone.
  cases hwide : wideImmediate? tokens with
  | some fault => rw [hwide] at h; cases h
  | none =>
    have hwide' : wideImmediate? tokens' = none := by
      rw [wideImmediate?_eq_none_iff] at hwide ⊢
      rw [← hkinds]
      exact hwide
    rw [hwide, hkinds] at h
    rw [hwide']
    exact h

theorem DataTokens.of_alike {values : List Nat} (h : DataTokens tokens values)
    (halike : List.Forall₂ Token.Alike tokens tokens') : DataTokens tokens' values := by
  induction h generalizing tokens' with
  | last hvalues =>
    rcases halike with _ | @⟨_, t', _, _, ht, _ | _⟩
    exact .last (ht.kind ▸ hvalues)
  | more hvalues hcomma _ ih =>
    rcases halike with _ | @⟨_, t', _, _, ht, _ | @⟨_, comma', _, rest', hsign, hrest⟩⟩
    exact .more (ht.kind ▸ hvalues) (hsign.kind ▸ hcomma) (ih hrest)

theorem DirectiveTokens.of_alike (h : DirectiveTokens tokens item)
    (halike : List.Forall₂ Token.Alike tokens tokens') : DirectiveTokens tokens' item := by
  cases h with
  | origin hmark hsign hnumber hfits =>
    rcases halike with _ | @⟨_, t₁, _, _, h₁, _ | @⟨_, t₂, _, _, h₂, _ | @⟨_, t₃, _, _, h₃, _ | _⟩⟩⟩
    exact .origin (h₁.kind ▸ hmark) (h₂.kind ▸ hsign) (h₃.kind ▸ hnumber) hfits
  | bytes hkind hrest hfits =>
    rcases halike with _ | @⟨_, t', _, rest', ht, hmore⟩
    exact .bytes (ht.kind ▸ hkind) (hrest.of_alike hmore) hfits
  | words hkind hrest hfits =>
    rcases halike with _ | @⟨_, t', _, rest', ht, hmore⟩
    exact .words (ht.kind ▸ hkind) (hrest.of_alike hmore) hfits

/-- Tokens stand for the same item whatever their texts. -/
theorem StatementTokens.of_alike (h : StatementTokens labels tokens item)
    (halike : List.Forall₂ Token.Alike tokens tokens') : StatementTokens labels tokens' item := by
  cases h with
  | directive htokens => exact .directive (htokens.of_alike halike)
  | operation hkind hknown hchoice hcode =>
    rcases halike with _ | @⟨_, t', _, rest', ht, hmore⟩
    have hkinds := map_kind_of_alike (forall₂_alike_bind labels hmore)
    rw [ht.pos] at hchoice
    refine .operation (ht.kind ▸ hkind) ?_ (chooseMode_of_map_kind hkinds hchoice) hcode
    intro t ht name hname
    obtain ⟨t₀, ht₀, hsame⟩ := exists_of_mem_left hmore.flip ht
    exact hknown t₀ ht₀ name (hsame.kind.trans hname)

end Tokens

/-! ## Lines -/

namespace Line

variable {labels : Labels} {l l' : Line}

/-- A line that is no definition is clean exactly if its numbers fit and it has no statement, or one
that stands for an item. -/
theorem clean_iff_statementTokens (hdefinition : l.isDefinition = false) :
    l.Clean labels ↔
      NumbersFit l.tokens ∧
        (l.statement = [] ∨ ∃ item, StatementTokens labels l.statement item) := by
  constructor
  · intro hclean
    refine ⟨rangeFaults_eq_nil_iff.1 hclean.range, ?_⟩
    cases hstatement : l.statement with
    | nil => exact .inl rfl
    | cons t rest =>
      rw [← hstatement]
      exact .inr (hclean.exists_statementTokens hdefinition hstatement)
  · rintro ⟨hfits, hnil | ⟨item, hitem⟩⟩
    · exact clean_of_statement_eq_nil (rangeFaults_eq_nil_iff.2 hfits) hdefinition hnil
    · exact clean_of_statementTokens (rangeFaults_eq_nil_iff.2 hfits) hdefinition hitem

namespace Alike

/-- Lines of the same tokens are both empty or start alike. -/
theorem cases_tokens (h : l.Alike l') :
    (l.tokens = [] ∧ l'.tokens = []) ∨
      ∃ kind pos text text' rest rest', l.tokens = ⟨kind, text, pos⟩ :: rest ∧
        l'.tokens = ⟨kind, text', pos⟩ :: rest' := by
  have htokens := h.tokens
  generalize l.tokens = tokens, l'.tokens = tokens' at htokens
  cases htokens with
  | nil => exact .inl ⟨rfl, rfl⟩
  | @cons t t' rest rest' hhead _ =>
    obtain ⟨kind, text, pos⟩ := t
    obtain ⟨kind', text', pos'⟩ := t'
    cases hhead.kind
    cases hhead.pos
    exact .inr ⟨kind, pos, text, text', rest, rest', rfl, rfl⟩

theorem isDefinition_eq (h : l.Alike l') : l.isDefinition = l'.isDefinition := by
  rw [isDefinition, isDefinition]
  rcases h.cases_tokens with ⟨hl, hl'⟩ | ⟨kind, pos, text, text', rest, rest', hl, hl'⟩
  · rw [hl, hl']
  · rw [hl, hl']
    cases kind with
    | directive d => cases d <;> rfl
    | _ => rfl

theorem statement (h : l.Alike l') : List.Forall₂ Token.Alike l.statement l'.statement := by
  have hhead : l.head = l'.head := by
    rw [head, head]
    rcases h.cases_tokens with ⟨hl, hl'⟩ | ⟨kind, pos, text, text', rest, rest', hl, hl'⟩
    · rw [hl, hl']
    · rw [hl, hl']
      cases kind <;> rfl
  rw [Line.statement, Line.statement, hhead]
  exact List.forall₂_drop _ h.tokens

theorem clean (h : l.Alike l') (hdefinition : l.isDefinition = false) (hclean : l.Clean labels) :
    l'.Clean labels := by
  rw [clean_iff_statementTokens hdefinition] at hclean
  rw [clean_iff_statementTokens (h.isDefinition_eq ▸ hdefinition)]
  obtain ⟨hfits, hstatement⟩ := hclean
  refine ⟨hfits.of_alike h.tokens, ?_⟩
  rcases hstatement with hnil | ⟨item, hitem⟩
  · have hstatements := h.statement
    rw [hnil] at hstatements
    exact .inl (List.forall₂_nil_left_iff.1 hstatements)
  · exact .inr ⟨item, hitem.of_alike h.statement⟩

theorem declare_eq (h : l.Alike l') (labels : Labels) : labels.declare l = labels.declare l' := by
  rw [Labels.declare, Labels.declare, h.row]
  rcases h.cases_tokens with ⟨hl, hl'⟩ | ⟨kind, pos, text, text', rest, rest', hl, hl'⟩
  · rw [hl, hl']
  · rw [hl, hl']
    cases kind <;> rfl

theorem bind (h : l.Alike l') (labels : Labels) : (labels.bind l).Alike (labels.bind l') :=
  ⟨h.row, forall₂_alike_bind labels h.tokens⟩

theorem labelRecord?_eq (h : l.Alike l') (labels : Labels) :
    l.labelRecord? labels = l'.labelRecord? labels := by
  rw [labelRecord?, labelRecord?]
  rcases h.cases_tokens with ⟨hl, hl'⟩ | ⟨kind, pos, text, text', rest, rest', hl, hl'⟩
  · rw [hl, hl']
  · rw [hl, hl']
    cases kind <;> rfl

theorem statementRecord?_eq (h : l.Alike l') (hdefinition : l.isDefinition = false)
    (hclean : l.Clean labels) :
    (labels.bind l).statementRecord? = (labels.bind l').statementRecord? := by
  have hstatements := h.statement
  cases hstatement : l.statement with
  | nil =>
    rw [hstatement, List.forall₂_nil_left_iff] at hstatements
    rw [statementRecord?_of_nil (by rw [statement_bind, hstatement, List.map_nil]),
      statementRecord?_of_nil (by rw [statement_bind, hstatements, List.map_nil])]
  | cons t rest =>
    obtain ⟨item, hitem⟩ := hclean.exists_statementTokens hdefinition hstatement
    have hitem' := hitem.of_alike hstatements
    rw [hstatement] at hstatements
    obtain ⟨t', rest', ht, -, hstatement'⟩ := List.forall₂_cons_left_iff.1 hstatements
    rw [statementRecord?_bind hstatement hitem, statementRecord?_bind hstatement' hitem', ht.pos]

/-- Clean lines of the same tokens give the same records. -/
theorem records_eq (h : l.Alike l') (hdefinition : l.isDefinition = false)
    (hclean : l.Clean labels) :
    (labels.bind l).records labels = (labels.bind l').records labels := by
  rw [records, records, (h.bind labels).labelRecord?_eq labels,
    h.statementRecord?_eq hdefinition hclean]

end Alike

end Line

/-! ## Programs -/

namespace Program

/-- The labels and the records of lines with their constants inlined, if no step finds a fault. -/
structure Yields (lines : List Line) (labels : Labels) (records : List Record) : Prop where
  labels_eq : Labels.declareAll {} lines = (labels, [])
  clean : ∀ l ∈ lines, l.Clean labels
  records_eq : records = lines.flatMap fun l => (labels.bind l).records labels

theorem declareAll_of_alike {lines lines' : List Line} (h : List.Forall₂ Line.Alike lines lines')
    (labels : Labels) : labels.declareAll lines = labels.declareAll lines' := by
  induction h generalizing labels with
  | nil => rfl
  | cons hhead _ ih => simp only [Labels.declareAll, hhead.declare_eq, ih]

/-- Lines of the same tokens give the same labels and records. -/
theorem Yields.of_alike {lines lines' : List Line} {labels : Labels} {records : List Record}
    (h : Yields lines labels records) (halike : List.Forall₂ Line.Alike lines lines')
    (hdefinition : ∀ l ∈ lines, l.isDefinition = false) : Yields lines' labels records := by
  refine ⟨?_, ?_, ?_⟩
  · rw [← declareAll_of_alike halike]
    exact h.labels_eq
  · intro l' hl'
    obtain ⟨l, hl, hsame⟩ := exists_of_mem_left halike.flip hl'
    exact hsame.clean (hdefinition l hl) (h.clean l hl)
  · rw [h.records_eq]
    -- The lines shrink in the induction, and with them what is known of each.
    have hclean := h.clean
    clear h
    induction halike with
    | nil => rfl
    | cons hhead _ ih =>
      rw [List.forall_mem_cons] at hdefinition hclean
      rw [List.flatMap_cons, List.flatMap_cons, hhead.records_eq hdefinition.1 hclean.1,
        ih hdefinition.2 hclean.2]

theorem isDefinition_of_mem_inlinedLines {constants : Constants} {lines : List Line} :
    ∀ l ∈ inlinedLines constants lines, l.isDefinition = false := by
  intro k hk
  obtain ⟨l, -, hdefinition, rfl⟩ := mem_inlinedLines.1 hk
  rw [Constants.isDefinition_inline, hdefinition]

theorem constants_resolve {lexemes : List Lexeme} {constants : Constants}
    (h : collect Constants.collectStep {} (Line.ofLexemes lexemes) = (constants, [])) :
    (resolve {} lexemes).symbols.constants = constants := by
  rw [symbols_resolve, constants_bind, h]

theorem labels_resolve {lexemes : List Lexeme} {constants : Constants}
    (h : collect Constants.collectStep {} (Line.ofLexemes lexemes) = (constants, [])) :
    (resolve {} lexemes).symbols.labels =
      (Labels.declareAll {} (inlinedLines constants (Line.ofLexemes lexemes))).1 := by
  rw [← constants_resolve h, symbols_resolve]
  rfl

/-- Once the constants are collected, records are made exactly if every row can be read and the
lines with their constants inlined yield them. -/
theorem outcome_eq_ok_iff_yields {lexemes : List Lexeme} {constants : Constants}
    {records : List Record}
    (h : collect Constants.collectStep {} (Line.ofLexemes lexemes) = (constants, [])) :
    (resolve {} lexemes).outcome = .ok records ↔
      Line.readingFaults lexemes = [] ∧
        Yields (inlinedLines constants (Line.ofLexemes lexemes)) (resolve {} lexemes).symbols.labels
          records := by
  have hconstants := constants_resolve h
  rw [outcome_eq_ok_iff]
  constructor
  · rintro ⟨hreading, haccepted, hrecords⟩
    refine ⟨hreading, ?_, ?_, ?_⟩
    · have hlabels := haccepted.labels
      rw [← Labels.declareAll_eq_collect, hconstants] at hlabels
      exact hlabels
    · intro k hk
      obtain ⟨l, hl, hdefinition, rfl⟩ := mem_inlinedLines.1 hk
      rw [← hconstants]
      exact haccepted.clean l hl hdefinition
    · rw [hrecords, boundLines, List.flatMap_map, hconstants]
  · rintro ⟨hreading, hyields⟩
    refine ⟨hreading, ⟨?_, ?_, ?_⟩, ?_⟩
    · rw [h, hconstants]
    · rw [← Labels.declareAll_eq_collect, hconstants]
      exact hyields.labels_eq
    · intro l hl hdefinition
      rw [hconstants]
      exact hyields.clean _ (mem_inlinedLines.2 ⟨l, hl, hdefinition, rfl⟩)
    · rw [hyields.records_eq, boundLines, List.flatMap_map, hconstants]

end Program

end Assembler65
