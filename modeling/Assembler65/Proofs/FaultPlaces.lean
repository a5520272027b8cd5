import Assembler65.Proofs.LostLabels
import Assembler65.Proofs.RowCover

/-!
# Faults and the text at their places

A fault points at the text that it quotes. Lexemes stand where their columns say, tokens take over
the places of lexemes, and neither replacing constants and labels nor making records moves them;
`Line.Anchored` is what these steps keep. Main statement: `faults_point_at_their_text`.
-/

set_option autoImplicit false

namespace Assembler65

namespace Source

/-- A place in a row that holds more than blanks, or right behind the row. -/
def HasPlace (s : Source) (pos : Position) : Prop :=
  ∃ line, s.row? pos.row = some line ∧ Text.isBlankText line = false ∧
    1 ≤ pos.column ∧ pos.column ≤ line.toList.length + 1

/-- From a place on, the row of the place begins with some characters. -/
def Shows (s : Source) (pos : Position) (text : List Char) : Prop :=
  ∃ line, s.row? pos.row = some line ∧ text <+: line.toList.drop (pos.column - 1)

variable {s : Source} {pos : Position}

theorem HasPlace.first (h : s.HasPlace pos) : s.HasPlace ⟨pos.row, 1⟩ := by
  obtain ⟨line, hrow, hblank, -, -⟩ := h
  exact ⟨line, hrow, hblank, Nat.le_refl 1, Nat.le_add_left 1 _⟩

theorem Shows.of_append {text rest : List Char} (h : s.Shows pos (text ++ rest)) :
    s.Shows pos text := by
  obtain ⟨line, hrow, htext⟩ := h
  exact ⟨line, hrow, (List.prefix_append text rest).trans htext⟩

theorem row?_of_mem_content {c : Nat × String} (h : c ∈ s.content) :
    s.row? c.1 = some c.2 ∧ Text.isBlankText c.2 = false := by
  obtain ⟨⟨line, row⟩, hmem, hcontent⟩ := List.mem_filterMap.1 h
  rw [Option.ite_none_left_eq_some] at hcontent
  obtain ⟨hblank, hpair⟩ := hcontent
  cases hpair
  obtain ⟨hpositive, hline⟩ := List.mem_zipIdx_iff_le_and_getElem?_sub.1 hmem
  refine ⟨?_, Bool.eq_false_iff.2 hblank⟩
  rw [row?, if_neg (by simp; omega)]
  exact hline

end Source

/-- What a cause quotes stands at a place. A character that is too large may stand anywhere in the
string literal at the place. -/
def Cause.Quotes (s : Source) (pos : Position) : Cause → Prop
  | .unexpectedText text | .unknownDirective text | .redefinedConstant text
  | .redefinedLabel text _ | .reservedLabel text | .undefinedLabel text =>
    s.Shows pos text.toList
  | .constantOverflow text _ =>
    s.Shows pos text.toList ∨ ∃ c literal, text = String.singleton c ∧ c ∈ literal ∧
      '"' ∉ literal ∧ s.Shows pos ('"' :: literal ++ ['"'])
  | _ => True

/-! ## Lexemes -/

namespace Lexeme

variable {s : Source} {l : Lexeme}

theorem place_of_mem_ofSource (h : l ∈ ofSource s) :
    s.HasPlace l.pos ∧ s.Shows l.pos l.spelling := by
  obtain ⟨⟨row, line⟩, hcontent, hl⟩ := List.mem_flatMap.1 h
  obtain ⟨hrow, hblank⟩ := Source.row?_of_mem_content hcontent
  obtain ⟨before, after, hline, hcolumn⟩ := standsIn_ofRow hl
  have hrow : s.row? l.pos.row = some line := by
    rw [row_of_mem_scan hl]
    exact hrow
  refine ⟨⟨line, hrow, hblank, ?_, ?_⟩, line, hrow, ?_⟩
  · rw [hcolumn]
    exact Nat.le_add_left 1 _
  · rw [hcolumn, hline, List.append_assoc, List.length_append]
    omega
  · rw [hcolumn, hline, Nat.add_sub_cancel, List.append_assoc, List.drop_left]
    exact List.prefix_append _ _

/-- No quote stands within a string literal. -/
theorem quote_not_mem_of_mem_ofSource (h : l ∈ ofSource s) (hkind : l.kind = .string) :
    '"' ∉ l.text.toList := by
  obtain ⟨⟨row, line⟩, -, hl⟩ := List.mem_flatMap.1 h
  have hform := form_of_mem_scan hl (by rw [hkind]; nofun) (by rw [hkind]; nofun)
  rw [hkind] at hform
  generalize l.text.toList = text at hform
  cases hform with
  | mark hmark =>
    unfold LexemeKind.ofMark? at hmark
    split at hmark <;> cases hmark
  | string hquote _ =>
    intro hmem
    exact hquote _ hmem rfl

end Lexeme

/-! ## Tokens -/

/-- A source shows what faults may quote of a token: numerals, literals and names. -/
def Token.Shown (s : Source) (t : Token) : Prop :=
  match t.kind with
  | .number _ => s.Shows t.pos t.text.toList
  | .string literal => '"' ∉ literal.toList ∧ s.Shows t.pos ('"' :: literal.toList ++ ['"'])
  | .declaration name | .identifier name | .reference name =>
    t.text = name ∧ s.Shows t.pos t.text.toList
  | _ => True

/-- The tokens and the end of a line have places in a source that show what they are. -/
structure Line.Anchored (s : Source) (l : Line) : Prop where
  place : ∀ t ∈ l.tokens, s.HasPlace t.pos
  shown : ∀ t ∈ l.tokens, t.Shown s
  finish : s.HasPlace l.finish

section Anchored

variable {s : Source} {l : Line}

theorem Token.Shown.quotes {t : Token} {limit : Nat} {cause : Cause} (h : t.Shown s)
    (hcause : t.Blamed limit cause) : cause.Quotes s t.pos := by
  rw [Shown] at h
  cases hcause with
  | number hkind _ =>
    rw [hkind] at h
    exact .inl h
  | character hkind hc _ =>
    rw [hkind] at h
    exact .inr ⟨_, _, rfl, hc, h.1, h.2⟩
  | constant hkind =>
    rw [hkind] at h
    exact h.1 ▸ h.2
  | label hkind =>
    rw [hkind] at h
    exact h.1 ▸ h.2
  | reserved hkind =>
    rw [hkind] at h
    exact h.1 ▸ h.2
  | reference hkind =>
    rw [hkind] at h
    exact h.1 ▸ h.2
  | _ => trivial

/-- What a line reports is found at a place of the source, and what is quoted stands there. -/
theorem Line.Anchored.quotes {pos : Position} {cause : Cause} (h : l.Anchored s)
    (hreports : l.Reports (.inSource pos cause)) : s.HasPlace pos ∧ cause.Quotes s pos := by
  have htoken : ∀ {limit t cause}, t ∈ l.tokens → t.Blamed limit cause →
      s.HasPlace t.pos ∧ cause.Quotes s t.pos :=
    fun ht hcause => ⟨h.place _ ht, (h.shown _ ht).quotes hcause⟩
  have hreported : ∀ {limit}, Reported limit l.finish l.tokens (.inSource pos cause) →
      s.HasPlace pos ∧ cause.Quotes s pos := by
    intro limit hreported
    cases hreported with
    | token ht hcause => exact htoken ht hcause
    | finish wanted => exact ⟨h.finish, trivial⟩
  rcases hreports with (hword | ⟨-, hbyte⟩) | ⟨hstatement, hrejects⟩
  · exact hreported hword
  · exact hreported hbyte
  · have hsubset := subset_tokens_of_statement hstatement
    cases hrejects with
    | wide ht hkind hlimit =>
      exact htoken (hsubset (List.mem_cons_of_mem _ ht)) (.number hkind hlimit)
    | refused hcause =>
      refine ⟨h.place _ (hsubset List.mem_cons_self), ?_⟩
      cases hcause <;> exact trivial

/-- A name that is a number is still the text of its token. -/
theorem Token.Shown.inline {t : Token} (h : t.Shown s) (constants : Constants) :
    ({ t with kind := constants.inlineKind t.kind } : Token).Shown s := by
  obtain ⟨kind, text, pos⟩ := t
  cases kind with
  | identifier name =>
    rw [Shown, Constants.inlineKind]
    cases constants.find? name with
    | none => exact h
    | some value => exact h.2
  | _ => exact h

theorem Token.Shown.bind {t : Token} (h : t.Shown s) (labels : Labels) :
    ({ t with kind := labels.bindKind t.kind } : Token).Shown s := by
  obtain ⟨kind, text, pos⟩ := t
  cases kind with
  | reference name =>
    rw [Shown, Labels.bindKind]
    cases labels.index? name with
    | none => exact h
    | some index => exact trivial
  | _ => exact h

theorem Line.Anchored.inline (h : l.Anchored s) (constants : Constants) :
    (constants.inline l).Anchored s where
  place := List.forall_mem_map.2 h.place
  shown := List.forall_mem_map.2 fun t ht => (h.shown t ht).inline constants
  finish := h.finish

theorem Line.Anchored.bind (h : l.Anchored s) (labels : Labels) : (labels.bind l).Anchored s where
  place := List.forall_mem_map.2 h.place
  shown := List.forall_mem_map.2 fun t ht => (h.shown t ht).bind labels
  finish := h.finish

theorem Line.Becomes.anchored {symbols : Symbols} {k : Line} (hk : l.Becomes symbols k)
    (h : l.Anchored s) : k.Anchored s := by
  cases hk with
  | read => exact h
  | inlined => exact h.inline _
  | bound => exact (h.inline _).bind _

end Anchored

/-! ## Lines -/

theorem exists_lexeme_of_mem_readRow {finish : Position} {lexemes : List Lexeme} {t : Token}
    (h : t ∈ (readRow finish lexemes).tokens) : ∃ l ∈ lexemes, l.token? = some t := by
  induction lexemes generalizing finish with
  | nil => cases h
  | cons l rest ih =>
    rw [readRow] at h
    have hrest : ∀ {finish}, t ∈ (readRow finish rest).tokens →
        ∃ m ∈ l :: rest, m.token? = some t := by
      intro finish h
      obtain ⟨m, hm, htoken⟩ := ih h
      exact ⟨m, List.mem_cons_of_mem _ hm, htoken⟩
    cases hcontribution : l.contribution with
    | token kind =>
      rw [hcontribution] at h
      rcases List.mem_cons.1 h with rfl | h
      · exact ⟨l, List.mem_cons_self, by rw [Lexeme.token?, hcontribution]⟩
      · exact hrest h
    | finish => rw [hcontribution] at h; exact hrest h
    | nothing => rw [hcontribution] at h; exact hrest h
    | fault cause => rw [hcontribution] at h; cases h

theorem finish_readRow (finish : Position) (lexemes : List Lexeme) :
    (readRow finish lexemes).finish = finish ∨
      ∃ l ∈ lexemes, (readRow finish lexemes).finish = l.pos := by
  induction lexemes generalizing finish with
  | nil => exact .inl rfl
  | cons l rest ih =>
    rw [readRow]
    have hrest : (readRow finish rest).finish = finish ∨
        ∃ m ∈ l :: rest, (readRow finish rest).finish = m.pos := by
      rcases ih finish with heq | ⟨m, hm, hpos⟩
      · exact .inl heq
      · exact .inr ⟨m, List.mem_cons_of_mem _ hm, hpos⟩
    cases l.contribution with
    | token kind => exact hrest
    | finish =>
      rcases ih l.pos with heq | ⟨m, hm, hpos⟩
      · exact .inr ⟨l, List.mem_cons_self, heq⟩
      · exact .inr ⟨m, List.mem_cons_of_mem _ hm, hpos⟩
    | nothing => exact hrest
    | fault cause => exact .inl rfl

section Sources

variable {s : Source}

/-- A source shows a token where it shows the lexeme of the token. -/
theorem Lexeme.Reads.shown {l : Lexeme} {t : Token} (h : l.Reads t) (hl : l ∈ Lexeme.ofSource s) :
    t.Shown s := by
  obtain ⟨kind, text, pos⟩ := t
  obtain ⟨hspells, rfl, rfl⟩ := h
  obtain ⟨-, hshows⟩ := place_of_mem_ofSource hl
  rw [spelling] at hshows
  cases kind with
  | number n =>
    obtain ⟨hnumeral, -⟩ := hspells
    show s.Shows l.pos l.text.toList
    cases hkind : l.kind <;> simp [isNumeral, hkind] at hnumeral <;>
      · rw [hkind] at hshows
        exact hshows
  | string literal =>
    obtain ⟨hkind, rfl⟩ := hspells
    rw [hkind] at hshows
    exact ⟨quote_not_mem_of_mem_ofSource hl hkind, hshows⟩
  | declaration name =>
    -- The colon stands behind the name.
    obtain ⟨hkind, rfl⟩ := hspells
    rw [hkind] at hshows
    exact ⟨rfl, hshows.of_append⟩
  | identifier name =>
    obtain ⟨hname, rfl⟩ := hspells
    rw [Lexeme.kind_of_isName hname] at hshows
    exact ⟨rfl, hshows⟩
  | reference name => exact hspells.elim
  | _ => exact trivial

theorem Line.anchored_of_mem_ofLexemes {l : Line} (h : l ∈ Line.ofLexemes (Lexeme.ofSource s)) :
    l.Anchored s := by
  obtain ⟨row, hrow, hl⟩ := List.mem_filterMap.1 h
  have hsource : ∀ w ∈ row, w ∈ Lexeme.ofSource s := fun w => Lexeme.mem_of_mem_rows hrow
  rw [ofRow?, Option.ite_none_left_eq_some] at hl
  obtain ⟨htokens, hl⟩ := hl
  cases hl
  have hreads : ∀ t ∈ (reading row).2.tokens, ∃ w ∈ row, w.Reads t := by
    intro t ht
    obtain ⟨w, hw, htoken⟩ := exists_lexeme_of_mem_readRow ht
    exact ⟨w, hw, Lexeme.token?_eq_some_iff_reads.1 htoken⟩
  refine ⟨?_, ?_, ?_⟩
  · intro t ht
    obtain ⟨w, hw, hread⟩ := hreads t ht
    rw [← hread.pos]
    exact (Lexeme.place_of_mem_ofSource (hsource w hw)).1
  · intro t ht
    obtain ⟨w, hw, hread⟩ := hreads t ht
    exact hread.shown (hsource w hw)
  · cases row with
    | nil => exact absurd rfl htokens
    | cons w rest =>
      show s.HasPlace (readRow ⟨w.pos.row, 1⟩ (w :: rest)).finish
      -- The row says where it finishes, unless it is cut off before.
      rcases finish_readRow ⟨w.pos.row, 1⟩ (w :: rest) with hfirst | ⟨v, hv, hpos⟩
      · rw [hfirst]
        exact (Lexeme.place_of_mem_ofSource (hsource w List.mem_cons_self)).1.first
      · rw [hpos]
        exact (Lexeme.place_of_mem_ofSource (hsource v hv)).1

/-! ## Records -/

theorem RowRecords.exists_word {symbols : Symbols} {row : List Lexeme} {chunk : List Record}
    (h : RowRecords symbols row chunk) : ∀ r ∈ chunk, ∃ word ∈ row, r.pos = word.pos := by
  cases h with
  | definition hrow => exact List.forall_mem_nil _
  | declaration hlabel hindex =>
    exact List.forall_mem_singleton.2 ⟨_, List.mem_cons_self, rfl⟩
  | statement hitem =>
    exact List.forall_mem_singleton.2 ⟨_, List.mem_cons_self, rfl⟩
  | labelled hlabel hindex hitem =>
    refine List.forall_mem_cons.2 ⟨⟨_, List.mem_cons_self, rfl⟩, List.forall_mem_singleton.2 ?_⟩
    exact ⟨_, List.mem_cons_of_mem _ List.mem_cons_self, rfl⟩

/-- A record has the place of a lexeme. -/
theorem place_of_mem_records {records : List Record}
    (h : (Program.resolve {} (Lexeme.ofSource s)).outcome = .ok records) :
    ∀ r ∈ records, s.HasPlace r.pos := by
  obtain ⟨-, -, chunks, hchunks, rfl⟩ := wellFormed_and_exists_chunks h
  intro r hr
  obtain ⟨chunk, hchunk, hr⟩ := List.mem_flatten.1 hr
  obtain ⟨row, hrow, hrecords⟩ := exists_of_mem_left hchunks.flip hchunk
  obtain ⟨word, hword, hpos⟩ := RowRecords.exists_word hrecords r hr
  obtain ⟨whole, hwhole, rfl⟩ := List.mem_map.1 (List.mem_of_mem_filter hrow)
  rw [hpos]
  apply (Lexeme.place_of_mem_ofSource _).1
  exact Lexeme.mem_of_mem_rows hwhole (List.mem_of_mem_filter hword)

/-! ## Faults -/

/-- A lexeme that cannot be read is quoted where it stands. -/
theorem Lexeme.quotes_of_contribution {l : Lexeme} {cause : Cause} (hl : l ∈ Lexeme.ofSource s)
    (h : l.contribution = .fault cause) : s.HasPlace l.pos ∧ cause.Quotes s l.pos := by
  obtain ⟨hplace, hshows⟩ := place_of_mem_ofSource hl
  refine ⟨hplace, ?_⟩
  rw [spelling] at hshows
  rcases cases_of_contribution_eq_fault h with ⟨hkind, rfl⟩ | ⟨hkind, rfl⟩
  · rw [hkind] at hshows
    simpa [Cause.Quotes, LexemeKind.spelling] using hshows
  · rw [hkind] at hshows
    exact hshows

end Sources

/-- A fault in the source is at a place of a row that is not blank, and what it quotes stands
there. -/
theorem faults_point_at_their_text (s : Source) (origin : UInt16) {faults : List Fault}
    (h : assemble s origin = .error faults) :
    ∀ pos cause, .inSource pos cause ∈ faults → s.HasPlace pos ∧ cause.Quotes s pos := by
  intro pos cause hf
  rcases stage_of_assemble_eq_error h with
    hlexical | ⟨lexemes, hlexemes, hsemantic | ⟨records, houtcome, hlink⟩⟩
  · obtain ⟨l, hl, _, hcause, heq⟩ := Source.exists_lexeme_of_lexemes hlexical _ hf
    cases heq
    exact Lexeme.quotes_of_contribution hl hcause
  · obtain rfl := Source.lexemes_eq hlexemes
    rcases Program.reported_of_outcome hsemantic _ hf with hreading | ⟨l, hl, k, hk, hreports⟩
    · obtain ⟨w, hw, _, hcause, heq⟩ := Line.exists_lexeme_of_mem_readingFaults hreading
      cases heq
      exact Lexeme.quotes_of_contribution hw hcause
    · exact (hk.anchored (Line.anchored_of_mem_ofLexemes hl)).quotes hreports
  · -- Link faults quote nothing of the place that they are found at.
    obtain rfl := Source.lexemes_eq hlexemes
    obtain ⟨-, rfl⟩ := (link_eq_error_iff (operandFits_of_outcome houtcome)).1 hlink
    rcases blamed_or_unresolvedLabel ((Fault.sorted_perm _).mem_iff.1 hf) with
      ⟨p, hp, _, hblamed, heq⟩ | ⟨index, heq⟩
    · cases heq
      have hrecord : p.record ∈ records := by
        rw [← map_record_counted origin.toNat records]
        exact List.mem_map_of_mem hp
      refine ⟨place_of_mem_records houtcome _ hrecord, ?_⟩
      cases hblamed with
      | overflow => exact trivial
      | reach label displacement => exact trivial
    · cases heq

/-- Faults in a string, in a number, in a declaration and in a reference. -/
def strayTexts : Source where
  name := "stray.s"
  rows := ["  .byte \"a€\", $1FF", "", "A: JMP nowhere ; far"]

/-- The faults of `strayTexts`. -/
def strayTextFaults : List Fault :=
  [.inSource ⟨1, 9⟩ (.constantOverflow "€" 255), .inSource ⟨1, 15⟩ (.constantOverflow "$1FF" 255),
    .inSource ⟨3, 1⟩ (.reservedLabel "A"), .inSource ⟨3, 8⟩ (.undefinedLabel "nowhere")]

theorem assemble_strayTexts : assemble strayTexts 0x0600 = .error strayTextFaults := by
  have hlexemes : strayTexts.lexemes = .ok (Lexeme.ofSource strayTexts) := by decide +kernel
  have hbound : Program.faultsOf (Program.bind {} (Lexeme.ofSource strayTexts)).remarks =
      strayTextFaults := by
    decide +kernel
  have hsorted : Fault.sorted strayTextFaults = strayTextFaults :=
    List.mergeSort_of_pairwise (by decide)
  have houtcome : (Program.resolve {} (Lexeme.ofSource strayTexts)).outcome =
      .error (Fault.sorted strayTextFaults) := by
    simp only [Program.resolve, hbound]
    rfl
  rw [hsorted] at houtcome
  exact assemble_eq_error 0x0600 hlexemes houtcome

/-- The character that is too large stands in the literal at its place, and the name that is no
label at the place itself. -/
theorem strayTexts_shows_quoted :
    assemble strayTexts 0x0600 = .error strayTextFaults ∧
      (strayTexts.HasPlace ⟨1, 9⟩ ∧ Cause.Quotes strayTexts ⟨1, 9⟩ (.constantOverflow "€" 255)) ∧
      strayTexts.HasPlace ⟨3, 8⟩ ∧ strayTexts.Shows ⟨3, 8⟩ "nowhere".toList := by
  have hquotes := faults_point_at_their_text strayTexts 0x0600 assemble_strayTexts
  exact ⟨assemble_strayTexts, hquotes _ _ (by decide),
    hquotes ⟨3, 8⟩ (.undefinedLabel "nowhere") (by decide)⟩

end Assembler65
