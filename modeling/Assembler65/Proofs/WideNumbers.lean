import Assembler65.Proofs.NumeralSyntax
import Assembler65.Proofs.RangeFaults

/-!
# Numbers that are too large

Whatever else is wrong with a source, a number is reported as too large at most once, and a numeral
beyond a word is reported exactly once wherever numbers are looked at at all: behind a definition's
name, and in all other rows up to an unknown directive. Main statement:
`wide_numbers_reported_once`.
-/

set_option autoImplicit false

namespace Assembler65

open Fault (overflowsAt)

/-! ## Places of tokens -/

theorem Lexeme.nodup_pos_ofSource (s : Source) : ((ofSource s).map Lexeme.pos).Nodup := by
  rw [List.Nodup, List.pairwise_map]
  apply (pairwise_ofSource s).imp
  intro l m hlt heq
  rw [heq] at hlt
  exact lt_irrefl _ hlt

theorem RowReads.map_pos {row : List Lexeme} {l : Line} (h : RowReads row l) :
    l.tokens.map Token.pos = row.map Lexeme.pos := by
  have hpos : List.Forall₂ Eq (row.map Lexeme.pos) (l.tokens.map Token.pos) := by
    rw [List.forall₂_map_left_iff, List.forall₂_map_right_iff]
    exact h.reads.imp fun _ _ hreads => hreads.pos
  rw [List.forall₂_eq_eq_eq] at hpos
  exact hpos.symm

theorem Constants.map_pos_inline (constants : Constants) (l : Line) :
    (constants.inline l).tokens.map Token.pos = l.tokens.map Token.pos := by
  rw [inline, List.map_map]
  rfl

namespace Source

variable {s : Source} {l : Line} {row : List Lexeme} {word : Lexeme}

theorem sublist_of_mem_readableRows (h : row ∈ Lexeme.readableRows (Lexeme.ofSource s)) :
    row.Sublist (Lexeme.ofSource s) := by
  obtain ⟨whole, hwhole, rfl⟩ := List.mem_map.1 (List.mem_of_mem_filter h)
  have hflatten := List.sublist_flatten_of_mem hwhole
  rw [Lexeme.rows, List.flatten_splitBy] at hflatten
  exact (List.takeWhile_sublist _).trans
    (List.filter_sublist.trans (hflatten.trans List.filter_sublist))

/-- No two tokens of a line share a place. -/
theorem nodup_pos_inline (hrow : row ∈ Lexeme.readableRows (Lexeme.ofSource s))
    (h : RowReads row l) (constants : Constants) :
    ((constants.inline l).tokens.map Token.pos).Nodup := by
  rw [Constants.map_pos_inline, h.map_pos]
  exact (Lexeme.nodup_pos_ofSource s).sublist ((sublist_of_mem_readableRows hrow).map _)

/-- A word that is no string has no string at its place. -/
theorem kind_ne_string_of_pos_eq (hrow : row ∈ Lexeme.readableRows (Lexeme.ofSource s))
    (h : RowReads row l) {constants : Constants} {t : Token}
    (ht : t ∈ (constants.inline l).tokens) (hword : word ∈ Lexeme.ofSource s)
    (hpos : t.pos = word.pos) (hstring : word.kind ≠ .string) : ∀ text, t.kind ≠ .string text := by
  intro text hkind
  obtain ⟨other, hother, hinlines⟩ : ∃ other ∈ row, Inlines constants other t :=
    exists_of_mem_left (h.tokens_inline constants).flip ht
  have hmem := (sublist_of_mem_readableRows hrow).subset hother
  have hsame : other = word :=
    List.inj_on_of_nodup_map (Lexeme.nodup_pos_ofSource s) hmem hword (hinlines.pos.trans hpos)
  have hspells : other.kind = .string ∧ other.text = text := hinlines.spells hkind rfl
  rw [hsame] at hspells
  exact hstring hspells.1

/-! ## At most one fault -/

theorem length_overflowsAt_lineFaults_le (hl : l ∈ Line.ofLexemes (Lexeme.ofSource s))
    (hnumber : l.row = word.pos.row) (hword : word ∈ Lexeme.ofSource s)
    (hstring : word.kind ≠ .string) : (overflowsAt word.pos s.lineFaults).length ≤ 1 := by
  rw [overflowsAt_lineFaults hl hnumber, Line.overflows]
  split
  case isTrue =>
    -- A definition looks at one number only.
    refine Nat.le_trans ?_ (Constants.length_about_range_collectStep_le {} l)
    exact (List.filter_sublist.trans List.filter_sublist).length_le
  case isFalse =>
    obtain ⟨row, hrow, hreads⟩ : ∃ row ∈ Lexeme.readableRows (Lexeme.ofSource s), RowReads row l :=
      exists_of_mem_left (forall₂_readableRows (Lexeme.ofSource s)).flip hl
    have hnodup := nodup_pos_inline hrow hreads s.symbols.constants
    -- All faults of values are at tokens, and at most one token has the place of the word.
    by_cases htoken : ∃ t ∈ (s.symbols.constants.inline l).tokens, t.pos = word.pos
    · obtain ⟨t, ht, hpos⟩ := htoken
      have hkind := kind_ne_string_of_pos_eq hrow hreads ht hword hpos hstring
      obtain ⟨limit, data, hdata, heq⟩ := Line.exists_overflowsAt_valueFaults hnodup ht
      rw [← hpos, heq]
      refine Nat.le_trans ?_ (t.length_wideFault?_append_le hkind limit)
      exact ((List.Sublist.refl _).append hdata).length_le
    · have hnil : overflowsAt word.pos (s.symbols.constants.inline l).valueFaults = [] := by
        apply List.eq_nil_iff_forall_not_mem.2
        intro f hf
        obtain ⟨hmem, hrange, hposition⟩ := Fault.mem_overflowsAt.1 hf
        obtain ⟨t, ht, hplace⟩ := (Line.reports_of_mem_valueFaults hmem).exists_token hrange
        rw [hposition] at hplace
        exact htoken ⟨t, ht, (Option.some.inj hplace).symm⟩
      rw [hnil]
      exact Nat.zero_le 1

theorem length_overflowsAt_resolve_le (hword : word ∈ Lexeme.ofSource s)
    (hstring : word.kind ≠ .string) :
    (overflowsAt word.pos (Program.resolve {} (Lexeme.ofSource s)).faults).length ≤ 1 := by
  by_cases hline : ∃ l ∈ Line.ofLexemes (Lexeme.ofSource s), l.row = word.pos.row
  · obtain ⟨l, hl, hnumber⟩ := hline
    rw [faults_resolve, Fault.overflowsAt_sorted]
    split
    case isTrue => exact length_overflowsAt_recordFaults_le hl hnumber
    case isFalse => exact length_overflowsAt_lineFaults_le hl hnumber hword hstring
  · have hnil : overflowsAt word.pos (Program.resolve {} (Lexeme.ofSource s)).faults = [] := by
      apply List.eq_nil_iff_forall_not_mem.2
      intro f hf
      exact hline (exists_line_of_mem_overflowsAt hf)
    rw [hnil]
    exact Nat.zero_le 1

/-! ## Exactly one fault -/

/-- A numeral that is looked at: an operand behind known directives only, in a row that is no
definition, or the number of a definition behind its name. -/
inductive Examines (s : Source) (word : Lexeme) : Prop
  | operand {before after : List Lexeme} (hrow : before ++ word :: after ∈ s.words)
      (hdefinition : startsDefinition (before ++ word :: after) = false)
      (hknown : ∀ other ∈ before, other.isUnknownDirective = false)
  | defined {directive name : Lexeme} {after : List Lexeme}
      (hrow : directive :: name :: word :: after ∈ s.words)
      (hdirective : directive.asDirective? = some .define) (hname : name.isName = true)

theorem exists_of_mem_words (h : row ∈ s.words) :
    ∃ whole ∈ Lexeme.rows (Lexeme.ofSource s), whole.filter Lexeme.isWord = row := by
  rw [← wordRows_ofSource] at h
  exact List.mem_map.1 (List.mem_of_mem_filter h)

/-- A row with readable words has a line. -/
theorem exists_line_of_mem_words (h : row ∈ s.words) (hword : word ∈ readableWords row) :
    readableWords row ∈ Lexeme.readableRows (Lexeme.ofSource s) ∧
      ∃ l ∈ Line.ofLexemes (Lexeme.ofSource s), RowReads (readableWords row) l := by
  obtain ⟨whole, hwhole, rfl⟩ := exists_of_mem_words h
  have hmem : readableWords (whole.filter Lexeme.isWord) ∈
      Lexeme.readableRows (Lexeme.ofSource s) := by
    refine List.mem_filter.2 ⟨List.mem_map.2 ⟨whole, hwhole, rfl⟩, ?_⟩
    rw [Bool.not_eq_true', List.isEmpty_eq_false_iff]
    exact List.ne_nil_of_mem hword
  exact ⟨hmem, exists_of_mem_left (forall₂_readableRows (Lexeme.ofSource s)) hmem⟩

theorem mem_ofSource_of_mem_words (h : row ∈ s.words) (hword : word ∈ row) :
    word ∈ Lexeme.ofSource s ∧ word.isWord = true := by
  obtain ⟨whole, hwhole, rfl⟩ := exists_of_mem_words h
  obtain ⟨hmem, hisWord⟩ := List.mem_filter.1 hword
  exact ⟨Lexeme.mem_of_mem_rows hwhole hmem, hisWord⟩

end Source

/-- A word that a rule reads and that is no unknown directive has a token. -/
theorem Lexeme.isSome_token?_of_known {word : Lexeme} (hword : word.isWord = true)
    (hkind : word.kind ≠ .unexpected) (hknown : word.isUnknownDirective = false) :
    word.token?.isSome = true := by
  rw [isWord_eq] at hword
  cases hc : word.contribution with
  | token kind => rw [token?, hc]; rfl
  | finish => rw [hc] at hword; cases hword
  | nothing => rw [hc] at hword; cases hword
  | fault cause =>
    rw [(exists_fault_iff hkind).1 ⟨cause, hc⟩] at hknown
    cases hknown

/-- The tokens of the words behind a directive. -/
theorem RowReads.exists_tokens_behind {directive name word : Lexeme} {after : List Lexeme}
    {l : Line} (h : RowReads (directive :: name :: word :: after) l) :
    ∃ nameToken t rest, l.tokens.drop 1 = nameToken :: t :: rest ∧ l.tokens.drop 2 = t :: rest ∧
      name.Reads nameToken ∧ word.Reads t := by
  have hreads := h.reads
  generalize l.tokens = tokens at hreads
  rcases hreads with _ | @⟨_, _, _, _, _, _ | @⟨_, nameToken, _, _, hnameToken, _ |
    @⟨_, t, _, rest, ht, _⟩⟩⟩
  exact ⟨nameToken, t, rest, rfl, rfl, hnameToken, ht⟩

/-- A number beyond a word is reported for a word, and nothing else is reported at its place. -/
theorem overflowsAt_valueFaults_of_wide {l : Line} (hnodup : (l.tokens.map Token.pos).Nodup)
    {t : Token} (ht : t ∈ l.tokens) {n : Nat} (hkind : t.kind = .number n)
    (hwide : Numeral.wordLimit < n) :
    overflowsAt t.pos l.valueFaults =
      [.inSource t.pos (.constantOverflow t.text Numeral.wordLimit)] := by
  obtain ⟨limit, data, hdata, heq⟩ := Line.exists_overflowsAt_valueFaults hnodup ht
  rw [Token.dataFaults_of_number hkind hwide, List.sublist_nil] at hdata
  rw [heq, hdata, Token.wideFault?_of_number hkind hwide]
  rfl

namespace Source

variable {s : Source} {lexemes : List Lexeme} {word : Lexeme}

/-- An operand beyond a word is reported once. -/
theorem overflowsAt_of_operand (h : s.lexemes = .ok lexemes) {before after : List Lexeme}
    (hrow : before ++ word :: after ∈ s.words)
    (hdefinition : startsDefinition (before ++ word :: after) = false)
    (hknown : ∀ other ∈ before, other.isUnknownDirective = false) {n : Nat}
    (hspells : word.Spells (.number n)) (hwide : Numeral.wordLimit < n) :
    overflowsAt word.pos s.lineFaults =
      [.inSource word.pos (.constantOverflow word.text Numeral.wordLimit)] := by
  -- The row can be read up to the word and beyond.
  have hreadable : readableWords (before ++ word :: after) =
      before ++ word :: readableWords after := by
    rw [readableWords_append, readableWords_cons_of_isSome hspells.isSome_token?]
    intro other hother
    obtain ⟨hmem, hword⟩ := mem_ofSource_of_mem_words hrow (List.mem_append_left _ hother)
    rw [← lexemes_eq h] at hmem
    exact Lexeme.isSome_token?_of_known hword (kind_ne_unexpected h hmem) (hknown other hother)
  have hword : word ∈ readableWords (before ++ word :: after) := by
    rw [hreadable]
    exact List.mem_append_right _ List.mem_cons_self
  obtain ⟨hmem, l, hl, hreads⟩ := exists_line_of_mem_words hrow hword
  have hplain : l.isDefinition = false := by
    rw [hreads.isDefinition_eq, hreadable, ← hdefinition]
    cases before with
    | nil => rfl
    | cons first rest => rfl
  obtain ⟨t, ht, hinlines⟩ := exists_of_mem_left (hreads.tokens_inline s.symbols.constants) hword
  have hnodup := nodup_pos_inline hmem hreads s.symbols.constants
  rw [overflowsAt_lineFaults hl (hreads.row word hword).symm, Line.overflows, hplain,
    if_neg Bool.false_ne_true, hinlines.pos, hinlines.text]
  exact overflowsAt_valueFaults_of_wide hnodup ht (hinlines.kind_eq hspells rfl) hwide

/-- A number beyond a word that is given a name is reported once. -/
theorem overflowsAt_of_defined {directive name : Lexeme} {after : List Lexeme}
    (hrow : directive :: name :: word :: after ∈ s.words)
    (hdirective : directive.asDirective? = some .define) (hname : name.isName = true) {n : Nat}
    (hspells : word.Spells (.number n)) (hwide : Numeral.wordLimit < n) :
    overflowsAt word.pos s.lineFaults =
      [.inSource word.pos (.constantOverflow word.text Numeral.wordLimit)] := by
  have hfirst : directive.Spells (.directive .define) := hdirective
  have hsecond : name.Spells (.identifier name.text) := ⟨hname, rfl⟩
  have hreadable : readableWords (directive :: name :: word :: after) =
      directive :: name :: word :: readableWords after := by
    rw [readableWords_cons_of_isSome hfirst.isSome_token?,
      readableWords_cons_of_isSome hsecond.isSome_token?,
      readableWords_cons_of_isSome hspells.isSome_token?]
  have hword : word ∈ readableWords (directive :: name :: word :: after) := by
    rw [hreadable]
    exact List.mem_cons_of_mem _ (List.mem_cons_of_mem _ List.mem_cons_self)
  obtain ⟨-, l, hl, hreads⟩ := exists_line_of_mem_words hrow hword
  have hnumber := hreads.row word hword
  rw [hreadable] at hreads
  have hdefinition : l.isDefinition = true := by
    rw [hreads.isDefinition_eq]
    exact beq_iff_eq.2 hdirective
  obtain ⟨nameToken, t, rest, htokens, hdrop, hnameToken, ht⟩ := hreads.exists_tokens_behind
  have hvalue := Line.definedValue_of_wide hdrop (ht.kind_eq_iff.2 hspells) hwide
  rw [overflowsAt_lineFaults hl hnumber.symm, Line.overflows, if_pos hdefinition,
    Constants.collectStep, if_pos hdefinition,
    Constants.about_range_define htokens (hnameToken.kind_eq_iff.2 hsecond), hvalue, ht.pos,
    ht.text]
  apply Fault.overflowsAt_eq_self
  exact List.forall_mem_singleton.2 ⟨rfl, rfl⟩

namespace Examines

theorem mem_ofSource (h : s.Examines word) : word ∈ Lexeme.ofSource s := by
  cases h with
  | operand hrow =>
    exact (mem_ofSource_of_mem_words hrow (List.mem_append_right _ List.mem_cons_self)).1
  | defined hrow =>
    apply (mem_ofSource_of_mem_words hrow _).1
    exact List.mem_cons_of_mem _ (List.mem_cons_of_mem _ List.mem_cons_self)

/-- The numerals of a source have numbers. -/
theorem exists_form (h : s.Examines word) (hnumeral : word.isNumeral = true) :
    ∃ v, Numeral.Form word.kind word.text.toList v := by
  obtain ⟨⟨row, line⟩, -, hscan⟩ := List.mem_flatMap.1 h.mem_ofSource
  have hkind := Numeral.isNumeral_iff.1 hnumeral
  exact ⟨_, Numeral.form_of_lexemeForm hkind (Numeral.lexemeForm_of_mem_scan hscan hkind)⟩

theorem overflowsAt_resolve (h : s.Examines word) (hlexemes : s.lexemes = .ok lexemes)
    (hnumeral : word.isNumeral = true) {v : Nat}
    (hform : Numeral.Form word.kind word.text.toList v) (hwide : Numeral.wordLimit < v) :
    overflowsAt word.pos (Program.resolve {} (Lexeme.ofSource s)).faults =
      [.inSource word.pos (.constantOverflow word.text Numeral.wordLimit)] := by
  -- A numeral may be too large to have a value, but not without being too large for a word.
  have hspells : word.Spells (.number ((Numeral.parse? word.text).getD hugeNumber)) :=
    ⟨hnumeral, rfl⟩
  have hlimit := (Numeral.wordLimit_lt_iff hform).2 hwide
  have hfound : overflowsAt word.pos s.lineFaults =
      [.inSource word.pos (.constantOverflow word.text Numeral.wordLimit)] := by
    cases h with
    | operand hrow hdefinition hknown =>
      exact overflowsAt_of_operand hlexemes hrow hdefinition hknown hspells hlimit
    | defined hrow hdirective hname =>
      exact overflowsAt_of_defined hrow hdirective hname hspells hlimit
  have hne : s.lineFaults ≠ [] := by
    intro hnil
    rw [hnil] at hfound
    cases hfound
  rw [faults_resolve, if_neg hne, Fault.overflowsAt_sorted, hfound]

end Examines

end Source

/-- At the place of a word that is no string at most one value is reported as too large. A numeral
that is looked at has a number, and if this does not fit into a word, exactly that is reported. -/
theorem wide_numbers_reported_once (s : Source) {lexemes : List Lexeme}
    (h : s.lexemes = .ok lexemes) :
    (∀ word ∈ lexemes, word.kind ≠ .string →
        (overflowsAt word.pos (Program.resolve {} lexemes).faults).length ≤ 1) ∧
      ∀ word, s.Examines word → word.isNumeral = true →
        (∃ v, Numeral.Form word.kind word.text.toList v) ∧
          ∀ v, Numeral.Form word.kind word.text.toList v → Numeral.wordLimit < v →
            overflowsAt word.pos (Program.resolve {} lexemes).faults =
              [.inSource word.pos (.constantOverflow word.text Numeral.wordLimit)] := by
  rw [Source.lexemes_eq h]
  constructor
  · intro word hword hstring
    exact Source.length_overflowsAt_resolve_le hword hstring
  · intro word hexamined hnumeral
    refine ⟨hexamined.exists_form hnumeral, ?_⟩
    intro v hform hwide
    exact hexamined.overflowsAt_resolve h hnumeral hform hwide

/-- Numbers beyond a word and beyond a byte, in a definition, in lists and in an operation. -/
def wideNumbers : Source where
  name := "wide.s"
  rows := [".define BIG $12345", ".define PAGE $200", ".byte PAGE, 99999999999", "LDA $10000,X"]

theorem wideNumbers_reported_once :
    wideNumbers.Examines ⟨.hexadecimal, "$12345", ⟨1, 13⟩⟩ ∧
      wideNumbers.Examines ⟨.decimal, "99999999999", ⟨3, 13⟩⟩ ∧
      ∃ lexemes, wideNumbers.lexemes = .ok lexemes ∧
        overflowsAt ⟨1, 13⟩ (Program.resolve {} lexemes).faults =
          [.inSource ⟨1, 13⟩ (.constantOverflow "$12345" 0xFFFF)] ∧
        overflowsAt ⟨3, 13⟩ (Program.resolve {} lexemes).faults =
          [.inSource ⟨3, 13⟩ (.constantOverflow "99999999999" 0xFFFF)] ∧
        .inSource ⟨3, 7⟩ (.constantOverflow "PAGE" 0xFF) ∈ (Program.resolve {} lexemes).faults ∧
        (overflowsAt ⟨3, 7⟩ (Program.resolve {} lexemes).faults).length ≤ 1 := by
  have hlexemes : wideNumbers.lexemes = .ok (Lexeme.ofSource wideNumbers) := by decide +kernel
  have hfirst : [⟨.directive, "define", ⟨1, 1⟩⟩, ⟨.identifier, "BIG", ⟨1, 9⟩⟩,
      ⟨.hexadecimal, "$12345", ⟨1, 13⟩⟩] ∈ wideNumbers.words := by
    decide +kernel
  have hthird : [⟨.directive, "byte", ⟨3, 1⟩⟩, ⟨.identifier, "PAGE", ⟨3, 7⟩⟩,
      ⟨.comma, ",", ⟨3, 11⟩⟩] ++ [⟨.decimal, "99999999999", ⟨3, 13⟩⟩] ∈ wideNumbers.words := by
    decide +kernel
  have hdefined : wideNumbers.Examines ⟨.hexadecimal, "$12345", ⟨1, 13⟩⟩ :=
    .defined hfirst (by decide +kernel) (by decide +kernel)
  have helement : wideNumbers.Examines ⟨.decimal, "99999999999", ⟨3, 13⟩⟩ :=
    .operand hthird (by decide +kernel) (by decide +kernel)
  have hhexadecimal : Numeral.Form .hexadecimal "$12345".toList 0x12345 :=
    .hexadecimal (by decide)
      ((Numeral.writes_iff (by decide)).2 ⟨List.all_eq_true.1 (by decide), by decide⟩)
  have hdecimal : Numeral.Form .decimal "99999999999".toList 99999999999 :=
    .decimal (by decide)
      ((Numeral.writes_iff (by decide)).2 ⟨List.all_eq_true.1 (by decide), by decide⟩)
  have hpage : .inSource ⟨3, 7⟩ (.constantOverflow "PAGE" 0xFF) ∈ wideNumbers.lineFaults := by
    decide +kernel
  obtain ⟨hone, hwide⟩ := wide_numbers_reported_once wideNumbers hlexemes
  refine ⟨hdefined, helement, _, hlexemes, ?_, ?_, Source.mem_faults_resolve _ hpage, ?_⟩
  · exact (hwide _ hdefined rfl).2 _ hhexadecimal (by decide)
  · exact (hwide _ helement rfl).2 _ hdecimal (by decide)
  · exact hone ⟨.identifier, "PAGE", ⟨3, 7⟩⟩ (by decide +kernel) (by decide)

end Assembler65
