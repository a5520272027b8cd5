import Assembler65.Proofs.FaultSubjects

/-!
# Names that come again

Names are entered into a table row by row, and a name that is there already is refused. What counts
is the first row with the name: it is the one in the table, however many follow.

`Enters` says what a step does that enters one name for each row, `Knows` that a table holds the
first of each name. One row keeps this and reports its name if it was known before
(`Enters.knows_step`); so all the rows of a source do (`Enters.collect_source`).
-/

set_option autoImplicit false

namespace Assembler65

open Fault (about)

/-- Whether a word has the letters of a name, small or capital. -/
def Lexeme.hasName (name : String) (word : Lexeme) : Bool :=
  word.text.toList.map Char.toLower == name.toList.map Char.toLower

/-- The fault of a word whose name stands in an earlier row, given the first word that has it. -/
def repeatFault? (blame : Lexeme → Lexeme → Fault) (names : List Lexeme) (word : Lexeme) :
    Option Fault :=
  (names.find? (Lexeme.hasName word.text)).bind fun first =>
    if first.pos.row < word.pos.row then some (blame word first) else none

/-- The words of a row stand before those of the next. -/
theorem Source.pairwise_words (s : Source) :
    s.words.Pairwise fun row next => ∀ word ∈ row, ∀ other ∈ next,
      word.pos.row < other.pos.row := by
  rw [words]
  apply List.Pairwise.filter
  rw [List.pairwise_map]
  apply s.pairwise_content.imp
  rintro ⟨row, line⟩ ⟨next, other⟩ hlt word hword after hafter
  rw [Lexeme.row_of_mem_scan (List.mem_of_mem_filter hword),
    Lexeme.row_of_mem_scan (List.mem_of_mem_filter hafter)]
  exact hlt

/-! ## Names that come again -/

namespace Lexeme

variable {name : String} {word : Lexeme}

/-- Words with a name are those that a table keeps under it. -/
theorem hasName_iff :
    word.hasName name = true ↔ SymbolTable.key word.text = SymbolTable.key name := by
  have hletters : ∀ text : String, (SymbolTable.key text).toList = text.toList.map Char.toLower :=
    fun _ => String.toList_ofList
  rw [hasName, beq_iff_eq, ← String.toList_inj, hletters, hletters]

theorem hasName_congr (h : word.hasName name = true) : hasName word.text = hasName name := by
  have hletters := beq_iff_eq.1 h
  funext other
  rw [hasName, hasName, hletters]

end Lexeme

section Repeats

variable {blame : Lexeme → Lexeme → Fault} {names before rest : List Lexeme} {word : Lexeme}

/-- Of the names up to a word only those before it count. -/
theorem repeatFault?_append (h : ∀ first ∈ before, first.pos.row < word.pos.row) :
    repeatFault? blame (before ++ word :: rest) word =
      (before.find? (Lexeme.hasName word.text)).map (blame word) := by
  have hself : word.hasName word.text = true := beq_self_eq_true _
  rw [repeatFault?, List.find?_append, List.find?_cons_of_pos hself]
  cases hfind : before.find? (Lexeme.hasName word.text) with
  | none => simp
  | some first => simp [h first (List.mem_of_find?_eq_some hfind)]

/-- Where rows ascend, the faults of names stand in reading order. -/
theorem pairwise_filterMap_repeatFault?
    (hblame : ∀ word first, (blame word first).position? = some word.pos)
    (hnames : names.Pairwise fun word next => word.pos.row < next.pos.row) :
    (names.filterMap (repeatFault? blame names)).Pairwise fun f g => f.le g := by
  have hposition : ∀ word f, repeatFault? blame names word = some f →
      f.position? = some word.pos := by
    intro word f hf
    obtain ⟨first, -, hf⟩ := Option.bind_eq_some_iff.1 hf
    rw [Option.ite_none_right_eq_some] at hf
    rw [← Option.some.inj hf.2]
    exact hblame word first
  refine hnames.filterMap _ ?_
  intro word next hlt f hf g hg
  simp [Fault.le, hposition word f hf, hposition next g hg, Position.le, hlt]

end Repeats

/-! ## Names that are entered -/

section Entering

variable {α : Type} {step : SymbolTable α → Line → SymbolTable α × List Fault} {subject : Subject}
  {name? : List Lexeme → Option Lexeme} {Holds : Lexeme → α → Prop}
  {blame : Lexeme → Lexeme → Fault} {row : List Lexeme} {l : Line} {table : SymbolTable α}
  {before : List Lexeme}

/-- A step that enters the name of a row into the table, with a value that the word `Holds`. A name
that is there already is refused with one fault about the subject. The name is a word of the row and
found in the part that can be read. -/
structure Enters (step : SymbolTable α → Line → SymbolTable α × List Fault) (subject : Subject)
    (name? : List Lexeme → Option Lexeme) (Holds : Lexeme → α → Prop)
    (blame : Lexeme → Lexeme → Fault) : Prop where
  mem : ∀ {row word}, name? row = some word → word ∈ row
  readable : ∀ words, name? (readableWords words) = name? words
  skip : ∀ {row l} (_ : RowReads row l) (table : SymbolTable α), name? row = none →
    (step table l).1 = table ∧ about subject (step table l).2 = []
  enter : ∀ {row l word} (_ : RowReads row l) {table : SymbolTable α}, name? row = some word →
    table.find? word.text = none → about subject (step table l).2 = [] ∧
      ∃ value, Holds word value ∧ (step table l).1 = table.insert word.text value
  refuse : ∀ {row l word first value} (_ : RowReads row l) {table : SymbolTable α},
    name? row = some word → table.find? word.text = some value → Holds first value →
    (step table l).1 = table ∧ about subject (step table l).2 = [blame word first]

/-- A table that holds the first of some words for each name, and no other names. -/
def Knows (Holds : Lexeme → α → Prop) (words : List Lexeme) (table : SymbolTable α) : Prop :=
  ∀ name, Option.Rel Holds (words.find? (Lexeme.hasName name)) (table.find? name)

theorem knows_nil (Holds : Lexeme → α → Prop) : Knows Holds [] {} := fun _ => .none

theorem Knows.find?_eq_none {name : String} (h : Knows Holds before table)
    (hfirst : before.find? (Lexeme.hasName name) = none) : table.find? name = none := by
  have hname := h name
  rw [hfirst] at hname
  generalize table.find? name = known at hname ⊢
  cases hname with
  | none => rfl

theorem Knows.exists_of_find? {name : String} {first : Lexeme} (h : Knows Holds before table)
    (hfirst : before.find? (Lexeme.hasName name) = some first) :
    ∃ value, table.find? name = some value ∧ Holds first value := by
  have hname := h name
  rw [hfirst] at hname
  generalize table.find? name = known at hname ⊢
  cases hname with
  | some hholds => exact ⟨_, rfl, hholds⟩

/-- A name that is not in the table is that of no word. -/
theorem Knows.hasName_eq_false {name : String} (h : Knows Holds before table)
    (hnone : table.find? name = none) : ∀ word ∈ before, word.hasName name = false := by
  intro word hword
  cases hfirst : before.find? (Lexeme.hasName name) with
  | none => exact Bool.eq_false_iff.2 (List.find?_eq_none.1 hfirst word hword)
  | some first =>
    obtain ⟨value, hvalue, -⟩ := h.exists_of_find? hfirst
    rw [hnone] at hvalue
    cases hvalue

theorem Knows.insert {word : Lexeme} {value : α} (h : Knows Holds before table)
    (hvalue : Holds word value) :
    Knows Holds (before ++ [word]) (table.insert word.text value) := by
  intro name
  have hname := h name
  rw [List.find?_append, SymbolTable.find?_insert]
  generalize before.find? (Lexeme.hasName name) = first at hname ⊢
  generalize table.find? name = known at hname ⊢
  cases hname with
  | some hholds => exact .some hholds
  | none =>
    -- A name that was not there is now, if it is that of the word.
    by_cases hkey : SymbolTable.key name = SymbolTable.key word.text
    · have hsame : word.hasName name = true := Lexeme.hasName_iff.2 hkey.symm
      rw [if_pos hkey, List.find?_cons_of_pos hsame]
      exact .some hvalue
    · have hother : ¬ word.hasName name = true := fun hsame =>
        hkey (Lexeme.hasName_iff.1 hsame).symm
      rw [if_neg hkey, List.find?_cons_of_neg hother, List.find?_nil]
      exact .none

/-- A word whose name is there already adds nothing. -/
theorem Knows.append {word first : Lexeme} (h : Knows Holds before table)
    (hfirst : before.find? (Lexeme.hasName word.text) = some first) :
    Knows Holds (before ++ [word]) table := by
  intro name
  have hname := h name
  rw [List.find?_append]
  cases hfind : before.find? (Lexeme.hasName name) with
  | some other => rwa [hfind] at hname
  | none =>
    rw [hfind] at hname
    have hother : ¬ word.hasName name = true := by
      intro hsame
      rw [Lexeme.hasName_congr hsame, hfind] at hfirst
      cases hfirst
    rw [List.find?_cons_of_neg hother, List.find?_nil]
    exact hname

/-- One row: its name is known behind it, and is reported if it was known before. -/
theorem Enters.knows_step (h : Enters step subject name? Holds blame) (hrow : RowReads row l)
    (hknows : Knows Holds before table) :
    Knows Holds (before ++ (name? row).toList) (step table l).1 ∧
      about subject (step table l).2 =
        (name? row).toList.filterMap fun word =>
          (before.find? (Lexeme.hasName word.text)).map (blame word) := by
  cases hname : name? row with
  | none =>
    obtain ⟨htable, hfaults⟩ := h.skip hrow table hname
    rw [htable, hfaults, Option.toList_none, List.append_nil]
    exact ⟨hknows, rfl⟩
  | some word =>
    rw [Option.toList_some]
    cases hfirst : before.find? (Lexeme.hasName word.text) with
    | none =>
      obtain ⟨hfaults, value, hvalue, htable⟩ :=
        h.enter hrow hname (hknows.find?_eq_none hfirst)
      rw [htable, hfaults]
      exact ⟨hknows.insert hvalue, by simp [hfirst]⟩
    | some first =>
      obtain ⟨value, hsome, hvalue⟩ := hknows.exists_of_find? hfirst
      obtain ⟨htable, hfaults⟩ := h.refuse hrow hname hsome hvalue
      rw [htable, hfaults]
      exact ⟨hknows.append hfirst, by simp [hfirst]⟩

/-- All rows: every name is known behind them, and is reported where a row before has it. -/
theorem Enters.collect (h : Enters step subject name? Holds blame) {rows : List (List Lexeme)}
    {lines : List Line} (hrows : List.Forall₂ RowReads rows lines)
    (hknows : Knows Holds before table)
    (hascending : (before ++ rows.filterMap name?).Pairwise fun word next =>
      word.pos.row < next.pos.row) :
    Knows Holds (before ++ rows.filterMap name?) (collect step table lines).1 ∧
      about subject (collect step table lines).2 =
        (rows.filterMap name?).filterMap
          (repeatFault? blame (before ++ rows.filterMap name?)) := by
  -- Over the words before, since the first with a name may be one of them.
  induction hrows generalizing before table with
  | nil =>
    rw [List.filterMap_nil, List.append_nil]
    exact ⟨hknows, rfl⟩
  | @cons row l rows lines hrow _ ih =>
    obtain ⟨hstep, hfaults⟩ := h.knows_step hrow hknows
    have hnames : (row :: rows).filterMap name? = (name? row).toList ++ rows.filterMap name? := by
      cases hname : name? row with
      | none => rw [List.filterMap_cons_none hname]; rfl
      | some word => rw [List.filterMap_cons_some hname]; rfl
    rw [hnames, ← List.append_assoc] at hascending ⊢
    obtain ⟨hrest, hmore⟩ := ih hstep hascending
    refine ⟨hrest, ?_⟩
    rw [collect_cons, Fault.about_append, hmore, hfaults, List.filterMap_append]
    congr 1
    cases hname : name? row with
    | none => rfl
    | some word =>
      rw [hname] at hascending
      have hbefore : ∀ first ∈ before, first.pos.row < word.pos.row := by
        intro first hfirst
        rw [List.append_assoc, List.pairwise_append] at hascending
        exact hascending.2.2 first hfirst word List.mem_cons_self
      apply List.filterMap_congr
      intro other hother
      cases List.mem_singleton.1 hother
      rw [List.append_assoc]
      exact (repeatFault?_append hbefore).symm

/-- Names stand in the readable part of rows. -/
theorem Enters.filterMap_readableRows (h : Enters step subject name? Holds blame) (s : Source) :
    (Lexeme.readableRows (Lexeme.ofSource s)).filterMap name? = s.words.filterMap name? := by
  have hnil : name? [] = none := by
    rw [Option.eq_none_iff_forall_ne_some]
    intro word hword
    cases h.mem hword
  -- Rows without words are left out of both, and have no name.
  have hfilter : ∀ rows : List (List Lexeme),
      (rows.filter fun row => !row.isEmpty).filterMap name? = rows.filterMap name? := by
    intro rows
    rw [List.filterMap_filter]
    apply List.filterMap_congr
    intro row _
    cases row with
    | nil => exact hnil.symm
    | cons word rest => rfl
  rw [← wordRows_ofSource, Lexeme.readableRows, Lexeme.wordRows, hfilter, hfilter,
    List.filterMap_map, List.filterMap_map]
  apply List.filterMap_congr
  intro row _
  exact h.readable _

theorem Enters.pairwise_names (h : Enters step subject name? Holds blame) (s : Source) :
    (s.words.filterMap name?).Pairwise fun word next => word.pos.row < next.pos.row := by
  refine s.pairwise_words.filterMap _ ?_
  intro row next hrows word hword after hafter
  exact hrows word (h.mem hword) after (h.mem hafter)

/-- The lines of a source: the first of each name is known, and every other one is reported. -/
theorem Enters.collect_source (h : Enters step subject name? Holds blame) (s : Source) :
    Knows Holds (s.words.filterMap name?)
        (Assembler65.collect step {} (Line.ofLexemes (Lexeme.ofSource s))).1 ∧
      about subject (Assembler65.collect step {} (Line.ofLexemes (Lexeme.ofSource s))).2 =
        (s.words.filterMap name?).filterMap (repeatFault? blame (s.words.filterMap name?)) := by
  have hascending := h.pairwise_names s
  rw [← h.filterMap_readableRows] at hascending ⊢
  exact h.collect (forall₂_readableRows (Lexeme.ofSource s)) (knows_nil Holds)
    hascending

end Entering

end Assembler65
