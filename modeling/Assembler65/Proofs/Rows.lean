import Assembler65.Assembly
import Mathlib.Data.List.Forall2
import Mathlib.Data.List.SplitBy
import Mathlib.Data.List.TakeWhile

/-!
# Rows of words

The words of a row are its lexemes without comments and the end of the row; `Lexeme.wordRows` are
the rows of any lexemes that have some, and `Source.words` those of a source. A word that cannot be
read cuts its row off: there is one line for each row with words before the cut, its tokens one for
each of these words (`forall₂_readableRows`), and so for each row with words where all can be read
(`forall₂_wordRows`).
Grouping the lexemes of a source by row finds its rows (`rows_ofSource`).
-/

set_option autoImplicit false

namespace Assembler65

namespace Lexeme

/-- A lexeme that is neither a comment nor the end of a row. -/
def isWord (l : Lexeme) : Bool := l.kind != .comment && l.kind != .lineEnd

/-- The token of a lexeme, if the lexeme can be read as one. -/
def token? (l : Lexeme) : Option Token :=
  match l.contribution with
  | .token kind => some ⟨kind, l.text, l.pos⟩
  | _ => none

end Lexeme

/-- The words of every row that has words, in the order of the rows. -/
def Source.words (s : Source) : List (List Lexeme) :=
  (s.content.map fun (row, line) => (Lexeme.ofRow row line).filter Lexeme.isWord).filter
    fun row => !row.isEmpty

/-- Some words and a line of their tokens. -/
structure RowReads (words : List Lexeme) (l : Line) : Prop where
  tokens : List.Forall₂ (fun word token => word.token? = some token) words l.tokens
  row : ∀ word ∈ words, word.pos.row = l.row

theorem exists_of_mem_left {α β : Type} {r : α → β → Prop} {xs : List α} {ys : List β}
    (h : List.Forall₂ r xs ys) {x : α} (hx : x ∈ xs) : ∃ y ∈ ys, r x y := by
  induction h with
  | nil => cases hx
  | cons hhead _ ih =>
    rcases List.mem_cons.1 hx with rfl | hx
    · exact ⟨_, List.mem_cons_self, hhead⟩
    · obtain ⟨y, hy, hr⟩ := ih hx
      exact ⟨y, List.mem_cons_of_mem _ hy, hr⟩

/-! ## Lexemes of a source -/

namespace Lexeme

theorem row_of_mem_scan {row skip column : Nat} {cs : List Char} {l : Lexeme}
    (h : l ∈ scan row skip column cs) : l.pos.row = row := by
  induction cs generalizing skip column with
  | nil =>
    simp only [scan, List.mem_singleton] at h
    rw [h]
  | cons c rest ih =>
    cases skip with
    | succ skip => exact ih h
    | zero =>
      rw [scan] at h
      split at h
      · exact ih h
      · rcases List.mem_cons.1 h with rfl | h
        · rfl
        · exact ih h

/-- Every row ends. -/
theorem exists_lineEnd_mem_scan (row skip column : Nat) (cs : List Char) :
    ∃ l ∈ scan row skip column cs, l.kind = .lineEnd := by
  induction cs generalizing skip column with
  | nil => exact ⟨_, List.mem_singleton.2 rfl, rfl⟩
  | cons c rest ih =>
    cases skip with
    | succ skip => exact ih skip (column + 1)
    | zero =>
      rw [scan]
      split
      · exact ih 0 (column + 1)
      · obtain ⟨l, hl, hkind⟩ := ih _ (column + 1)
        exact ⟨l, List.mem_cons_of_mem _ hl, hkind⟩

end Lexeme

/-- Rows stand in the order of their numbers. -/
theorem Source.pairwise_content (s : Source) : s.content.Pairwise fun c d => c.1 < d.1 := by
  have hnumbers : (s.rows.zipIdx 1).Pairwise fun c d => c.2 < d.2 := by
    rw [← List.pairwise_map, List.zipIdx_map_snd]
    exact List.pairwise_lt_range'
  refine hnumbers.filterMap _ ?_
  rintro ⟨line, row⟩ ⟨line', row'⟩ hlt c hc d hd
  simp only [Option.ite_none_left_eq_some, Option.some.injEq] at hc hd
  rw [← hc.2, ← hd.2]
  exact hlt

/-- The lexemes of a row without the comments. -/
def rowLexemes (c : Nat × String) : List Lexeme :=
  (Lexeme.ofRow c.1 c.2).filter fun l => l.kind != .comment

theorem row_of_mem_rowLexemes {c : Nat × String} {l : Lexeme} (h : l ∈ rowLexemes c) :
    l.pos.row = c.1 :=
  Lexeme.row_of_mem_scan (List.mem_of_mem_filter h)

theorem rowLexemes_ne_nil (c : Nat × String) : rowLexemes c ≠ [] := by
  obtain ⟨l, hl, hkind⟩ := Lexeme.exists_lineEnd_mem_scan c.1 0 1 c.2.toList
  exact List.ne_nil_of_mem (List.mem_filter.2 ⟨hl, by rw [hkind]; rfl⟩)

theorem filter_isWord_rowLexemes (c : Nat × String) :
    (rowLexemes c).filter Lexeme.isWord = (Lexeme.ofRow c.1 c.2).filter Lexeme.isWord := by
  rw [rowLexemes, List.filter_filter]
  apply List.filter_congr
  intro l _
  rw [Lexeme.isWord]
  cases l.kind <;> rfl

/-- Grouping lexemes by row finds the rows that they were put together from, if these have
ascending numbers. -/
theorem splitBy_flatten_rows {content : List (Nat × String)}
    {lexemes : Nat × String → List Lexeme}
    (hcontent : content.Pairwise fun c d => c.1 < d.1) (hne : ∀ c, lexemes c ≠ [])
    (hrow : ∀ c, ∀ l ∈ lexemes c, l.pos.row = c.1) :
    (content.map lexemes).flatten.splitBy Lexeme.sameRow = content.map lexemes := by
  apply List.splitBy_flatten
  · intro hnil
    obtain ⟨c, -, hc⟩ := List.mem_map.1 hnil
    exact hne c hc
  · intro row hmem
    obtain ⟨c, -, rfl⟩ := List.mem_map.1 hmem
    apply List.Pairwise.isChain
    apply List.pairwise_of_forall_mem_list
    intro l hl m hm
    simp [Lexeme.sameRow, hrow c l hl, hrow c m hm]
  · -- Two neighbouring groups meet at lexemes of different rows.
    apply List.Pairwise.isChain
    rw [List.pairwise_map]
    refine hcontent.imp ?_
    intro c d hlt
    refine ⟨hne c, hne d, ?_⟩
    have hc := hrow c _ (List.getLast_mem (hne c))
    have hd := hrow d _ (List.head_mem (hne d))
    rw [Lexeme.sameRow, hc, hd]
    exact beq_eq_false_iff_ne.2 (by omega)

/-- Grouping the lexemes of a source by row gives its rows. -/
theorem rows_ofSource (s : Source) :
    Lexeme.rows (Lexeme.ofSource s) = s.content.map rowLexemes := by
  have hflat : (Lexeme.ofSource s).filter (fun l => l.kind != .comment) =
      (s.content.map rowLexemes).flatten := by
    rw [Lexeme.ofSource, List.filter_flatMap, ← List.flatMap_def]
    rfl
  rw [Lexeme.rows, hflat]
  exact splitBy_flatten_rows s.pairwise_content rowLexemes_ne_nil fun _ _ => row_of_mem_rowLexemes

/-! ## Reading a row -/

namespace Lexeme

theorem token?_eq_some_iff {l : Lexeme} {t : Token} :
    l.token? = some t ↔ l.contribution = .token t.kind ∧ l.text = t.text ∧ l.pos = t.pos := by
  obtain ⟨kind, text, pos⟩ := t
  rw [token?]
  cases l.contribution with
  | token kind' => simp
  | finish => simp
  | nothing => simp
  | fault cause => simp

/-- Words become tokens or faults, and all other lexemes are passed over. -/
theorem isWord_eq (l : Lexeme) :
    l.isWord =
      match l.contribution with
      | .token _ | .fault _ => true
      | .finish | .nothing => false := by
  rw [isWord, contribution]
  cases l.kind with
  | directive =>
    cases Directive.parse? l.text with
    | none => rfl
    | some d => rfl
  | _ => rfl

end Lexeme

/-- The words of a row up to the first one that cannot be read. -/
def readableWords (words : List Lexeme) : List Lexeme :=
  words.takeWhile fun word => word.token?.isSome

theorem readableWords_cons_of_isSome {word : Lexeme} {rest : List Lexeme}
    (h : word.token?.isSome = true) :
    readableWords (word :: rest) = word :: readableWords rest :=
  List.takeWhile_cons_of_pos h

theorem readableWords_cons_of_none {word : Lexeme} {rest : List Lexeme}
    (h : ¬ word.token?.isSome = true) : readableWords (word :: rest) = [] :=
  List.takeWhile_cons_of_neg h

theorem readableWords_append {words : List Lexeme} (rest : List Lexeme)
    (h : ∀ word ∈ words, word.token?.isSome = true) :
    readableWords (words ++ rest) = words ++ readableWords rest :=
  List.takeWhile_append_of_pos h

/-- A row gives one token for each word up to the first that cannot be read. -/
theorem forall₂_readableWords (finish : Position) (lexemes : List Lexeme) :
    List.Forall₂ (fun word token => word.token? = some token)
      (readableWords (lexemes.filter Lexeme.isWord)) (readRow finish lexemes).tokens := by
  induction lexemes generalizing finish with
  | nil => exact .nil
  | cons l rest ih =>
    have hword := l.isWord_eq
    rw [readRow]
    cases hc : l.contribution with
    | token kind =>
      have htoken : l.token? = some ⟨kind, l.text, l.pos⟩ :=
        Lexeme.token?_eq_some_iff.2 ⟨hc, rfl, rfl⟩
      rw [hc] at hword
      rw [List.filter_cons_of_pos hword,
        readableWords_cons_of_isSome (Option.isSome_of_eq_some htoken)]
      exact .cons htoken (ih finish)
    | finish =>
      rw [hc] at hword
      rw [List.filter_cons_of_neg (by simp [hword])]
      exact ih l.pos
    | nothing =>
      rw [hc] at hword
      rw [List.filter_cons_of_neg (by simp [hword])]
      exact ih finish
    | fault cause =>
      -- What stands behind the fault is not looked at.
      rw [hc] at hword
      rw [List.filter_cons_of_pos hword,
        readableWords_cons_of_none (by simp [Lexeme.token?, hc])]
      exact .nil

/-- A row has no fault exactly if every word can be read. -/
theorem fault_readRow_eq_none_iff {finish : Position} {lexemes : List Lexeme} :
    (readRow finish lexemes).fault = none ↔
      ∀ word ∈ lexemes.filter Lexeme.isWord, word.token?.isSome = true := by
  induction lexemes generalizing finish with
  | nil => simp [readRow]
  | cons l rest ih =>
    have hword := l.isWord_eq
    rw [readRow]
    cases hc : l.contribution with
    | token kind =>
      rw [hc] at hword
      rw [List.filter_cons_of_pos hword, List.forall_mem_cons, and_iff_right]
      · exact ih
      · simp [Lexeme.token?, hc]
    | finish =>
      rw [hc] at hword
      rw [List.filter_cons_of_neg (by simp [hword])]
      exact ih
    | nothing =>
      rw [hc] at hword
      rw [List.filter_cons_of_neg (by simp [hword])]
      exact ih
    | fault cause =>
      rw [hc] at hword
      rw [List.filter_cons_of_pos hword, List.forall_mem_cons]
      simp [Lexeme.token?, hc]

/-! ## The rows of any lexemes -/

/-- The words of every row of some lexemes that has words. -/
def Lexeme.wordRows (lexemes : List Lexeme) : List (List Lexeme) :=
  ((Lexeme.rows lexemes).map fun row => row.filter Lexeme.isWord).filter fun row => !row.isEmpty

theorem wordRows_ofSource (s : Source) : Lexeme.wordRows (Lexeme.ofSource s) = s.words := by
  rw [Lexeme.wordRows, rows_ofSource, List.map_map, Source.words]
  congr 1
  apply List.map_congr_left
  intro c _
  exact filter_isWord_rowLexemes c

theorem Lexeme.row_eq_of_isChain {l : Lexeme} {row : List Lexeme}
    (h : (l :: row).IsChain fun l m => Lexeme.sameRow l m) : ∀ m ∈ row, m.pos.row = l.pos.row := by
  induction row generalizing l with
  | nil => nofun
  | cons m rest ih =>
    rw [List.isChain_cons_cons] at h
    have hrow : l.pos.row = m.pos.row := beq_iff_eq.1 h.1
    rw [List.forall_mem_cons, hrow]
    exact ⟨rfl, ih h.2⟩

/-- All lexemes of a row have its number. -/
theorem row_of_mem_rows {lexemes row : List Lexeme} (hrow : row ∈ Lexeme.rows lexemes)
    {l : Lexeme} (hl : l ∈ row) : l.pos.row = (Line.reading row).1 := by
  have hchain := List.isChain_of_mem_splitBy hrow
  cases row with
  | nil => cases hl
  | cons first rest =>
    rcases List.mem_cons.1 hl with rfl | hl
    · rfl
    · exact Lexeme.row_eq_of_isChain hchain l hl

/-- The readable words of every row of some lexemes that has some. -/
def Lexeme.readableRows (lexemes : List Lexeme) : List (List Lexeme) :=
  ((Lexeme.rows lexemes).map fun row => readableWords (row.filter Lexeme.isWord)).filter
    fun row => !row.isEmpty

/-- There is one line for each row with readable words. -/
theorem forall₂_readableRows (lexemes : List Lexeme) :
    List.Forall₂ RowReads (Lexeme.readableRows lexemes) (Line.ofLexemes lexemes) := by
  have hnumbers : ∀ row ∈ Lexeme.rows lexemes, ∀ l ∈ row, l.pos.row = (Line.reading row).1 :=
    fun row hrow l hl => row_of_mem_rows hrow hl
  rw [Line.ofLexemes, Lexeme.readableRows]
  generalize Lexeme.rows lexemes = rows at hnumbers
  induction rows with
  | nil => exact .nil
  | cons row rest ih =>
    rw [List.forall_mem_cons] at hnumbers
    have htokens : List.Forall₂ (fun word token => word.token? = some token)
        (readableWords (row.filter Lexeme.isWord)) (Line.reading row).2.tokens :=
      forall₂_readableWords _ row
    have hrest := ih hnumbers.2
    rw [List.map_cons]
    -- A row has a line exactly if it has words to read: both lists leave out the same rows.
    by_cases hempty : (Line.reading row).2.tokens = []
    · have hnone : Line.ofRow? row = none := by simp [Line.ofRow?, hempty]
      have hwords : readableWords (row.filter Lexeme.isWord) = [] := by
        rw [← List.forall₂_nil_right_iff, ← hempty]
        exact htokens
      rw [List.filterMap_cons_none hnone, List.filter_cons_of_neg (by simp [hwords])]
      exact hrest
    · have hsome : Line.ofRow? row =
          some ⟨(Line.reading row).1, (Line.reading row).2.tokens,
            (Line.reading row).2.finish⟩ := by
        simp [Line.ofRow?, hempty]
      have hwords : readableWords (row.filter Lexeme.isWord) ≠ [] := by
        intro hnil
        rw [hnil, List.forall₂_nil_left_iff] at htokens
        exact hempty htokens
      rw [List.filterMap_cons_some hsome, List.filter_cons_of_pos (by simpa using hwords)]
      refine .cons ⟨htokens, ?_⟩ hrest
      intro word hword
      apply hnumbers.1 word
      exact List.mem_of_mem_filter ((List.takeWhile_sublist _).subset hword)

/-- No row has a fault exactly if every word can be read. -/
theorem readingFaults_eq_nil_iff {lexemes : List Lexeme} :
    Line.readingFaults lexemes = [] ↔
      ∀ row ∈ Lexeme.wordRows lexemes, ∀ word ∈ row, word.token?.isSome = true := by
  rw [Line.readingFaults, List.filterMap_eq_nil_iff]
  constructor
  · intro h row hrow
    obtain ⟨whole, hwhole, rfl⟩ := List.mem_map.1 (List.mem_of_mem_filter hrow)
    exact fault_readRow_eq_none_iff.1 (h whole hwhole)
  · intro h row hrow
    apply fault_readRow_eq_none_iff.2
    intro word hword
    refine h _ ?_ word hword
    rw [Lexeme.wordRows, List.mem_filter]
    refine ⟨List.mem_map_of_mem hrow, ?_⟩
    rw [Bool.not_eq_true', List.isEmpty_eq_false_iff]
    exact List.ne_nil_of_mem hword

/-- Where every row can be read, there is one line for each row with words. -/
theorem forall₂_wordRows {lexemes : List Lexeme} (h : Line.readingFaults lexemes = []) :
    List.Forall₂ RowReads (Lexeme.wordRows lexemes) (Line.ofLexemes lexemes) := by
  have hreadable : Lexeme.readableRows lexemes = Lexeme.wordRows lexemes := by
    rw [Line.readingFaults, List.filterMap_eq_nil_iff] at h
    rw [Lexeme.readableRows, Lexeme.wordRows]
    congr 1
    apply List.map_congr_left
    intro row hrow
    exact List.takeWhile_eq_self_iff.2 (fault_readRow_eq_none_iff.1 (h row hrow))
  rw [← hreadable]
  exact forall₂_readableRows lexemes

/-- Where every row of a source can be read, there is one line for each row with words. -/
theorem forall₂_lines {s : Source} (h : Line.readingFaults (Lexeme.ofSource s) = []) :
    List.Forall₂ RowReads s.words (Line.ofLexemes (Lexeme.ofSource s)) := by
  rw [← wordRows_ofSource]
  exact forall₂_wordRows h

theorem readingFaults_ofSource_eq_nil_iff {s : Source} :
    Line.readingFaults (Lexeme.ofSource s) = [] ↔
      ∀ row ∈ s.words, ∀ word ∈ row, word.token?.isSome = true := by
  rw [readingFaults_eq_nil_iff, wordRows_ofSource]

end Assembler65
