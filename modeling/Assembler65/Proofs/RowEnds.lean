import Assembler65.Proofs.FaultLists

/-!
# The ends of rows

A fault at the end of a line is reported where the line finishes. That is where the row ends, if the
end of the row is read: an unknown directive cuts the row off, and the line then finishes at the
first column. Main statement: `end_marked_iff_directives_known`, of all lines and of all faults that
find the end of a line where something else was wanted.
-/

set_option autoImplicit false

namespace Assembler65

/-- If all but one give nothing, only this one counts. -/
theorem flatMap_eq_of_unique {α β : Type} {xs : List α} {g : α → List β} {x : α} (hx : x ∈ xs)
    (hnodup : xs.Nodup) (h : ∀ y ∈ xs, y ≠ x → g y = []) : xs.flatMap g = g x := by
  induction xs with
  | nil => cases hx
  | cons y rest ih =>
    obtain ⟨hy, hnodup⟩ := List.nodup_cons.1 hnodup
    rw [List.forall_mem_cons] at h
    rw [List.flatMap_cons]
    rcases List.mem_cons.1 hx with rfl | hx
    · -- What is left differs from the one.
      have hrest : rest.flatMap g = [] := by
        apply List.flatMap_eq_nil_iff.2
        intro z hz
        apply h.2 z hz
        rintro rfl
        exact hy hz
      rw [hrest, List.append_nil]
    · have hne : y ≠ x := by
        rintro rfl
        exact hy hx
      rw [h.1 hne, List.nil_append, ih hx hnodup h.2]

namespace Lexeme

/-- A directive that stands for nothing. -/
def isUnknownDirective (l : Lexeme) : Bool :=
  l.kind == .directive && (Directive.parse? l.text).isNone

/-- The one lexeme that ends a row. -/
def EndsRow (lexemes : List Lexeme) (row : Nat) (e : Lexeme) : Prop :=
  (lexemes.filter fun l => l.kind = .lineEnd ∧ l.pos.row = row) = [e]

/-- A place is the end of its row exactly if all directives in the row are known. Else it is the
first place of the row. -/
def MarksEnd (lexemes : List Lexeme) (pos : Position) : Prop :=
  ∃ e, EndsRow lexemes pos.row e ∧
    (pos = e.pos ↔ ∀ l ∈ lexemes, l.pos.row = pos.row → l.isUnknownDirective = false) ∧
    (pos ≠ e.pos → pos.column = 1)

/-! ## Lexemes of a row -/

theorem contribution_eq_finish_iff {l : Lexeme} : l.contribution = .finish ↔ l.kind = .lineEnd := by
  cases hkind : l.kind with
  | directive => cases hparse : Directive.parse? l.text <;> simp [contribution, hkind, hparse]
  | _ => simp [contribution, hkind]

/-- Only an unknown directive cannot be read, where every lexeme is one that a rule reads. -/
theorem exists_fault_iff {l : Lexeme} (h : l.kind ≠ .unexpected) :
    (∃ cause, l.contribution = .fault cause) ↔ l.isUnknownDirective = true := by
  cases hkind : l.kind with
  | directive =>
    cases hparse : Directive.parse? l.text <;>
      simp [contribution, isUnknownDirective, hkind, hparse]
  | unexpected => exact absurd hkind h
  | _ => simp [contribution, isUnknownDirective, hkind]

/-- A comment is no directive. -/
theorem any_filter_comment (lexemes : List Lexeme) :
    (lexemes.filter fun l => l.kind != .comment).any isUnknownDirective =
      lexemes.any isUnknownDirective := by
  rw [List.any_filter]
  congr 1
  funext l
  cases hkind : l.kind <;> simp [isUnknownDirective, hkind]

/-- The last lexeme of a row ends it, and no other does. -/
theorem exists_ofRow_eq_append (row : Nat) (line : String) :
    ∃ before, ofRow row line =
        before ++ [⟨.lineEnd, "", ⟨row, line.toList.length + 1⟩⟩] ∧
      ∀ l ∈ before, l.kind ≠ .lineEnd := by
  obtain ⟨pieces, hscanned, hjoin, hscan⟩ := Piece.exists_scansTo line.toList
  obtain ⟨before, heq, hkinds⟩ := Piece.exists_lexemes_eq_append row 1 hscanned
  refine ⟨before, ?_, hkinds⟩
  rw [ofRow, hscan, heq, hjoin, Nat.add_comm]

end Lexeme

/-- A row that ends with its last lexeme finishes there, unless it is cut off before. -/
theorem finish_readRow_append {finish : Position} {before : List Lexeme} {e : Lexeme}
    (he : e.kind = .lineEnd) (hends : ∀ l ∈ before, l.kind ≠ .lineEnd)
    (hreads : ∀ l ∈ before, l.kind ≠ .unexpected) :
    (readRow finish (before ++ [e])).finish =
      if (before ++ [e]).any Lexeme.isUnknownDirective then finish else e.pos := by
  induction before with
  | nil =>
    have hfinish := Lexeme.contribution_eq_finish_iff.2 he
    simp [readRow, hfinish, Lexeme.isUnknownDirective, he]
  | cons l rest ih =>
    rw [List.forall_mem_cons] at hends hreads
    have hrest := ih hends.2 hreads.2
    have hunknown := Lexeme.exists_fault_iff hreads.1
    rw [List.cons_append, readRow, List.any_cons]
    cases hc : l.contribution with
    | token kind =>
      have hknown : l.isUnknownDirective = false := by simpa [hc] using hunknown
      rw [hknown, Bool.false_or]
      exact hrest
    | finish => exact absurd (Lexeme.contribution_eq_finish_iff.1 hc) hends.1
    | nothing =>
      have hknown : l.isUnknownDirective = false := by simpa [hc] using hunknown
      rw [hknown, Bool.false_or]
      exact hrest
    | fault cause =>
      -- The row is cut off here, and `finish` is all that is known of its end.
      rw [hunknown.1 ⟨cause, hc⟩]
      rfl

/-! ## Rows of a source -/

namespace Source

variable {s : Source} {c d : Nat × String}

theorem eq_of_mem_content (hc : c ∈ s.content) (hd : d ∈ s.content) (h : c.1 = d.1) : c = d := by
  have hline := (row?_of_mem_content hc).1
  rw [h, (row?_of_mem_content hd).1] at hline
  exact Prod.ext h (Option.some.inj hline).symm

theorem nodup_content (s : Source) : s.content.Nodup := by
  apply s.pairwise_content.imp
  rintro c d hlt rfl
  exact Nat.lt_irrefl _ hlt

/-- The lexemes with the number of a row are those of the row. -/
theorem mem_ofRow_of_row_eq (hc : c ∈ s.content) {l : Lexeme} (hl : l ∈ Lexeme.ofSource s)
    (hrow : l.pos.row = c.1) : l ∈ Lexeme.ofRow c.1 c.2 := by
  obtain ⟨d, hd, hmem⟩ := List.mem_flatMap.1 hl
  have hsame : d.1 = c.1 := (Lexeme.row_of_mem_scan hmem).symm.trans hrow
  rw [← eq_of_mem_content hd hc hsame]
  exact hmem

theorem mem_ofSource_of_mem_ofRow (hc : c ∈ s.content) {l : Lexeme}
    (hl : l ∈ Lexeme.ofRow c.1 c.2) : l ∈ Lexeme.ofSource s :=
  List.mem_flatMap.2 ⟨c, hc, hl⟩

/-- A row has one end, behind its last character. -/
theorem endsRow (hc : c ∈ s.content) :
    Lexeme.EndsRow (Lexeme.ofSource s) c.1
      ⟨.lineEnd, "", ⟨c.1, c.2.toList.length + 1⟩⟩ := by
  rw [Lexeme.EndsRow, Lexeme.ofSource, List.filter_flatMap,
    flatMap_eq_of_unique hc s.nodup_content]
  · obtain ⟨before, hrow, hends⟩ := Lexeme.exists_ofRow_eq_append c.1 c.2
    have hnone : (before.filter fun l => l.kind = .lineEnd ∧ l.pos.row = c.1) = [] := by
      apply List.filter_eq_nil_iff.2
      intro l hl
      simp [hends l hl]
    show List.filter _ (Lexeme.ofRow c.1 c.2) = _
    rw [hrow, List.filter_append, hnone, List.nil_append]
    simp
  · -- The lexemes of other rows have other numbers.
    intro d hd hne
    apply List.filter_eq_nil_iff.2
    intro l hl hfound
    simp only [decide_eq_true_eq] at hfound
    apply hne
    apply eq_of_mem_content hd hc
    rw [← hfound.2]
    exact (Lexeme.row_of_mem_scan hl).symm

theorem one_lt_of_mem_content (hc : c ∈ s.content) : 1 < c.2.toList.length + 1 := by
  have hblank := (row?_of_mem_content hc).2
  rw [Text.isBlankText] at hblank
  cases hline : c.2.toList with
  | nil => simp [hline] at hblank
  | cons first rest => simp

theorem kind_ne_unexpected {lexemes : List Lexeme} (h : s.lexemes = .ok lexemes) {l : Lexeme}
    (hl : l ∈ lexemes) : l.kind ≠ .unexpected := by
  have hlexical : s.lexicalFaults = [] := by
    by_contra hne
    rw [lexemes_of_lexicalFaults hne] at h
    cases h
  apply kind_ne_of_lexicalFaults_eq_nil hlexical
  rw [← lexemes_eq h]
  exact hl

/-- A row finishes at its end, or at its first place if a directive is unknown. -/
theorem finish_rowLexemes {lexemes : List Lexeme} (h : s.lexemes = .ok lexemes)
    (hc : c ∈ s.content) :
    (readRow ⟨c.1, 1⟩ (rowLexemes c)).finish =
      if (Lexeme.ofRow c.1 c.2).any Lexeme.isUnknownDirective then ⟨c.1, 1⟩
      else ⟨c.1, c.2.toList.length + 1⟩ := by
  have hreads : ∀ l ∈ Lexeme.ofRow c.1 c.2, l.kind ≠ .unexpected := by
    intro l hl
    apply kind_ne_unexpected h
    rw [lexemes_eq h]
    exact mem_ofSource_of_mem_ofRow hc hl
  obtain ⟨before, hrow, hends⟩ := Lexeme.exists_ofRow_eq_append c.1 c.2
  rw [hrow] at hreads
  rw [← Lexeme.any_filter_comment, rowLexemes, hrow, List.filter_append]
  apply finish_readRow_append rfl
  · exact fun l hl => hends l (List.mem_of_mem_filter hl)
  · exact fun l hl => hreads l (List.mem_append_left _ (List.mem_of_mem_filter hl))

end Source

/-! ## Lines -/

namespace Line

theorem exists_content_of_mem_ofLexemes {s : Source} {l : Line}
    (h : l ∈ ofLexemes (Lexeme.ofSource s)) :
    ∃ c ∈ s.content, l.row = c.1 ∧ l.finish = (readRow ⟨c.1, 1⟩ (rowLexemes c)).finish := by
  rw [ofLexemes, rows_ofSource] at h
  obtain ⟨row, hrow, hl⟩ := List.mem_filterMap.1 h
  obtain ⟨c, hc, rfl⟩ := List.mem_map.1 hrow
  have hnumber := row_of_ofRow?_rowLexemes hl
  rw [ofRow?, Option.ite_none_left_eq_some] at hl
  cases hl.2
  refine ⟨c, hc, hnumber, ?_⟩
  rw [← hnumber]
  rfl

/-- A line finishes in its row, at the end if that is read. -/
theorem marksEnd_finish {s : Source} {lexemes : List Lexeme} (h : s.lexemes = .ok lexemes)
    {l : Line} (hl : l ∈ ofLexemes lexemes) :
    l.finish.row = l.row ∧ Lexeme.MarksEnd lexemes l.finish := by
  have hlexemes := Source.lexemes_eq h
  rw [hlexemes] at hl
  obtain ⟨c, hc, hnumber, hfinish⟩ := exists_content_of_mem_ofLexemes hl
  rw [Source.finish_rowLexemes h hc] at hfinish
  have hends := Source.endsRow hc
  have hcolumn := Source.one_lt_of_mem_content hc
  rw [hnumber, hfinish, hlexemes]
  cases hany : (Lexeme.ofRow c.1 c.2).any Lexeme.isUnknownDirective with
  | true =>
    obtain ⟨w, hw, hunknown⟩ := List.any_eq_true.1 hany
    refine ⟨rfl, _, hends, ?_, fun _ => rfl⟩
    -- The first place is not the end, since the row is not empty.
    refine iff_of_false ?_ ?_
    · intro hsame
      have hone : 1 = c.2.toList.length + 1 := congrArg Position.column hsame
      omega
    · intro hknown
      have hfalse := hknown w (Source.mem_ofSource_of_mem_ofRow hc hw) (Lexeme.row_of_mem_scan hw)
      rw [hunknown] at hfalse
      cases hfalse
  | false =>
    refine ⟨rfl, _, hends, ?_, fun hne => absurd rfl hne⟩
    refine iff_of_true rfl ?_
    intro w hw hrow
    have hmem := Source.mem_ofRow_of_row_eq hc hw hrow
    exact Bool.eq_false_iff.2 (List.any_eq_false.1 hany w hmem)

theorem Becomes.finish_eq {symbols : Symbols} {l k : Line} (h : l.Becomes symbols k) :
    k.finish = l.finish := by
  cases h <;> rfl

end Line

/-! ## Faults at the end of a line -/

/-- No token is called the end of a line. -/
theorem TokenKind.description_ne_newLine (kind : TokenKind) : kind.description ≠ "NEW LINE" := by
  cases kind <;> simp [description]

theorem Reported.eq_finish {limit : Nat} {finish pos : Position} {tokens : List Token}
    {cause : Cause} {wanted : String} (h : Reported limit finish tokens (.inSource pos cause))
    (hcause : cause = .expected wanted "NEW LINE") : pos = finish := by
  cases h with
  | finish => rfl
  | token ht hblamed =>
    cases hblamed with
    | unwanted =>
      injection hcause with _ hfound
      exact absurd hfound (TokenKind.description_ne_newLine _)
    | _ => cases hcause

/-- What a line reports of its end is reported where the line finishes. -/
theorem Line.Reports.eq_finish {l : Line} {pos : Position} {wanted : String}
    (h : l.Reports (.inSource pos (.expected wanted "NEW LINE"))) : pos = l.finish := by
  rcases h with (hword | ⟨-, hbyte⟩) | ⟨-, hrejects⟩
  · exact hword.eq_finish rfl
  · exact hbyte.eq_finish rfl
  · cases hrejects with
    | refused hcause => cases hcause

/-- Every line finishes at the end of its row exactly if the row has no unknown directive, and a
fault that finds the end of a line stands at the end of its row exactly if this row has none. -/
theorem end_marked_iff_directives_known (s : Source) {lexemes : List Lexeme}
    (h : s.lexemes = .ok lexemes) :
    (∀ l ∈ Line.ofLexemes lexemes, l.finish.row = l.row ∧ Lexeme.MarksEnd lexemes l.finish) ∧
      ∀ faults, (Program.resolve {} lexemes).outcome = .error faults → ∀ pos wanted,
        .inSource pos (.expected wanted "NEW LINE") ∈ faults → Lexeme.MarksEnd lexemes pos := by
  refine ⟨fun l hl => Line.marksEnd_finish h hl, ?_⟩
  intro faults houtcome pos wanted hf
  rcases Program.reported_of_outcome houtcome _ hf with hreading | ⟨l, hl, k, hk, hreports⟩
  · obtain ⟨w, -, _, hcause, heq⟩ := Line.exists_lexeme_of_mem_readingFaults hreading
    cases heq
    rcases Lexeme.cases_of_contribution_eq_fault hcause with ⟨-, hother⟩ | ⟨-, hother⟩
    · cases hother
    · cases hother
  · rw [hreports.eq_finish, hk.finish_eq]
    exact (Line.marksEnd_finish h hl).2

/-- Data that is missing, and data that is an unknown directive. -/
def missingData : Source where
  name := "data.s"
  rows := [".byte", ".word .foo"]

/-- The faults of `missingData` in the order that they are found in. -/
def missingDataFaults : List Fault :=
  [.inSource ⟨2, 7⟩ (.unknownDirective ".foo"),
    .inSource ⟨1, 6⟩ (.expected "A NUMBER or STRING" "NEW LINE"),
    .inSource ⟨2, 1⟩ (.expected "A NUMBER or STRING" "NEW LINE")]

theorem lexemes_missingData : missingData.lexemes = .ok (Lexeme.ofSource missingData) := by
  decide +kernel

theorem outcome_missingData :
    (Program.resolve {} (Lexeme.ofSource missingData)).outcome =
      .error (Fault.sorted missingDataFaults) := by
  have hbound : Program.faultsOf (Program.bind {} (Lexeme.ofSource missingData)).remarks =
      missingDataFaults := by
    decide +kernel
  simp only [Program.resolve, hbound]
  rfl

/-- The end of the second row is reported at its first place. -/
theorem missingData_end_misplaced :
    missingData.lexemes = .ok (Lexeme.ofSource missingData) ∧
      (∃ faults, (Program.resolve {} (Lexeme.ofSource missingData)).outcome = .error faults ∧
        .inSource ⟨2, 1⟩ (.expected "A NUMBER or STRING" "NEW LINE") ∈ faults) ∧
      Lexeme.EndsRow (Lexeme.ofSource missingData) 2 ⟨.lineEnd, "", ⟨2, 11⟩⟩ := by
  refine ⟨lexemes_missingData, ⟨_, outcome_missingData, ?_⟩, ?_⟩
  · apply (Fault.sorted_perm _).mem_iff.2
    decide
  · rw [Lexeme.EndsRow]
    decide +kernel

theorem missingData_marks_ends :
    missingData.lexemes = .ok (Lexeme.ofSource missingData) ∧
      (Program.resolve {} (Lexeme.ofSource missingData)).outcome =
        .error (Fault.sorted missingDataFaults) ∧
      Lexeme.MarksEnd (Lexeme.ofSource missingData) ⟨1, 6⟩ ∧
      Lexeme.MarksEnd (Lexeme.ofSource missingData) ⟨2, 1⟩ := by
  obtain ⟨-, hends⟩ := end_marked_iff_directives_known missingData lexemes_missingData
  refine ⟨lexemes_missingData, outcome_missingData, ?_, ?_⟩
  · apply hends _ outcome_missingData ⟨1, 6⟩ "A NUMBER or STRING"
    apply (Fault.sorted_perm _).mem_iff.2
    decide
  · apply hends _ outcome_missingData ⟨2, 1⟩ "A NUMBER or STRING"
    apply (Fault.sorted_perm _).mem_iff.2
    decide

end Assembler65
