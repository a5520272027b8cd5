import Assembler65.Fault.Diagnostic
import Mathlib.Data.List.Forall2

/-!
# Reports of faults

`Fault.Report` is the form of a report, line by line as a terminal gets it: what is wrong, and for a
fault in a known source its place, the row as it stands and a caret below the column.
`Fault.Reports` is the form of the reports of some faults in their order, with their number at the
end. The form leaves nothing open (`Fault.Reports.unique`), and what is printed has it
(`Fault.reports_diagnostics`).
-/

set_option autoImplicit false

namespace Assembler65

open Text

/-! ## The form of reports -/

namespace Fault

/-- A text in blue. -/
def blue (s : String) : String := "\x1b[34m" ++ s ++ "\x1b[39m"

/-- A text that is underlined. -/
def underlined (s : String) : String := "\x1b[4m" ++ s ++ "\x1b[24m"

/-- A text in red and bold letters. -/
def alarming (s : String) : String := "\x1b[31m\x1b[1m" ++ s ++ "\x1b[39m\x1b[22m"

/-- A text at the right end of a column of some width, which it may exceed. -/
def FillsColumn (width : Nat) (text shown : String) : Prop :=
  shown.length = max width text.length ∧
    ∃ blanks, shown.toList = List.replicate blanks ' ' ++ text.toList

/-- The row of a number as it stands in a source, or nothing if there is none. -/
def ShowsRow (s : Source) (number : Nat) (row : String) : Prop :=
  (∃ before after, s.rows = before ++ row :: after ∧ number = before.length + 1) ∨
    ((number = 0 ∨ s.rows.length < number) ∧ row = "")

/-- What a report says first. -/
def headline (f : Fault) : String :=
  alarming ("error[" ++ f.category.name ++ "]") ++ ": " ++ f.message

/-- The lines of a report. Without a place, or a source for it, there is only the headline. -/
inductive Report (f : Fault) (source : Option Source) : List String → Prop
  | unplaced (hplace : f.position? = none ∨ source = none) : Report f source [f.headline]
  | placed {s : Source} {pos : Position} {number row indent : String}
      (hpos : f.position? = some pos) (hsource : source = some s)
      (hnumber : FillsColumn 4 (toString pos.row) number) (hrow : ShowsRow s pos.row row)
      (hindent : indent.toList = List.replicate (pos.column - 1) ' ') :
      Report f source
        [f.headline,
          "     " ++ blue "-->" ++ " " ++
            underlined (s.name ++ ":" ++ toString pos.row ++ ":" ++ toString pos.column),
          "      " ++ blue "|",
          " " ++ blue (number ++ " |") ++ " " ++ row,
          "      " ++ blue "|" ++ " " ++ indent ++ alarming "^"]

/-- The reports of some faults one after the other, and then their number. -/
def Reports (source : Option Source) (faults : List Fault) (text : String) : Prop :=
  ∃ reports, List.Forall₂ (fun f lines => f.Report source lines) faults reports ∧
    text = String.join (reports.flatten.map (· ++ "\n")) ++ toString faults.length ++
      " error(s)\n"

/-! ## Reports leave nothing open -/

theorem length_eq_of_blanks {text shown : String} {blanks : Nat}
    (h : shown.toList = List.replicate blanks ' ' ++ text.toList) :
    shown.length = blanks + text.length := by
  rw [← String.length_toList, h, List.length_append, List.length_replicate, String.length_toList]

theorem FillsColumn.unique {width : Nat} {text shown shown' : String}
    (h : FillsColumn width text shown) (h' : FillsColumn width text shown') : shown = shown' := by
  obtain ⟨hlength, blanks, hshown⟩ := h
  obtain ⟨hlength', blanks', hshown'⟩ := h'
  -- The width says how many blanks there are.
  have hblanks := length_eq_of_blanks hshown
  have hblanks' := length_eq_of_blanks hshown'
  have hsame : blanks = blanks' := by omega
  rw [← String.toList_inj, hshown, hshown', hsame]

theorem ShowsRow.unique {s : Source} {number : Nat} {row row' : String}
    (h : ShowsRow s number row) (h' : ShowsRow s number row') : row = row' := by
  -- Both texts are what the list of rows has at one index.
  have hindex : ∀ {row : String}, ShowsRow s number row →
      row = (if number = 0 then none else s.rows[number - 1]?).getD "" := by
    rintro row (⟨before, after, hrows, rfl⟩ | ⟨hnone, rfl⟩)
    · rw [if_neg (Nat.succ_ne_zero _), hrows, Nat.add_sub_cancel, List.getElem?_append_right
        (Nat.le_refl _), Nat.sub_self, List.getElem?_cons_zero, Option.getD_some]
    · split
      case isTrue => rfl
      case isFalse hpos =>
        rw [List.getElem?_eq_none (by omega), Option.getD_none]
  rw [hindex h, hindex h']

theorem Report.unique {f : Fault} {source : Option Source} {lines lines' : List String}
    (h : f.Report source lines) (h' : f.Report source lines') : lines = lines' := by
  cases h with
  | unplaced hplace =>
    cases h' with
    | unplaced => rfl
    | placed hpos hsource => simp [hpos, hsource] at hplace
  | placed hpos hsource hnumber hrow hindent =>
    cases h' with
    | unplaced hplace => simp [hpos, hsource] at hplace
    | placed hpos' hsource' hnumber' hrow' hindent' =>
      cases hpos.symm.trans hpos'
      cases hsource.symm.trans hsource'
      rw [hnumber.unique hnumber', hrow.unique hrow',
        String.toList_inj.1 (hindent.trans hindent'.symm)]

theorem Reports.unique {source : Option Source} {faults : List Fault} {text text' : String}
    (h : Reports source faults text) (h' : Reports source faults text') : text = text' := by
  obtain ⟨reports, hreports, rfl⟩ := h
  obtain ⟨reports', hreports', rfl⟩ := h'
  have hsame : reports = reports' := by
    induction hreports generalizing reports' with
    | nil => exact (List.forall₂_nil_left_iff.1 hreports').symm
    | cons hhead _ ih =>
      obtain ⟨lines, rest, hhead', hrest', rfl⟩ := List.forall₂_cons_left_iff.1 hreports'
      rw [hhead.unique hhead', ih rest hrest']
  rw [hsame]

/-! ## What is printed -/

theorem styled_blue (s : String) : styled [.blue] s = blue s := by
  rw [styled, blue]
  congr 1

theorem styled_underline (s : String) : styled [.underline] s = underlined s := by
  rw [styled, underlined]
  congr 1

theorem styled_red_bold (s : String) : styled [.red, .bold] s = alarming s := by
  rw [styled, alarming]
  congr 1

theorem fillsColumn_alignRight (width : Nat) (text : String) :
    FillsColumn width text (alignRight width text) := by
  have htoList : (alignRight width text).toList =
      List.replicate (width - text.length) ' ' ++ text.toList := by
    rw [alignRight, fillLeft, String.toList_append, String.toList_ofList]
  refine ⟨?_, _, htoList⟩
  rw [length_eq_of_blanks htoList]
  omega

theorem showsRow_row? (s : Source) (number : Nat) :
    ShowsRow s number ((s.row? number).getD "") := by
  rw [Source.row?]
  cases number with
  | zero => exact .inr ⟨.inl rfl, rfl⟩
  | succ index =>
    rw [if_neg (by simp), Nat.add_sub_cancel]
    rcases Nat.lt_or_ge index s.rows.length with hindex | hindex
    · rw [List.getElem?_eq_getElem hindex, Option.getD_some]
      refine .inl ⟨s.rows.take index, s.rows.drop (index + 1), ?_, ?_⟩
      · rw [List.getElem_cons_drop, List.take_append_drop]
      · rw [List.length_take, Nat.min_eq_left (Nat.le_of_lt hindex)]
    · rw [List.getElem?_eq_none hindex, Option.getD_none]
      exact .inr ⟨.inr (Nat.lt_succ_of_le hindex), rfl⟩

/-- The lines that are printed about a fault are a report of it. -/
theorem report_diagnosticLines (f : Fault) (source : Option Source) :
    f.Report source (f.diagnosticLines source) := by
  cases hpos : f.position? with
  | none =>
    simp only [diagnosticLines, hpos, styled_red_bold]
    exact .unplaced (.inl hpos)
  | some pos =>
    cases source with
    | none =>
      simp only [diagnosticLines, hpos, styled_red_bold]
      exact .unplaced (.inr rfl)
    | some s =>
      simp only [diagnosticLines, hpos, excerpt, styled_red_bold, styled_blue, styled_underline,
        Position.toText, ← String.append_assoc]
      exact .placed hpos rfl (fillsColumn_alignRight 4 _) (showsRow_row? s pos.row)
        String.toList_ofList

theorem diagnostics_eq (source : Option Source) (faults : List Fault) :
    diagnostics source faults =
      String.join ((faults.map (diagnosticLines source)).flatten.map (· ++ "\n")) := by
  induction faults with
  | nil => rfl
  | cons f rest ih =>
    rw [List.map_cons, List.flatten_cons, List.map_append, String.join_append, ← ih]
    exact String.join_cons

/-- What a run prints about its faults are their reports. -/
theorem reports_diagnostics (source : Option Source) (faults : List Fault) :
    Reports source faults
      (diagnostics source faults ++ toString faults.length ++ " error(s)\n") := by
  refine ⟨faults.map fun f => f.diagnosticLines source, ?_, by rw [diagnostics_eq]⟩
  rw [List.forall₂_map_right_iff, List.forall₂_same]
  exact fun f _ => f.report_diagnosticLines source

end Fault

end Assembler65
