import Assembler65.Proofs.LexicalGrammar
import Assembler65.Proofs.Rows

/-!
# Rows and the stretches of their lexemes

Whatever a row holds, its lexemes give it back: each is spelled where its column says, the stretches
of two lexemes have no character in common, and what lies in no stretch is blank. Main statement:
`covers_ofRow`. All of it is read off the pieces that scanning divides the row into.
-/

set_option autoImplicit false

namespace Assembler65

open Text

namespace Lexeme

/-- A column lies in the stretch of a lexeme. -/
def Spans (l : Lexeme) (column : Nat) : Prop :=
  l.pos.column ≤ column ∧ column < l.pos.column + l.spelling.length

/-- A row has the spelling of a lexeme from the lexeme's column on. Columns count from one. -/
def StandsIn (line : List Char) (l : Lexeme) : Prop :=
  ∃ before after, line = before ++ l.spelling ++ after ∧ l.pos.column = before.length + 1

end Lexeme

/-- Lexemes that take a row apart without loss. -/
structure Covers (row : Nat) (cs : List Char) (lexemes : List Lexeme) : Prop where
  inRow : ∀ l ∈ lexemes, l.pos.row = row
  ascending : lexemes.Pairwise fun l m => l.pos.column < m.pos.column
  /-- The row ends once, behind its last character. -/
  finish : ∃ before, lexemes = before ++ [⟨.lineEnd, "", ⟨row, cs.length + 1⟩⟩] ∧
    ∀ l ∈ before, l.kind ≠ .lineEnd
  spelled : ∀ l ∈ lexemes, l.StandsIn cs
  disjoint : lexemes.Pairwise fun l m => ∀ column, ¬ (l.Spans column ∧ m.Spans column)
  /-- The characters outside of all stretches are blanks. -/
  gaps : ∀ index c, cs[index]? = some c → (∀ l ∈ lexemes, ¬ l.Spans (index + 1)) →
    isBlank c = true
  /-- What cannot be read goes on to the next blank or to the end of the row. -/
  unexpected : ∀ l ∈ lexemes, l.kind = .unexpected →
    l.text.toList ≠ [] ∧ (∀ c ∈ l.text.toList, isBlank c = false) ∧
      ∀ c ∈ (cs.drop (l.pos.column - 1 + l.text.toList.length)).head?, isBlank c = true

namespace Piece

variable {row column : Nat} {pieces : List Piece} {l : Lexeme}

/-- The spelling of a lexeme that a piece gives is that of the piece. -/
theorem spelling_ofList (kind : LexemeKind) (text : List Char) (pos : Position) :
    (⟨kind, String.ofList text, pos⟩ : Lexeme).spelling = kind.spelling text := by
  rw [Lexeme.spelling, String.toList_ofList]

theorem column_le_of_mem_lexemes (h : l ∈ lexemes row column pieces) : column ≤ l.pos.column := by
  rcases exists_piece_of_mem_lexemes h with ⟨before, kind, text, after, rfl, rfl⟩ | rfl
  · exact Nat.le_add_right _ _
  · exact Nat.le_add_right _ _

/-- No piece of a row is empty. -/
theorem Scanned.spelling_ne_nil {piece : Piece} {rest : List Piece}
    (h : Scanned (piece :: rest)) : piece.spelling ≠ [] := by
  rcases h.1 with hregular | hunreadable
  · obtain ⟨c, more, hspelling⟩ := hregular.spelling_eq_cons
    rw [hspelling]
    exact List.cons_ne_nil _ _
  · cases piece with
    | blank c => exact hunreadable.elim
    | lexeme kind text =>
      obtain ⟨rfl, hne, -⟩ := hunreadable
      exact hne

/-- A lexeme ends before the next one starts. -/
theorem pairwise_lexemes (row column : Nat) (pieces : List Piece) :
    (lexemes row column pieces).Pairwise fun l m =>
      l.pos.column + l.spelling.length ≤ m.pos.column := by
  induction pieces generalizing column with
  | nil => exact List.pairwise_singleton _ _
  | cons piece rest ih =>
    cases piece with
    | blank c => exact ih (column + 1)
    | lexeme kind text =>
      refine List.pairwise_cons.2 ⟨?_, ih _⟩
      intro m hm
      rw [spelling_ofList]
      exact column_le_of_mem_lexemes hm

theorem pairwise_column_lexemes (h : Scanned pieces) :
    (lexemes row column pieces).Pairwise fun l m => l.pos.column < m.pos.column := by
  induction pieces generalizing column with
  | nil => exact List.pairwise_singleton _ _
  | cons piece rest ih =>
    cases piece with
    | blank c => exact ih h.2
    | lexeme kind text =>
      refine List.pairwise_cons.2 ⟨?_, ih h.2⟩
      intro m hm
      have hlength : 0 < (kind.spelling text).length := List.length_pos_iff.2 h.spelling_ne_nil
      have hle := column_le_of_mem_lexemes hm
      exact Nat.lt_of_lt_of_le (Nat.lt_add_of_pos_right hlength) hle

/-- The lexemes of a row without its end. -/
theorem exists_lexemes_eq_append (row column : Nat) (h : Scanned pieces) :
    ∃ before, lexemes row column pieces =
        before ++ [⟨.lineEnd, "", ⟨row, column + (join pieces).length⟩⟩] ∧
      ∀ l ∈ before, l.kind ≠ .lineEnd := by
  induction pieces generalizing column with
  | nil => exact ⟨[], rfl, List.forall_mem_nil _⟩
  | cons piece rest ih =>
    obtain ⟨before, heq, hkinds⟩ := ih (column + piece.spelling.length) h.2
    rw [Nat.add_assoc, ← List.length_append, ← join_cons] at heq
    cases piece with
    | blank c => exact ⟨before, heq, hkinds⟩
    | lexeme kind text =>
      refine ⟨⟨kind, String.ofList text, ⟨row, column⟩⟩ :: before, congrArg _ heq, ?_⟩
      refine List.forall_mem_cons.2 ⟨?_, hkinds⟩
      -- Neither the grammar nor an unexpected run has the kind of an end.
      rintro rfl
      rcases h.1 with hregular | hunreadable
      · exact hregular.1
      · cases hunreadable.1

/-- A lexeme stands between the pieces before it and the pieces behind it. -/
theorem standsIn_of_mem_lexemes (h : l ∈ lexemes row 1 pieces) : l.StandsIn (join pieces) := by
  rcases exists_piece_of_mem_lexemes h with ⟨before, kind, text, after, rfl, rfl⟩ | rfl
  · refine ⟨join before, join after, ?_, Nat.add_comm _ _⟩
    rw [spelling_ofList, join_append, join_cons, List.append_assoc]
    rfl
  · refine ⟨join pieces, [], ?_, Nat.add_comm _ _⟩
    rw [List.append_nil]
    exact (List.append_nil _).symm

/-- A character of a row lies in the stretch of a lexeme or is blank. -/
theorem spans_or_blank (row column : Nat) (h : Scanned pieces) {index : Nat} {c : Char}
    (hc : (join pieces)[index]? = some c) :
    (∃ l ∈ lexemes row column pieces, l.Spans (column + index)) ∨ isBlank c = true := by
  induction pieces generalizing column index with
  | nil => cases hc
  | cons piece rest ih =>
    rw [join_cons] at hc
    by_cases hfirst : index < piece.spelling.length
    · -- The character belongs to the first piece.
      rw [List.getElem?_append_left hfirst] at hc
      cases piece with
      | blank d =>
        obtain rfl := List.mem_singleton.1 (List.mem_of_getElem? hc)
        exact .inr (h.1.resolve_right id)
      | lexeme kind text =>
        refine .inl ⟨_, List.mem_cons_self, Nat.le_add_right _ _, ?_⟩
        rw [spelling_ofList]
        exact Nat.add_lt_add_left hfirst column
    · rw [List.getElem?_append_right (Nat.not_lt.1 hfirst)] at hc
      have hcolumn : column + piece.spelling.length + (index - piece.spelling.length) =
          column + index := by
        omega
      rcases ih (column + piece.spelling.length) h.2 hc with ⟨l, hl, hspans⟩ | hblank
      · rw [hcolumn] at hspans
        refine .inl ⟨l, ?_, hspans⟩
        cases piece with
        | blank d => exact hl
        | lexeme kind text => exact List.mem_cons_of_mem _ hl
      · exact .inr hblank

/-- An unexpected lexeme is an unreadable piece. -/
theorem unreadable_of_mem_lexemes (h : Scanned pieces) (hl : l ∈ lexemes row 1 pieces)
    (hkind : l.kind = .unexpected) :
    l.text.toList ≠ [] ∧ (∀ c ∈ l.text.toList, isBlank c = false) ∧
      ∀ c ∈ ((join pieces).drop (l.pos.column - 1 + l.text.toList.length)).head?,
        isBlank c = true := by
  rcases exists_piece_of_mem_lexemes hl with ⟨before, kind, text, after, rfl, rfl⟩ | rfl
  · obtain rfl : kind = .unexpected := hkind
    obtain ⟨-, hne, hblank, hends⟩ := (Chained.fits h).resolve_left fun hregular => hregular.1
    rw [String.toList_ofList]
    refine ⟨hne, hblank, ?_⟩
    have hdrop : (join (before ++ lexeme .unexpected text :: after)).drop
        (1 + (join before).length - 1 + text.length) = join after := by
      rw [join_append, join_cons, Nat.add_sub_cancel_left, ← List.drop_drop, List.drop_left]
      exact List.drop_left
    rw [hdrop]
    exact hends
  · cases hkind

end Piece

namespace Lexeme

/-- Every lexeme of a row stands where its column says. -/
theorem standsIn_ofRow {row : Nat} {line : String} {l : Lexeme} (h : l ∈ ofRow row line) :
    l.StandsIn line.toList := by
  obtain ⟨pieces, -, hjoin, hscan⟩ := Piece.exists_scansTo line.toList
  rw [ofRow, hscan] at h
  rw [← hjoin]
  exact Piece.standsIn_of_mem_lexemes h

end Lexeme

/-- The lexemes of any row take it apart without loss. -/
theorem covers_ofRow (row : Nat) (line : String) :
    Covers row line.toList (Lexeme.ofRow row line) := by
  obtain ⟨pieces, hscanned, hjoin, hscan⟩ := Piece.exists_scansTo line.toList
  have heq : Lexeme.ofRow row line = Piece.lexemes row 1 pieces := hscan row 1
  rw [← hjoin, heq]
  refine
    { inRow := heq ▸ fun _ => Lexeme.row_of_mem_scan
      ascending := Piece.pairwise_column_lexemes hscanned
      finish := ?_
      spelled := fun _ => Piece.standsIn_of_mem_lexemes
      disjoint := ?_
      gaps := ?_
      unexpected := fun _ => Piece.unreadable_of_mem_lexemes hscanned }
  · rw [Nat.add_comm]
    exact Piece.exists_lexemes_eq_append row 1 hscanned
  · refine (Piece.pairwise_lexemes row 1 pieces).imp ?_
    rintro l m hle column ⟨hl, hm⟩
    exact absurd (Nat.le_trans hle hm.1) (Nat.not_le.2 hl.2)
  · intro index c hc hnone
    rcases Piece.spans_or_blank row 1 hscanned hc with ⟨l, hl, hspans⟩ | hblank
    · rw [Nat.add_comm] at hspans
      exact absurd hspans (hnone l hl)
    · exact hblank

end Assembler65
