import Assembler65.Assembly
import Assembler65.Proofs.Numerals

/-!
# One syntax for all numerals

Main statement: `numeral_syntax_shared`, the rows that hold one numeral, the texts that have a value
and the texts that are an origin are told by one syntax, `Numeral.Form`.
-/

set_option autoImplicit false

namespace Assembler65

namespace Numeral

/-- A row that is the text of a numeral is read as that numeral. -/
theorem ofRow_of_lexemeForm {kind : LexemeKind} {s : String} (hkind : kind ∈ kinds)
    (h : LexemeForm kind s.toList) (row : Nat) :
    Lexeme.ofRow row s = [⟨kind, s, ⟨row, 1⟩⟩, ⟨.lineEnd, "", ⟨row, 1 + s.toList.length⟩⟩] := by
  -- Numerals are spelled as they are, and may end where the row does.
  have hspelling : kind.spelling s.toList = s.toList := by
    rcases cases_of_mem_kinds hkind with rfl | rfl | rfl | rfl <;> rfl
  have hends : kind.endsBefore [] = true := by cases kind <;> rfl
  have hscan := @Lexeme.scan_spelling_append row 1 _ _ _ h hends
  rw [hspelling, List.append_nil, String.ofList_toList] at hscan
  exact hscan

theorem contribution_of_mem_kinds {l : Lexeme} (h : l.kind ∈ kinds) :
    l.contribution = .token (.number ((parse? l.text).getD hugeNumber)) := by
  rw [Lexeme.contribution]
  rcases cases_of_mem_kinds h with hkind | hkind | hkind | hkind <;> rw [hkind]

/-- The number of a token is too large for a word exactly if that of its numeral is. -/
theorem wordLimit_lt_iff {s : String} {kind : LexemeKind} {v : Nat} (h : Form kind s.toList v) :
    wordLimit < (parse? s).getD hugeNumber ↔ wordLimit < v := by
  rw [parse?_of_form h, wordLimit, hugeNumber]
  split
  case isTrue => rfl
  case isFalse hlarge =>
    rw [Option.getD_none]
    omega

theorem originOfText_eq_ok_iff {s : String} {origin : UInt16} :
    originOfText s = .ok origin ↔ parse? s = some origin.toNat := by
  have horigin : origin.toNat ≤ wordLimit := Nat.le_of_lt_succ origin.toNat_lt
  rw [originOfText]
  cases hparse : parse? s with
  | none => simp
  | some v =>
    rw [Option.bind_some, word?, Option.some.injEq]
    split
    case h_1 address haddress =>
      rw [Option.ite_none_right_eq_some, Option.some.injEq] at haddress
      obtain ⟨hle, rfl⟩ := haddress
      rw [Except.ok.injEq, ← UInt16.toNat_inj, UInt16.toNat_ofNat_of_lt' (Nat.lt_succ_of_le hle)]
    case h_2 hnone =>
      rw [ite_eq_right_iff] at hnone
      refine iff_of_false nofun ?_
      rintro rfl
      exact absurd (hnone horigin) (Option.some_ne_none _)

end Numeral

/-- One syntax tells the numerals wherever they stand. A row is read as one numeral exactly if its
text is one; a numeral has its number as its value, unless that is too large to have one, and then
counts as too large for a word; no other text has a value; and the origins are the numerals that fit
into a word. -/
theorem numeral_syntax_shared (s : String) :
    (∀ row kind, (kind ∈ Numeral.kinds ∧ ∃ start finish,
        Lexeme.ofRow row s = [⟨kind, s, start⟩, ⟨.lineEnd, "", finish⟩]) ↔
      ∃ v, Numeral.Form kind s.toList v) ∧
      (∀ kind v, Numeral.Form kind s.toList v →
        Numeral.parse? s = (if v < 0x100000000 then some v else none) ∧
          ∀ pos, ∃ n, (⟨kind, s, pos⟩ : Lexeme).contribution = .token (.number n) ∧
            (Numeral.wordLimit < n ↔ Numeral.wordLimit < v)) ∧
      ((∀ kind v, ¬ Numeral.Form kind s.toList v) → Numeral.parse? s = none) ∧
      ∀ origin, originOfText s = .ok origin ↔ ∃ kind, Numeral.Form kind s.toList origin.toNat := by
  refine ⟨?_, ?_, ?_, ?_⟩
  · intro row kind
    constructor
    · rintro ⟨hkind, start, finish, hrow⟩
      have hmem : (⟨kind, s, start⟩ : Lexeme) ∈ Lexeme.ofRow row s := hrow ▸ List.mem_cons_self
      exact ⟨_, Numeral.form_of_lexemeForm hkind (Numeral.lexemeForm_of_mem_scan hmem hkind)⟩
    · rintro ⟨v, hform⟩
      obtain ⟨hkind, hlexeme, -⟩ := Numeral.lexemeForm_of_form hform
      exact ⟨hkind, _, _, Numeral.ofRow_of_lexemeForm hkind hlexeme row⟩
  · intro kind v hform
    obtain ⟨hkind, -, -⟩ := Numeral.lexemeForm_of_form hform
    refine ⟨Numeral.parse?_of_form hform, fun pos => ⟨_, ?_, Numeral.wordLimit_lt_iff hform⟩⟩
    exact Numeral.contribution_of_mem_kinds hkind
  · intro hnone
    rw [Option.eq_none_iff_forall_ne_some]
    intro v hparse
    obtain ⟨-, kind, hform⟩ := Numeral.parse?_eq_some_iff.1 hparse
    exact hnone kind v hform
  · intro origin
    rw [Numeral.originOfText_eq_ok_iff, Numeral.parse?_eq_some_iff]
    refine and_iff_right ?_
    exact Nat.lt_trans origin.toNat_lt (by decide)

theorem numeral_syntax_leadingZeros :
    Numeral.Form .hexadecimal "$0000000000000600".toList 0x600 ∧
      Numeral.parse? "$0000000000000600" = some 0x600 ∧
      originOfText "$0000000000000600" = .ok 0x600 ∧
      (∀ kind v, ¬ Numeral.Form kind "08".toList v) ∧ Numeral.parse? "08" = none := by
  have hdigits : Numeral.Writes 16 "0000000000000600".toList 0x600 :=
    (Numeral.writes_iff (by decide)).2 ⟨List.all_eq_true.1 (by decide), by decide⟩
  have hform : Numeral.Form .hexadecimal "$0000000000000600".toList 0x600 :=
    .hexadecimal (by decide) hdigits
  have hnone : ∀ kind v, ¬ Numeral.Form kind "08".toList v := by
    intro kind v h
    obtain ⟨hkind, hlexeme, -⟩ := Numeral.lexemeForm_of_form h
    have hvalid := Numeral.valid_of_lexemeForm hkind hlexeme
    have hdigit := hvalid.isDigitIn_base '8' (by decide)
    exact absurd hdigit (by decide)
  obtain ⟨-, hparse, -, horigin⟩ := numeral_syntax_shared "$0000000000000600"
  obtain ⟨-, -, hother, -⟩ := numeral_syntax_shared "08"
  exact ⟨hform, (hparse _ _ hform).1, (horigin 0x600).2 ⟨_, hform⟩, hnone, hother hnone⟩

end Assembler65
