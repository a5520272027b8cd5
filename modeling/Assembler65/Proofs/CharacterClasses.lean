import Assembler65.Lexeme.Scanner
import Assembler65.Numeral
import Mathlib.Data.List.Basic

/-!
# Classes of characters by their codes

Each class of characters that lexemes are told apart by is a few ranges of codes. With the ranges
written out, that two classes have no character in common, or that one holds the other, is
arithmetic.
-/

set_option autoImplicit false

namespace Assembler65

theorem char_le_iff {c d : Char} : c ≤ d ↔ c.toNat ≤ d.toNat := UInt32.le_iff_toNat_le

theorem isDigit_iff {c : Char} : c.isDigit = true ↔ 48 ≤ c.toNat ∧ c.toNat ≤ 57 := by
  rw [Char.isDigit, Bool.and_eq_true, decide_eq_true_eq, decide_eq_true_eq]
  exact and_congr UInt32.le_iff_toNat_le UInt32.le_iff_toNat_le

theorem isAlpha_iff {c : Char} :
    c.isAlpha = true ↔ 65 ≤ c.toNat ∧ c.toNat ≤ 90 ∨ 97 ≤ c.toNat ∧ c.toNat ≤ 122 := by
  have hranges : c.isAlpha =
      (decide (c.val ≥ 65 ∧ c.val ≤ 90) || (decide (c.val ≥ 97) && decide (c.val ≤ 122))) := rfl
  simp only [hranges, Bool.or_eq_true, Bool.and_eq_true, decide_eq_true_eq]
  exact or_congr (and_congr UInt32.le_iff_toNat_le UInt32.le_iff_toNat_le)
    (and_congr UInt32.le_iff_toNat_le UInt32.le_iff_toNat_le)

/-! Of the letters only the capitals change with their case, and there are few of them. -/

theorem toLower_eq_or_capital (c : Char) : c.toLower = c ∨ ∃ n < 26, c = Char.ofNat (65 + n) := by
  by_cases h : c.val ≥ 65 ∧ c.val ≤ 90
  · have hlow : 65 ≤ c.toNat := UInt32.le_iff_toNat_le.1 h.1
    have hhigh : c.toNat ≤ 90 := UInt32.le_iff_toNat_le.1 h.2
    refine .inr ⟨c.toNat - 65, by omega, ?_⟩
    rw [Nat.add_sub_cancel' hlow, Char.ofNat_toNat]
  · exact .inl (dif_neg h)

theorem toLower_toLower_char (c : Char) : c.toLower.toLower = c.toLower := by
  rcases toLower_eq_or_capital c with hsame | ⟨n, hn, rfl⟩
  · rw [hsame, hsame]
  · revert n
    decide

theorem toUpper_toLower_char (c : Char) : c.toLower.toUpper = c.toUpper := by
  rcases toLower_eq_or_capital c with hsame | ⟨n, hn, rfl⟩
  · rw [hsame]
  · revert n
    decide

theorem isAlpha_toLower_char (c : Char) : c.toLower.isAlpha = c.isAlpha := by
  rcases toLower_eq_or_capital c with hsame | ⟨n, hn, rfl⟩
  · rw [hsame]
  · revert n
    decide

namespace Text

theorem isBlank_iff {c : Char} :
    isBlank c = true ↔
      9 ≤ c.toNat ∧ c.toNat ≤ 13 ∨ c.toNat = 32 ∨ c.toNat = 0x85 ∨ c.toNat = 0xA0 ∨
        c.toNat = 0x1680 ∨ 0x2000 ≤ c.toNat ∧ c.toNat ≤ 0x200A ∨ c.toNat = 0x2028 ∨
        c.toNat = 0x2029 ∨ c.toNat = 0x202F ∨ c.toNat = 0x205F ∨ c.toNat = 0x3000 := by
  simp only [isBlank, Bool.or_eq_true, Bool.and_eq_true, decide_eq_true_eq, beq_iff_eq, or_assoc]

end Text

namespace Lexeme

theorem startsName_iff {c : Char} :
    startsName c = true ↔
      65 ≤ c.toNat ∧ c.toNat ≤ 90 ∨ 97 ≤ c.toNat ∧ c.toNat ≤ 122 ∨ c = '_' := by
  rw [startsName, Bool.or_eq_true, isAlpha_iff, beq_iff_eq, or_assoc]

theorem inName_iff {c : Char} :
    inName c = true ↔
      65 ≤ c.toNat ∧ c.toNat ≤ 90 ∨ 97 ≤ c.toNat ∧ c.toNat ≤ 122 ∨
        48 ≤ c.toNat ∧ c.toNat ≤ 57 ∨ c = '_' := by
  rw [inName, Bool.or_eq_true, Char.isAlphanum, Bool.or_eq_true, isAlpha_iff, isDigit_iff,
    beq_iff_eq, or_assoc, or_assoc]

theorem isOctal_iff {c : Char} : isOctal c = true ↔ 48 ≤ c.toNat ∧ c.toNat ≤ 55 := by
  rw [isOctal, Bool.and_eq_true, decide_eq_true_eq, decide_eq_true_eq, char_le_iff, char_le_iff]
  rfl

theorem isHexadecimal_iff {c : Char} :
    isHexadecimal c = true ↔
      48 ≤ c.toNat ∧ c.toNat ≤ 57 ∨ 97 ≤ c.toNat ∧ c.toNat ≤ 102 ∨
        65 ≤ c.toNat ∧ c.toNat ≤ 70 := by
  rw [isHexadecimal, Bool.or_eq_true, Bool.or_eq_true, Bool.and_eq_true, Bool.and_eq_true,
    decide_eq_true_eq, decide_eq_true_eq, decide_eq_true_eq, decide_eq_true_eq, isDigit_iff,
    char_le_iff, char_le_iff, char_le_iff, char_le_iff, or_assoc]
  rfl

theorem isBinary_iff {c : Char} : isBinary c = true ↔ 48 ≤ c.toNat ∧ c.toNat ≤ 49 := by
  rw [isBinary, Bool.or_eq_true, beq_iff_eq, beq_iff_eq, ← Char.toNat_inj, ← Char.toNat_inj]
  simp only [Char.reduceToNat]
  omega

end Lexeme

namespace Numeral

theorem digitValue?_eq_some_iff {c : Char} {d : Nat} :
    digitValue? c = some d ↔
      48 ≤ c.toNat ∧ c.toNat ≤ 57 ∧ d = c.toNat - 48 ∨
        97 ≤ c.toNat ∧ c.toNat ≤ 102 ∧ d = c.toNat - 87 ∨
        65 ≤ c.toNat ∧ c.toNat ≤ 70 ∧ d = c.toNat - 55 := by
  simp only [digitValue?, Bool.and_eq_true, decide_eq_true_eq, char_le_iff, Char.reduceToNat]
  split
  case isTrue hdigit => rw [Option.some.injEq]; omega
  case isFalse hdigit =>
    split
    case isTrue hsmall => rw [Option.some.injEq]; omega
    case isFalse hsmall =>
      split
      case isTrue hcapital => rw [Option.some.injEq]; omega
      case isFalse hcapital => simp only [reduceCtorEq, false_iff]; omega

theorem isDigitIn_eq_true_iff {base : Nat} {c : Char} :
    isDigitIn base c = true ↔ ∃ d, digitValue? c = some d ∧ d < base := by
  rw [isDigitIn]
  cases digitValue? c with
  | none => simp
  | some d => simp

theorem isDigitIn_iff {base : Nat} {c : Char} :
    isDigitIn base c = true ↔
      48 ≤ c.toNat ∧ c.toNat ≤ 57 ∧ c.toNat < base + 48 ∨
        97 ≤ c.toNat ∧ c.toNat ≤ 102 ∧ c.toNat < base + 87 ∨
        65 ≤ c.toNat ∧ c.toNat ≤ 70 ∧ c.toNat < base + 55 := by
  rw [isDigitIn_eq_true_iff]
  constructor
  · rintro ⟨d, hd, hlt⟩
    rw [digitValue?_eq_some_iff] at hd
    omega
  · rintro (hdigit | hsmall | hcapital)
    · exact ⟨c.toNat - 48, digitValue?_eq_some_iff.2 (by omega), by omega⟩
    · exact ⟨c.toNat - 87, digitValue?_eq_some_iff.2 (by omega), by omega⟩
    · exact ⟨c.toNat - 55, digitValue?_eq_some_iff.2 (by omega), by omega⟩

/-! The digits of the four bases are the classes that numerals are read by. -/

theorem isDigitIn_ten_iff {c : Char} : isDigitIn 10 c = true ↔ c.isDigit = true := by
  rw [isDigitIn_iff, isDigit_iff]
  omega

theorem isDigitIn_eight_iff {c : Char} : isDigitIn 8 c = true ↔ Lexeme.isOctal c = true := by
  rw [isDigitIn_iff, Lexeme.isOctal_iff]
  omega

theorem isDigitIn_two_iff {c : Char} : isDigitIn 2 c = true ↔ Lexeme.isBinary c = true := by
  rw [isDigitIn_iff, Lexeme.isBinary_iff]
  omega

theorem isDigitIn_sixteen_iff {c : Char} :
    isDigitIn 16 c = true ↔ Lexeme.isHexadecimal c = true := by
  rw [isDigitIn_iff, Lexeme.isHexadecimal_iff]
  omega

end Numeral

end Assembler65
