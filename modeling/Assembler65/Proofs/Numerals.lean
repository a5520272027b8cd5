import Assembler65.Proofs.LexemeForms
import Assembler65.Text.Format
import Mathlib.Data.List.Forall2
import Mathlib.Data.List.Induction
import Mathlib.Data.Nat.Digits.Defs
import Mathlib.Tactic.IntervalCases

/-!
# Numerals and their values

`Numeral.Form` says which texts are numerals and what numbers they are, digit by digit, and
`Numeral.number?` finds the number of a text. The texts that have a value are the numerals of
numbers that are small enough (`Numeral.parse?_eq_some_iff`). The lexemes of a source spell their
numerals with digits of the right base (`Numeral.valid_of_mem_ofSource`). A number printed in
hexadecimal digits is the value of the numeral that they make (`Numeral.parse?_hexPadded`).
-/

set_option autoImplicit false

namespace Assembler65

/-- A numeral in any base. -/
def Lexeme.isNumeral (l : Lexeme) : Bool :=
  match l.kind with
  | .hexadecimal | .binary | .octal | .decimal => true
  | _ => false

namespace Numeral

/-! ## The syntax -/

/-- A character is the digit of a number below a base, in either letter case. -/
def IsDigitOf (base : Nat) (c : Char) (d : Nat) : Prop :=
  d < base ∧ (c = Nat.digitChar d ∨ c = (Nat.digitChar d).toUpper)

/-- Characters are the digits of a number, the most significant one first. -/
def Writes (base : Nat) (digits : List Char) (v : Nat) : Prop :=
  ∃ values, List.Forall₂ (IsDigitOf base) digits values ∧ v = Nat.ofDigits base values.reverse

/-- The numerals of each kind, with their numbers. A decimal numeral does not start with zero. -/
inductive Form : LexemeKind → List Char → Nat → Prop
  | hexadecimal {digits : List Char} {v : Nat} (hne : digits ≠ []) (hdigits : Writes 16 digits v) :
      Form .hexadecimal ('$' :: digits) v
  | binary {digits : List Char} {v : Nat} (hne : digits ≠ []) (hdigits : Writes 2 digits v) :
      Form .binary ('%' :: digits) v
  | octal {digits : List Char} {v : Nat} (hdigits : Writes 8 digits v) :
      Form .octal ('0' :: digits) v
  | decimal {c : Char} {digits : List Char} {v : Nat} (hzero : c ≠ '0')
      (hdigits : Writes 10 (c :: digits) v) :
      Form .decimal (c :: digits) v

/-! ## Values -/

/-- The base of a numeral, and its digits without the mark of the base. -/
def baseAndDigits : List Char → Nat × List Char
  | '$' :: digits => (16, digits)
  | '%' :: digits => (2, digits)
  | '0' :: d :: digits => (8, d :: digits)
  | digits => (10, digits)

/-- The number that a text is in its base. -/
def number (text : List Char) : Nat := positional (baseAndDigits text).1 (baseAndDigits text).2

/-- The value of a numeral of any size. -/
def value (s : String) : Nat := number s.toList

/-- A numeral with at least one digit, and with digits of its base only. -/
structure Valid (cs : List Char) : Prop where
  digits_ne_nil : (baseAndDigits cs).2 ≠ []
  isDigitIn_base : ∀ c ∈ (baseAndDigits cs).2, isDigitIn (baseAndDigits cs).1 c = true

theorem valid_iff {cs : List Char} :
    Valid cs ↔
      ((baseAndDigits cs).2.isEmpty ||
        !(baseAndDigits cs).2.all (isDigitIn (baseAndDigits cs).1)) = false := by
  rw [Bool.or_eq_false_iff, List.isEmpty_eq_false_iff, Bool.not_eq_false', List.all_eq_true]
  exact ⟨fun h => ⟨h.digits_ne_nil, h.isDigitIn_base⟩, fun h => ⟨h.1, h.2⟩⟩

instance (cs : List Char) : Decidable (Valid cs) := decidable_of_iff _ valid_iff.symm

/-- The number of any size that a text is. -/
def number? (s : String) : Option Nat := if Valid s.toList then some (value s) else none

theorem parse?_eq_ofDigits? (s : String) :
    parse? s = ofDigits? (baseAndDigits s.toList).1 (baseAndDigits s.toList).2 := by
  rw [parse?]
  generalize s.toList = cs
  split
  case h_1 => rfl
  case h_2 => rfl
  case h_3 => rfl
  case h_4 hhex hbin hoct => rw [baseAndDigits.eq_4 cs hhex hbin hoct]

/-- A valid numeral is read as its value, if that is not too large. -/
theorem parse?_of_valid {s : String} (h : Valid s.toList) :
    parse? s = if value s < 0x100000000 then some (value s) else none := by
  rw [parse?_eq_ofDigits?, ofDigits?, valid_iff.1 h]
  rfl

/-- Nothing but a valid numeral is read. -/
theorem parse?_of_not_valid {s : String} (h : ¬ Valid s.toList) : parse? s = none := by
  rw [parse?_eq_ofDigits?, ofDigits?]
  split
  case isTrue => rfl
  case isFalse hdigits => exact absurd (valid_iff.2 (Bool.eq_false_iff.2 hdigits)) h

/-! ## Digits -/

theorem positional_append (base : Nat) (digits : List Char) (c : Char) :
    positional base (digits ++ [c]) =
      positional base digits * base + (digitValue? c).getD 0 := by
  rw [positional, List.foldl_append]
  rfl

theorem digitValue?_digitChar {d : Nat} (h : d < 16) :
    digitValue? (Nat.digitChar d).toUpper = some d := by
  interval_cases d <;> rfl

theorem isDigitOf_iff {base : Nat} (hbase : base ≤ 16) {c : Char} {d : Nat} :
    IsDigitOf base c d ↔ digitValue? c = some d ∧ d < base := by
  constructor
  · rintro ⟨hd, hc⟩
    have hsmall : d < 16 := Nat.lt_of_lt_of_le hd hbase
    refine ⟨?_, hd⟩
    rcases hc with rfl | rfl
    · interval_cases d <;> rfl
    · exact digitValue?_digitChar hsmall
  · rintro ⟨hvalue, hd⟩
    refine ⟨hd, ?_⟩
    rw [← Char.toNat_inj, ← Char.toNat_inj]
    rw [digitValue?_eq_some_iff] at hvalue
    generalize c.toNat = n at hvalue
    rcases hvalue with ⟨hlow, hhigh, rfl⟩ | ⟨hlow, hhigh, rfl⟩ | ⟨hlow, hhigh, rfl⟩
    · left; interval_cases n <;> rfl
    · left; interval_cases n <;> rfl
    · right; interval_cases n <;> rfl

/-- The value of a digit. -/
def digit (c : Char) : Nat := (digitValue? c).getD 0

theorem forall₂_isDigitOf_iff {base : Nat} (hbase : base ≤ 16) {digits : List Char}
    {values : List Nat} :
    List.Forall₂ (IsDigitOf base) digits values ↔
      (∀ c ∈ digits, isDigitIn base c = true) ∧ values = digits.map digit := by
  induction digits generalizing values with
  | nil => simp
  | cons c digits ih =>
    rw [List.forall₂_cons_left_iff, List.forall_mem_cons, List.map_cons, isDigitIn_eq_true_iff]
    constructor
    · rintro ⟨d, rest, hd, hrest, rfl⟩
      obtain ⟨hvalue, hlt⟩ := (isDigitOf_iff hbase).1 hd
      obtain ⟨hdigits, rfl⟩ := ih.1 hrest
      refine ⟨⟨⟨d, hvalue, hlt⟩, hdigits⟩, ?_⟩
      rw [digit, hvalue, Option.getD_some]
    · rintro ⟨⟨⟨d, hvalue, hlt⟩, hdigits⟩, rfl⟩
      refine ⟨d, digits.map digit, (isDigitOf_iff hbase).2 ⟨hvalue, hlt⟩, ih.2 ⟨hdigits, rfl⟩, ?_⟩
      rw [digit, hvalue, Option.getD_some]

theorem positional_eq_ofDigits (base : Nat) (digits : List Char) :
    positional base digits = Nat.ofDigits base (digits.map digit).reverse := by
  -- From the end, where the least significant digit stands.
  induction digits using List.reverseRecOn with
  | nil => rfl
  | append_singleton front c ih =>
    rw [positional_append, ih, List.map_append, List.map_singleton, List.reverse_append,
      List.reverse_singleton, List.singleton_append, Nat.ofDigits_cons, digit, Nat.mul_comm,
      Nat.add_comm]

theorem writes_iff {base : Nat} (hbase : base ≤ 16) {digits : List Char} {v : Nat} :
    Writes base digits v ↔
      (∀ c ∈ digits, isDigitIn base c = true) ∧ v = positional base digits := by
  rw [positional_eq_ofDigits]
  constructor
  · rintro ⟨values, hvalues, rfl⟩
    obtain ⟨hdigits, rfl⟩ := (forall₂_isDigitOf_iff hbase).1 hvalues
    exact ⟨hdigits, rfl⟩
  · rintro ⟨hdigits, rfl⟩
    exact ⟨_, (forall₂_isDigitOf_iff hbase).2 ⟨hdigits, rfl⟩, rfl⟩

/-! ## Numerals in rows -/

theorem valid_hexadecimal {digits : List Char} (hne : digits ≠ [])
    (h : ∀ c ∈ digits, Lexeme.isHexadecimal c = true) : Valid ('$' :: digits) :=
  ⟨hne, fun c hc => isDigitIn_sixteen_iff.2 (h c hc)⟩

theorem valid_binary {digits : List Char} (hne : digits ≠ [])
    (h : ∀ c ∈ digits, Lexeme.isBinary c = true) : Valid ('%' :: digits) :=
  ⟨hne, fun c hc => isDigitIn_two_iff.2 (h c hc)⟩

/-- A zero alone is decimal, and octal digits follow any other. -/
theorem valid_octal {digits : List Char} (h : ∀ c ∈ digits, Lexeme.isOctal c = true) :
    Valid ('0' :: digits) := by
  cases digits with
  | nil => exact ⟨List.cons_ne_nil _ _, List.forall_mem_singleton.2 rfl⟩
  | cons d rest => exact ⟨List.cons_ne_nil _ _, fun c hc => isDigitIn_eight_iff.2 (h c hc)⟩

theorem baseAndDigits_decimal {c : Char} (hzero : c ≠ '0') (hc : c.isDigit = true)
    (digits : List Char) : baseAndDigits (c :: digits) = (10, c :: digits) := by
  unfold baseAndDigits
  split
  case h_1 heq => cases heq; cases hc
  case h_2 heq => cases heq; cases hc
  case h_3 heq => cases heq; exact absurd rfl hzero
  case h_4 => rfl

theorem valid_decimal {c : Char} {digits : List Char} (hzero : c ≠ '0')
    (h : ∀ d ∈ c :: digits, d.isDigit = true) : Valid (c :: digits) := by
  have hsplit := baseAndDigits_decimal hzero (h c List.mem_cons_self) digits
  refine ⟨by rw [hsplit]; exact List.cons_ne_nil _ _, ?_⟩
  rw [hsplit]
  exact fun d hd => isDigitIn_ten_iff.2 (h d hd)

/-- The kinds of lexemes that are numerals. -/
def kinds : List LexemeKind := [.hexadecimal, .binary, .octal, .decimal]

theorem cases_of_mem_kinds {kind : LexemeKind} (h : kind ∈ kinds) :
    kind = .hexadecimal ∨ kind = .binary ∨ kind = .octal ∨ kind = .decimal := by
  simpa [kinds] using h

/-- No mark is a numeral. -/
theorem not_mem_kinds_of_ofMark? {c : Char} {kind : LexemeKind}
    (h : LexemeKind.ofMark? c = some kind) : kind ∉ kinds := by
  unfold LexemeKind.ofMark? at h
  split at h <;> cases h <;> decide

/-- The texts of numerals are valid. -/
theorem valid_of_lexemeForm {kind : LexemeKind} {text : List Char} (hkind : kind ∈ kinds)
    (h : LexemeForm kind text) : Valid text := by
  cases h with
  | octal hdigits => exact valid_octal hdigits
  | decimal hzero hdigits => exact valid_decimal hzero hdigits
  | hexadecimal hne hdigits => exact valid_hexadecimal hne hdigits
  | binary hne hdigits => exact valid_binary hne hdigits
  | mark hmark => exact absurd hkind (not_mem_kinds_of_ofMark? hmark)
  | _ => simp [kinds] at hkind

theorem lexemeForm_of_mem_scan {row skip column : Nat} {cs : List Char} {l : Lexeme}
    (h : l ∈ Lexeme.scan row skip column cs) (hkind : l.kind ∈ kinds) :
    LexemeForm l.kind l.text.toList := by
  apply Lexeme.form_of_mem_scan h
  · intro heq
    simp [heq, kinds] at hkind
  · intro heq
    simp [heq, kinds] at hkind

/-! ## Forms are what is read -/

theorem number_octal (digits : List Char) : number ('0' :: digits) = positional 8 digits := by
  cases digits with
  | nil => rfl
  | cons d rest => rfl

theorem lexemeForm_of_form {kind : LexemeKind} {text : List Char} {v : Nat} (h : Form kind text v) :
    kind ∈ kinds ∧ LexemeForm kind text ∧ v = number text := by
  cases h with
  | hexadecimal hne hdigits =>
    obtain ⟨hclass, rfl⟩ := (writes_iff (by decide)).1 hdigits
    exact ⟨by decide, .hexadecimal hne fun d hd => isDigitIn_sixteen_iff.1 (hclass d hd), rfl⟩
  | binary hne hdigits =>
    obtain ⟨hclass, rfl⟩ := (writes_iff (by decide)).1 hdigits
    exact ⟨by decide, .binary hne fun d hd => isDigitIn_two_iff.1 (hclass d hd), rfl⟩
  | octal hdigits =>
    obtain ⟨hclass, rfl⟩ := (writes_iff (by decide)).1 hdigits
    refine ⟨by decide, .octal fun d hd => isDigitIn_eight_iff.1 (hclass d hd), ?_⟩
    exact (number_octal _).symm
  | @decimal c digits v hzero hdigits =>
    obtain ⟨hclass, rfl⟩ := (writes_iff (by decide)).1 hdigits
    have hdecimal : ∀ d ∈ c :: digits, d.isDigit = true :=
      fun d hd => isDigitIn_ten_iff.1 (hclass d hd)
    refine ⟨by decide, .decimal hzero hdecimal, ?_⟩
    rw [number, baseAndDigits_decimal hzero (hdecimal c List.mem_cons_self)]

theorem form_of_lexemeForm {kind : LexemeKind} {text : List Char} (hkind : kind ∈ kinds)
    (h : LexemeForm kind text) : Form kind text (number text) := by
  cases h with
  | hexadecimal hne hdigits =>
    refine .hexadecimal hne ((writes_iff (by decide)).2 ⟨?_, rfl⟩)
    exact fun d hd => isDigitIn_sixteen_iff.2 (hdigits d hd)
  | binary hne hdigits =>
    refine .binary hne ((writes_iff (by decide)).2 ⟨?_, rfl⟩)
    exact fun d hd => isDigitIn_two_iff.2 (hdigits d hd)
  | octal hdigits =>
    refine .octal ((writes_iff (by decide)).2 ⟨?_, number_octal _⟩)
    exact fun d hd => isDigitIn_eight_iff.2 (hdigits d hd)
  | @decimal c digits hzero hdigits =>
    refine .decimal hzero ((writes_iff (by decide)).2 ⟨?_, ?_⟩)
    · exact fun d hd => isDigitIn_ten_iff.2 (hdigits d hd)
    · rw [number, baseAndDigits_decimal hzero (hdigits c List.mem_cons_self)]
  | mark hmark => exact absurd hkind (not_mem_kinds_of_ofMark? hmark)
  | _ => simp [kinds] at hkind

/-- A valid numeral is of some kind. A zero alone counts as octal. -/
theorem exists_lexemeForm_of_valid {text : List Char} (h : Valid text) :
    ∃ kind ∈ kinds, LexemeForm kind text := by
  obtain ⟨hne, hdigits⟩ := h
  generalize hsplit : baseAndDigits text = split at hne hdigits
  unfold baseAndDigits at hsplit
  split at hsplit
  case h_1 =>
    cases hsplit
    exact ⟨_, by decide, .hexadecimal hne fun d hd => isDigitIn_sixteen_iff.1 (hdigits d hd)⟩
  case h_2 =>
    cases hsplit
    exact ⟨_, by decide, .binary hne fun d hd => isDigitIn_two_iff.1 (hdigits d hd)⟩
  case h_3 =>
    cases hsplit
    exact ⟨_, by decide, .octal fun d hd => isDigitIn_eight_iff.1 (hdigits d hd)⟩
  case h_4 hoctal =>
    cases hsplit
    obtain ⟨c, rest, rfl⟩ := List.exists_cons_of_ne_nil hne
    by_cases hzero : c = '0'
    · subst hzero
      cases rest with
      | nil => exact ⟨_, by decide, .octal (List.forall_mem_nil _)⟩
      | cons d rest => exact absurd rfl (hoctal d rest)
    · exact ⟨_, by decide, .decimal hzero fun d hd => isDigitIn_ten_iff.1 (hdigits d hd)⟩

theorem valid_iff_exists_form {text : List Char} :
    Valid text ↔ ∃ kind, Form kind text (number text) := by
  constructor
  · intro h
    obtain ⟨kind, hkind, hform⟩ := exists_lexemeForm_of_valid h
    exact ⟨kind, form_of_lexemeForm hkind hform⟩
  · rintro ⟨kind, h⟩
    obtain ⟨hkind, hform, -⟩ := lexemeForm_of_form h
    exact valid_of_lexemeForm hkind hform

/-- A numeral is read as its number, if that is not too large. -/
theorem parse?_of_form {s : String} {kind : LexemeKind} {v : Nat} (h : Form kind s.toList v) :
    parse? s = if v < 0x100000000 then some v else none := by
  obtain ⟨hkind, hform, rfl⟩ := lexemeForm_of_form h
  exact parse?_of_valid (valid_of_lexemeForm hkind hform)

/-- The texts that have a value are the numerals of a number that is not too large. -/
theorem parse?_eq_some_iff {s : String} {v : Nat} :
    parse? s = some v ↔ v < 0x100000000 ∧ ∃ kind, Form kind s.toList v := by
  constructor
  · intro hparse
    by_cases hvalid : Valid s.toList
    · obtain ⟨kind, hform⟩ := valid_iff_exists_form.1 hvalid
      rw [parse?_of_form hform, Option.ite_none_right_eq_some] at hparse
      obtain ⟨hsmall, hnumber⟩ := hparse
      cases hnumber
      exact ⟨hsmall, kind, hform⟩
    · rw [parse?_of_not_valid hvalid] at hparse
      cases hparse
  · rintro ⟨hsmall, kind, hform⟩
    rw [parse?_of_form hform, if_pos hsmall]

theorem number?_eq_some_iff {s : String} {v : Nat} :
    number? s = some v ↔ ∃ kind, Form kind s.toList v := by
  rw [number?, Option.ite_none_right_eq_some, Option.some.injEq, valid_iff_exists_form]
  constructor
  · rintro ⟨⟨kind, hform⟩, rfl⟩
    exact ⟨kind, hform⟩
  · rintro ⟨kind, hform⟩
    obtain ⟨hkind, hlexeme, rfl⟩ := lexemeForm_of_form hform
    exact ⟨⟨kind, hform⟩, rfl⟩

/-- A numeral that fits into a word is read as its number. -/
theorem parse?_eq_some_iff_of_le {s : String} {n : Nat} (h : n ≤ wordLimit) :
    parse? s = some n ↔ number? s = some n := by
  rw [parse?_eq_some_iff, number?_eq_some_iff]
  exact and_iff_right (Nat.lt_of_le_of_lt h (by decide))

theorem isNumeral_iff {l : Lexeme} : l.isNumeral = true ↔ l.kind ∈ kinds := by
  rw [Lexeme.isNumeral]
  cases l.kind <;> decide

/-- The numerals of a source are valid. -/
theorem valid_of_mem_ofSource {s : Source} {l : Lexeme} (h : l ∈ Lexeme.ofSource s)
    (hnumeral : l.isNumeral = true) : Valid l.text.toList := by
  obtain ⟨⟨row, line⟩, -, hl⟩ := List.mem_flatMap.1 h
  have hkind := isNumeral_iff.1 hnumeral
  exact valid_of_lexemeForm hkind (lexemeForm_of_mem_scan hl hkind)

/-! ## Numerals in print -/

open Text

/-- The digits of a number have it as their value. -/
theorem positional_toDigits (n : Nat) :
    positional 16 ((Nat.toDigits 16 n).map Char.toUpper) = n := by
  induction n using Nat.strong_induction_on with
  | _ n ih =>
    rcases Nat.lt_or_ge n 16 with hsmall | hlarge
    · rw [Nat.toDigits_of_lt_base hsmall, List.map_singleton, ← List.nil_append [_],
        positional_append, digitValue?_digitChar hsmall]
      simp [positional]
    · rw [Nat.toDigits_of_base_le (by decide) hlarge, List.map_append, List.map_singleton,
        positional_append, ih (n / 16) (by omega),
        digitValue?_digitChar (Nat.mod_lt n (by decide)), Option.getD_some]
      omega

/-- Zeros in front do not change a value. -/
theorem positional_zeros (base count : Nat) (digits : List Char) :
    positional base (List.replicate count '0' ++ digits) = positional base digits := by
  induction count with
  | zero => rfl
  | succ count ih =>
    rw [List.replicate_succ, List.cons_append, positional, List.foldl_cons]
    have hzero : 0 * base + (digitValue? '0').getD 0 = 0 := by
      rw [Nat.zero_mul]
      rfl
    rw [hzero]
    exact ih

theorem toList_hexPadded (width n : Nat) :
    ∃ count, (hexPadded width n).toList =
      List.replicate count '0' ++ (Nat.toDigits 16 n).map Char.toUpper :=
  ⟨_, by rw [hexPadded, fillLeft, String.toList_append, String.toList_ofList, hex,
    String.toList_ofList]⟩

theorem isHexadecimal_of_mem_toDigits {n : Nat} {c : Char}
    (h : c ∈ (Nat.toDigits 16 n).map Char.toUpper) : Lexeme.isHexadecimal c = true := by
  induction n using Nat.strong_induction_on with
  | _ n ih =>
    have hdigit : ∀ {d : Nat}, d < 16 →
        Lexeme.isHexadecimal (Nat.digitChar d).toUpper = true := by
      intro d hd
      interval_cases d <;> rfl
    rcases Nat.lt_or_ge n 16 with hsmall | hlarge
    · rw [Nat.toDigits_of_lt_base hsmall, List.map_singleton, List.mem_singleton] at h
      exact h ▸ hdigit hsmall
    · rw [Nat.toDigits_of_base_le (by decide) hlarge, List.map_append, List.map_singleton,
        List.mem_append, List.mem_singleton] at h
      rcases h with h | rfl
      · exact ih (n / 16) (by omega) h
      · exact hdigit (Nat.mod_lt n (by decide))

theorem isHexadecimal_of_mem_hexPadded {width n : Nat} {c : Char}
    (h : c ∈ (hexPadded width n).toList) : Lexeme.isHexadecimal c = true := by
  obtain ⟨count, hdigits⟩ := toList_hexPadded width n
  rw [hdigits, List.mem_append] at h
  rcases h with h | h
  · rw [List.eq_of_mem_replicate h]
    rfl
  · exact isHexadecimal_of_mem_toDigits h

theorem hexPadded_ne_nil (width n : Nat) : (hexPadded width n).toList ≠ [] := by
  obtain ⟨count, hdigits⟩ := toList_hexPadded width n
  rw [hdigits]
  simp [Nat.toDigits_ne_nil]

theorem toList_marked_hexPadded (width n : Nat) :
    ("$" ++ hexPadded width n).toList = '$' :: (hexPadded width n).toList := by
  rw [String.toList_append]
  rfl

theorem value_hexPadded (width n : Nat) : value ("$" ++ hexPadded width n) = n := by
  obtain ⟨count, hdigits⟩ := toList_hexPadded width n
  have hsplit : ∀ digits, baseAndDigits ('$' :: digits) = (16, digits) := fun _ => rfl
  simp only [value, number, toList_marked_hexPadded, hsplit, hdigits, positional_zeros,
    positional_toDigits]

/-- A number printed in hexadecimal digits is read back. -/
theorem parse?_hexPadded {width n : Nat} (h : n < 0x100000000) :
    parse? ("$" ++ hexPadded width n) = some n := by
  have hvalid : Valid ("$" ++ hexPadded width n).toList := by
    rw [toList_marked_hexPadded]
    exact valid_hexadecimal (hexPadded_ne_nil width n) fun _ => isHexadecimal_of_mem_hexPadded
  rw [parse?_of_valid hvalid, value_hexPadded, if_pos h]

end Numeral

end Assembler65
