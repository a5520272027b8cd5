import Assembler65.Proofs.Grammar

/-!
# Words and their tokens

`Lexeme.Spells` says what a word is that is read as a token of a given kind
(`contribution_eq_token_iff`). `Inlines` pairs a word with its token once the constants are known:
a name has become a number or a reference, and all else stands as it was.
-/

set_option autoImplicit false

namespace Assembler65

namespace Numeral

/-- A numeral is read as a number within a word exactly if it has that number. -/
theorem getD_parse?_eq_iff {text : String} {n : Nat} (hn : n ≤ wordLimit) :
    (parse? text).getD hugeNumber = n ↔ number? text = some n := by
  rw [← parse?_eq_some_iff_of_le hn]
  cases parse? text with
  | some m => rw [Option.getD_some, Option.some.injEq]
  | none =>
    -- A numeral that cannot be read stands for a number beyond every word.
    rw [wordLimit] at hn
    rw [Option.getD_none, hugeNumber]
    refine iff_of_false ?_ (Option.some_ne_none n).symm
    omega

theorem toNat_byte {n : Nat} (h : n ≤ byteLimit) : (UInt8.ofNat n).toNat = n :=
  UInt8.toNat_ofNat_of_lt' (Nat.lt_succ_of_le h)

theorem toNat_word {n : Nat} (h : n ≤ wordLimit) : (UInt16.ofNat n).toNat = n :=
  UInt16.toNat_ofNat_of_lt' (Nat.lt_succ_of_le h)

theorem word?_eq_some_iff {n : Nat} {value : UInt16} :
    word? n = some value ↔ value.toNat = n := by
  rw [word?, Option.ite_none_right_eq_some, Option.some.injEq]
  constructor
  · rintro ⟨hn, rfl⟩
    exact toNat_word hn
  · rintro rfl
    exact ⟨Nat.le_of_lt_succ value.toNat_lt, UInt16.ofNat_toNat⟩

end Numeral

namespace Lexeme

/-- What a word is that is read as a token of a kind. -/
def Spells (l : Lexeme) : TokenKind → Prop
  | .number n => l.isNumeral = true ∧ (Numeral.parse? l.text).getD hugeNumber = n
  | .string text => l.kind = .string ∧ l.text = text
  | .opcode m => l.asMnemonic? = some m
  | .register r =>
    l.kind = .identifier ∧ Mnemonic.parse? l.text = none ∧ Register.parse? l.text = some r
  | .directive d => l.asDirective? = some d
  | .declaration name => l.kind = .declaration ∧ l.text = name
  | .identifier name => l.isName = true ∧ l.text = name
  | .reference _ | .label _ => False
  | .comma => l.kind = .comma
  | .hash => l.kind = .hash
  | .leftParen => l.kind = .leftParen
  | .rightParen => l.kind = .rightParen
  | .less => l.kind = .less
  | .greater => l.kind = .greater
  | .equal => l.kind = .equal

theorem contribution_eq_token_iff {l : Lexeme} {kind : TokenKind} :
    l.contribution = .token kind ↔ l.Spells kind := by
  cases hkind : l.kind with
  | identifier =>
    -- A mnemonic is looked for before a register, and a name is what is neither.
    cases hm : Mnemonic.parse? l.text with
    | some m =>
      cases kind <;>
        simp [contribution, Spells, hkind, hm, TokenKind.ofName, isNumeral, isName, isReserved,
          asMnemonic?, asDirective?]
    | none =>
      cases hr : Register.parse? l.text <;> cases kind <;>
        simp [contribution, Spells, hkind, hm, hr, TokenKind.ofName, isNumeral, isName,
          isReserved, asMnemonic?, asDirective?]
  | directive =>
    cases hd : Directive.parse? l.text <;> cases kind <;>
      simp [contribution, Spells, hkind, hd, isNumeral, isName, asMnemonic?, asDirective?]
  | _ =>
    cases kind <;> simp [contribution, Spells, hkind, isNumeral, isName, asMnemonic?, asDirective?]

theorem Spells.unique {l : Lexeme} {kind kind' : TokenKind} (h : l.Spells kind)
    (h' : l.Spells kind') : kind = kind' := by
  have heq := (contribution_eq_token_iff.2 h).symm.trans (contribution_eq_token_iff.2 h')
  exact Contribution.token.inj heq

/-- A word and its token. -/
structure Reads (l : Lexeme) (t : Token) : Prop where
  spells : l.Spells t.kind
  text : l.text = t.text
  pos : l.pos = t.pos

theorem token?_eq_some_iff_reads {l : Lexeme} {t : Token} : l.token? = some t ↔ l.Reads t := by
  rw [token?_eq_some_iff, contribution_eq_token_iff]
  constructor
  · rintro ⟨hspells, htext, hpos⟩
    exact ⟨hspells, htext, hpos⟩
  · rintro ⟨hspells, htext, hpos⟩
    exact ⟨hspells, htext, hpos⟩

theorem Reads.kind_eq_iff {l : Lexeme} {t : Token} (h : l.Reads t) {kind : TokenKind} :
    t.kind = kind ↔ l.Spells kind := by
  constructor
  · rintro rfl
    exact h.spells
  · exact h.spells.unique

/-- Among the directives, only the origin mark is no name. -/
theorem asDirective?_eq_origin_iff {l : Lexeme} :
    l.asDirective? = some .origin ↔ l.kind = .star := by
  constructor
  · intro h
    rw [asDirective?] at h
    split at h
    · assumption
    · rw [Directive.parse?] at h
      split at h <;> cases h
    · cases h
  · intro h
    rw [asDirective?, h]

theorem kind_of_asMnemonic? {l : Lexeme} {m : Mnemonic} (h : l.asMnemonic? = some m) :
    l.kind = .identifier := by
  rw [asMnemonic?, Option.ite_none_right_eq_some] at h
  exact h.1

theorem isNumeral_of_isName {l : Lexeme} (h : l.isName = true) : l.isNumeral = false := by
  rw [isName, Bool.and_eq_true, beq_iff_eq] at h
  rw [isNumeral, h.1]

theorem isNumeral_of_asDirective? {l : Lexeme} {d : Directive} (h : l.asDirective? = some d) :
    l.isNumeral = false := by
  rw [asDirective?] at h
  split at h
  case h_1 hkind => rw [isNumeral, hkind]
  case h_2 hkind => rw [isNumeral, hkind]
  case h_3 => cases h

theorem numeralFits_iff {l : Lexeme} :
    l.NumeralFits ↔
      (l.isNumeral = true → ∃ n, Numeral.number? l.text = some n ∧ n ≤ Numeral.wordLimit) := by
  refine imp_congr_right fun _ => ?_
  simp only [Numeral.number?_eq_some_iff]
  constructor
  · rintro ⟨kind, n, hform, hn⟩
    exact ⟨n, ⟨kind, hform⟩, hn⟩
  · rintro ⟨n, ⟨kind, hform⟩, hn⟩
    exact ⟨kind, n, hform, hn⟩

/-- A number whose numeral fits into a word has a value that does. -/
theorem exists_number? [Folding] {constants : Constants} {l : Lexeme}
    (h : l.isNumber constants = true) (hfits : l.NumeralFits) :
    ∃ n, l.number? constants = some n ∧ n ≤ Numeral.wordLimit := by
  rw [number?]
  by_cases hnumeral : l.isNumeral = true
  · rw [if_pos hnumeral]
    exact numeralFits_iff.1 hfits hnumeral
  · rw [isNumber, Bool.or_eq_true, Bool.and_eq_true] at h
    obtain ⟨hname, hcontains⟩ := h.resolve_left hnumeral
    obtain ⟨value, hvalue⟩ := Option.isSome_iff_exists.1 hcontains
    rw [if_neg hnumeral, if_pos hname, hvalue]
    exact ⟨value.toNat, rfl, Nat.le_of_lt_succ value.toNat_lt⟩

end Lexeme

/-! ## Constants in the place of their names -/

/-- A kind of token that holds a name. -/
def TokenKind.isNamed : TokenKind → Bool
  | declaration _ | identifier _ | reference _ => true
  | _ => false

/-- The kinds of tokens that may stand in the place of a name. -/
def TokenKind.replacesName : TokenKind → Bool
  | .number _ | .reference _ => true
  | _ => false

variable [Folding]

/-- A token once the constants are known. -/
def Token.inline (constants : Constants) (t : Token) : Token :=
  { t with kind := constants.inlineKind t.kind }

@[simp] theorem Token.kind_inline (constants : Constants) (t : Token) :
    (t.inline constants).kind = constants.inlineKind t.kind := rfl

/-- A word and its token once the constants are known. -/
def Inlines (constants : Constants) (word : Lexeme) (t : Token) : Prop :=
  ∃ raw, word.Reads raw ∧ t = raw.inline constants

namespace Inlines

variable {constants : Constants} {word : Lexeme} {t : Token}

theorem pos (h : Inlines constants word t) : word.pos = t.pos := by
  obtain ⟨raw, hreads, rfl⟩ := h
  exact hreads.pos

theorem text (h : Inlines constants word t) : word.text = t.text := by
  obtain ⟨raw, hreads, rfl⟩ := h
  exact hreads.text

/-- All tokens but names stand as they were. -/
theorem kind_eq (h : Inlines constants word t) {kind : TokenKind} (hspells : word.Spells kind)
    (hkeep : constants.inlineKind kind = kind) : t.kind = kind := by
  obtain ⟨raw, hreads, rfl⟩ := h
  rw [Token.kind_inline, hreads.spells.unique hspells, hkeep]

/-- A name is a number or a reference. -/
theorem kind_of_isName (h : Inlines constants word t) (hname : word.isName = true) :
    t.kind =
      match constants.find? word.text with
      | some value => .number value.toNat
      | none => .reference word.text := by
  obtain ⟨raw, hreads, rfl⟩ := h
  have hspells : word.Spells (.identifier word.text) := ⟨hname, rfl⟩
  rw [Token.kind_inline, hreads.spells.unique hspells]
  rfl

theorem kind_of_number? (h : Inlines constants word t) {n : Nat}
    (hn : word.number? constants = some n) (hfits : n ≤ Numeral.wordLimit) :
    t.kind = .number n := by
  rw [Lexeme.number?] at hn
  split at hn
  case isTrue hnumeral =>
    have hspells : word.Spells (.number n) :=
      ⟨hnumeral, (Numeral.getD_parse?_eq_iff hfits).2 hn⟩
    exact h.kind_eq hspells rfl
  case isFalse =>
    split at hn
    case isTrue hname =>
      obtain ⟨value, hvalue, rfl⟩ := Option.map_eq_some_iff.1 hn
      rw [h.kind_of_isName hname, hvalue]
    case isFalse => cases hn

/-- What a word was before the constants were known. -/
theorem cases_spells (h : Inlines constants word t) :
    (word.isName = true ∧ ∃ value, constants.find? word.text = some value ∧
        t.kind = .number value.toNat) ∨
      (word.isName = true ∧ constants.find? word.text = none ∧
        t.kind = .reference word.text) ∨
      (word.isName = false ∧ word.Spells t.kind) := by
  cases hname : word.isName with
  | true =>
    have hkind := h.kind_of_isName hname
    cases hfind : constants.find? word.text with
    | some value => exact .inl ⟨rfl, value, rfl, by rw [hkind, hfind]⟩
    | none => exact .inr (.inl ⟨rfl, rfl, by rw [hkind, hfind]⟩)
  | false =>
    refine .inr (.inr ⟨rfl, ?_⟩)
    obtain ⟨raw, hreads, rfl⟩ := h
    have hspells := hreads.spells
    rw [Token.kind_inline]
    cases hraw : raw.kind with
    -- Only names change their kind, and the word is none.
    | identifier name =>
      rw [hraw] at hspells
      cases hname.symm.trans hspells.1
    | _ =>
      rw [hraw] at hspells
      exact hspells

theorem isNumber (h : Inlines constants word t) {n : Nat} (hkind : t.kind = .number n) :
    word.isNumber constants = true := by
  rcases h.cases_spells with ⟨hname, value, hfind, -⟩ | ⟨-, -, hreference⟩ | ⟨-, hspells⟩
  · simp [Lexeme.isNumber, hname, SymbolTable.contains, hfind]
  · rw [hkind] at hreference
    cases hreference
  · rw [hkind] at hspells
    simp [Lexeme.isNumber, hspells.1]

/-- A token that does not stand in the place of a name is what its word spells. -/
theorem spells (h : Inlines constants word t) {kind : TokenKind} (hkind : t.kind = kind)
    (hplain : kind.replacesName = false) : word.Spells kind := by
  subst hkind
  rcases h.cases_spells with ⟨-, value, -, hkind⟩ | ⟨-, -, hkind⟩ | ⟨-, hspells⟩
  · rw [hkind] at hplain
    cases hplain
  · rw [hkind] at hplain
    cases hplain
  · exact hspells

/-- A number that fits into a word is the number of its word: no larger numeral is read as it. -/
theorem number?_eq (h : Inlines constants word t) {n : Nat} (hkind : t.kind = .number n)
    (hn : n ≤ Numeral.wordLimit) : word.number? constants = some n := by
  rcases h.cases_spells with ⟨hname, value, hfind, hvalue⟩ | ⟨-, -, hreference⟩ | ⟨-, hspells⟩
  · -- The word is the name of a constant, which is within a word already.
    rw [hkind] at hvalue
    rw [Lexeme.number?, Lexeme.isNumeral_of_isName hname, hname, hfind]
    exact congrArg some (TokenKind.number.inj hvalue).symm
  · rw [hkind] at hreference
    cases hreference
  · rw [hkind] at hspells
    obtain ⟨hnumeral, hvalue⟩ := hspells
    rw [Lexeme.number?, if_pos hnumeral]
    exact (Numeral.getD_parse?_eq_iff hn).1 hvalue

end Inlines

end Assembler65
