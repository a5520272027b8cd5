import Assembler65.Image.Emission
import Assembler65.Statement.Addressing
import Mathlib.Data.List.Basic

/-!
# The forms of operands

`OperandForm` lists which operand a shape has in which addressing mode: an address is short or long,
a label is an address or a displacement, and an immediate operand is a byte or half of a word. What
is chosen for the tokens behind a mnemonic has one of these forms, in a mode that the mnemonic has
(`exists_operandForm`), so that what holds of every form holds of every choice. Conversely every form
in a mode of the mnemonic is chosen, but for an address of one byte that the mnemonic can take in a
zero-page mode (`chooseMode_of_operandForm`).
-/

set_option autoImplicit false

namespace Assembler65

/-- The shapes of an address, with their modes for a short and for a long one. -/
inductive AddressForm : (OperandValue → OperandShape) → Mode → Mode → Prop
  | direct : AddressForm .direct .zeroPage .absolute
  | indexedX : AddressForm .indexedX .zeroPageX .absoluteX
  | indexedY : AddressForm .indexedY .zeroPageY .absoluteY
  | indirect : AddressForm .indirect .zeroPageIndirect .absoluteIndirect
  | indexedIndirect :
      AddressForm .indexedIndirect .zeroPageIndexedIndirect .absoluteIndexedIndirect

/-- A shape, a mode and the operand that the shape has in this mode. -/
inductive OperandForm : OperandShape → Mode → Operand → Prop
  | implied : OperandForm .empty .implied .none
  | stack : OperandForm .empty .stack .none
  /-- The accumulator need not be written. -/
  | omitted : OperandForm .empty .accumulator .none
  | accumulator : OperandForm .accumulator .accumulator .none
  | short {make : OperandValue → OperandShape} {short long : Mode} {n : Nat}
      (hform : AddressForm make short long) (hfits : n ≤ Numeral.byteLimit) :
      OperandForm (make (.number n)) short (.byte (UInt8.ofNat n))
  | long {make : OperandValue → OperandShape} {short long : Mode} (n : Nat)
      (hform : AddressForm make short long) :
      OperandForm (make (.number n)) long (.word (UInt16.ofNat n))
  | label {make : OperandValue → OperandShape} {short long : Mode} (index : Nat)
      (hform : AddressForm make short long) :
      OperandForm (make (.label index)) long (.label index)
  | relative (index : Nat) : OperandForm (.direct (.label index)) .relative (.branch index)
  | bitBranch {n : Nat} (index : Nat) (hfits : n ≤ Numeral.byteLimit) :
      OperandForm (.pair n (.label index)) .zeroPageRelative (.bitBranch (UInt8.ofNat n) index)
  | immediate {n : Nat} (hfits : n ≤ Numeral.byteLimit) :
      OperandForm (.immediate n) .immediate (.byte (UInt8.ofNat n))
  | half (half : Half) (n : Nat) :
      OperandForm (.immediateHalf half (.number n)) .immediate
        (.byte (half.of (UInt16.ofNat n)))
  | labelHalf (half : Half) (index : Nat) :
      OperandForm (.immediateHalf half (.label index)) .immediate (.labelHalf index half)
  | indirectIndexed {n : Nat} (hfits : n ≤ Numeral.byteLimit) :
      OperandForm (.indirectIndexed (.number n)) .zeroPageIndirectIndexed (.byte (UInt8.ofNat n))

/-! ## Choices have a form -/

theorem operandForm_of_mem_addressCandidates {make : OperandValue → OperandShape}
    {short long : Mode} (hform : AddressForm make short long) {n : Nat} {choice : Candidate}
    (h : choice ∈ addressCandidates short long n) :
    OperandForm (make (.number n)) choice.1 choice.2 := by
  rw [addressCandidates] at h
  split at h
  case isTrue hfits =>
    rcases List.mem_pair.1 h with rfl | rfl
    · exact .short hform hfits
    · exact .long n hform
  case isFalse =>
    rw [List.mem_singleton.1 h]
    exact .long n hform

/-- Every candidate has a form, if an immediate number fits into a byte. -/
theorem operandForm_of_mem_candidates {m : Mnemonic} {shape : OperandShape}
    {options : List Candidate} (h : candidates m shape = .ok options)
    (hwide : ∀ n, shape = .immediate n → n ≤ Numeral.byteLimit) {choice : Candidate}
    (hmem : choice ∈ options) : OperandForm shape choice.1 choice.2 := by
  cases shape with
  | empty =>
    cases h
    simp only [List.mem_cons, List.not_mem_nil, or_false] at hmem
    rcases hmem with rfl | rfl | rfl
    · exact .implied
    · exact .stack
    · exact .omitted
  | accumulator => cases h; rw [List.mem_singleton.1 hmem]; exact .accumulator
  | direct v =>
    cases v with
    | number n =>
      rw [candidates] at h
      split at h
      · cases h
      · cases h
        exact operandForm_of_mem_addressCandidates .direct hmem
    | label index =>
      cases h
      rcases List.mem_pair.1 hmem with rfl | rfl
      · exact .label index .direct
      · exact .relative index
  | indexedX v =>
    cases v with
    | number n => cases h; exact operandForm_of_mem_addressCandidates .indexedX hmem
    | label index => cases h; rw [List.mem_singleton.1 hmem]; exact .label index .indexedX
  | indexedY v =>
    cases v with
    | number n => cases h; exact operandForm_of_mem_addressCandidates .indexedY hmem
    | label index => cases h; rw [List.mem_singleton.1 hmem]; exact .label index .indexedY
  | pair n v =>
    cases v with
    | number n' =>
      rw [candidates] at h
      split at h <;> cases h
    | label index =>
      rw [candidates] at h
      split at h
      case isTrue hfits =>
        cases h
        rw [List.mem_singleton.1 hmem]
        exact .bitBranch index hfits
      case isFalse => cases h
  | immediate n => cases h; rw [List.mem_singleton.1 hmem]; exact .immediate (hwide n rfl)
  | immediateHalf half v =>
    cases v with
    | number n => cases h; rw [List.mem_singleton.1 hmem]; exact .half half n
    | label index => cases h; rw [List.mem_singleton.1 hmem]; exact .labelHalf half index
  | indirect v =>
    cases v with
    | number n => cases h; exact operandForm_of_mem_addressCandidates .indirect hmem
    | label index => cases h; rw [List.mem_singleton.1 hmem]; exact .label index .indirect
  | indirectIndexed v =>
    cases v with
    | number n =>
      rw [candidates] at h
      split at h
      case isTrue hfits =>
        cases h
        rw [List.mem_singleton.1 hmem]
        exact .indirectIndexed hfits
      case isFalse => cases h
    | label index => cases h
  | indexedIndirect v =>
    cases v with
    | number n => cases h; exact operandForm_of_mem_addressCandidates .indexedIndirect hmem
    | label index => cases h; rw [List.mem_singleton.1 hmem]; exact .label index .indexedIndirect

theorem OperandShape.eq_of_ofKinds?_eq_immediate {kinds : List TokenKind} {n : Nat}
    (h : OperandShape.ofKinds? kinds = some (.immediate n)) : kinds = [.hash, .number n] := by
  unfold OperandShape.ofKinds? at h
  split at h
  case h_7 => cases h; rfl
  all_goals simp at h

/-- Of all operands, an immediate number alone can be too wide. -/
theorem wideImmediate?_eq_none_iff {tokens : List Token} :
    wideImmediate? tokens = none ↔
      ∀ n, tokens.map Token.kind = [.hash, .number n] → n ≤ Numeral.byteLimit := by
  unfold wideImmediate?
  split
  case h_1 text pos n text' pos' =>
    rw [ite_eq_right_iff]
    constructor
    · rintro h _ ⟨rfl⟩
      exact Nat.le_of_not_lt fun hwide => nomatch h hwide
    · intro h hwide
      exact absurd (h n rfl) (Nat.not_le_of_lt hwide)
  case h_2 hother =>
    refine ⟨fun _ n hkinds => ?_, fun _ => rfl⟩
    obtain ⟨⟨_, text, pos⟩, rest, rfl, rfl, hrest⟩ := List.map_eq_cons_iff.1 hkinds
    obtain ⟨⟨_, text', pos'⟩, rest', rfl, rfl, hnil⟩ := List.map_eq_cons_iff.1 hrest
    cases List.map_eq_nil_iff.1 hnil
    exact absurd rfl (hother text pos n text' pos')

/-- What is chosen is the first candidate that the mnemonic has, if an immediate number is not too
wide. -/
theorem chooseMode_eq_ok_iff {m : Mnemonic} {pos : Position} {tokens : List Token}
    {choice : Candidate} :
    chooseMode m pos tokens = .ok choice ↔
      ∃ shape options, OperandShape.ofKinds? (tokens.map Token.kind) = some shape ∧
        (∀ n, shape = .immediate n → n ≤ Numeral.byteLimit) ∧
        candidates m shape = .ok options ∧
        options.find? (fun c => m.supports c.1) = some choice := by
  constructor
  · intro h
    rw [chooseMode] at h
    split at h
    case h_1 => cases h
    case h_2 hwide =>
      split at h
      case h_1 => cases h
      case h_2 shape hshape =>
        cases hoptions : candidates m shape with
        | error cause =>
          rw [hoptions] at h
          cases h
        | ok options =>
          rw [hoptions] at h
          change (firstSupported m options).mapError _ = _ at h
          unfold firstSupported at h
          split at h
          case h_1 c hfind =>
            cases h
            refine ⟨shape, options, hshape, ?_, hoptions, hfind⟩
            rintro n rfl
            exact wideImmediate?_eq_none_iff.1 hwide n
              (OperandShape.eq_of_ofKinds?_eq_immediate hshape)
          case h_2 => split at h <;> cases h
  · rintro ⟨shape, options, hshape, hwide, hoptions, hfind⟩
    have hnarrow : wideImmediate? tokens = none := by
      rw [wideImmediate?_eq_none_iff]
      intro n hkinds
      rw [hkinds] at hshape
      exact hwide n (Option.some.inj hshape).symm
    rw [chooseMode, hnarrow]
    simp only [hshape, hoptions, Except.bind, firstSupported, hfind, Except.mapError]

/-- What is chosen has a form of the shape of the tokens, in a mode that the mnemonic has. -/
theorem exists_operandForm {m : Mnemonic} {pos : Position} {tokens : List Token} {mode : Mode}
    {operand : Operand} (h : chooseMode m pos tokens = .ok (mode, operand)) :
    ∃ shape, OperandShape.ofKinds? (tokens.map Token.kind) = some shape ∧
      OperandForm shape mode operand ∧ m.supports mode = true := by
  obtain ⟨shape, options, hshape, hwide, hoptions, hfind⟩ := chooseMode_eq_ok_iff.1 h
  have hform := operandForm_of_mem_candidates hoptions hwide (List.mem_of_find?_eq_some hfind)
  have hsupports := List.find?_some hfind
  exact ⟨shape, hshape, hform, hsupports⟩

/-! ## Forms are chosen -/

/-- Opcodes without an operand are for one mode only, and no branch has an address. -/
theorem Mnemonic.supports_eq_false (m : Mnemonic) :
    (m.supports .stack = true → m.supports .implied = false) ∧
      (m.supports .accumulator = true →
        m.supports .implied = false ∧ m.supports .stack = false) ∧
      (m.supports .zeroPage = true ∨ m.supports .absolute = true →
        m.supports .relative = false) := by
  have hall : ∀ m ∈ all, (m.supports .stack = true → m.supports .implied = false) ∧
      (m.supports .accumulator = true →
        m.supports .implied = false ∧ m.supports .stack = false) ∧
      (m.supports .zeroPage = true ∨ m.supports .absolute = true →
        m.supports .relative = false) := by
    decide +kernel
  exact hall m m.mem_all

section Choice

variable {m : Mnemonic} {shape : OperandShape} {mode : Mode} {operand : Operand}

namespace AddressForm

variable {make : OperandValue → OperandShape} {short long : Mode}

theorem ne_immediate (h : AddressForm make short long) (v : OperandValue) (n : Nat) :
    make v ≠ .immediate n := by
  cases h <;> exact OperandShape.noConfusion

theorem candidates_number (h : AddressForm make short long)
    (hsupports : m.supports short = true ∨ m.supports long = true) (n : Nat) :
    candidates m (make (.number n)) = .ok (addressCandidates short long n) := by
  cases h with
  | direct =>
    -- A branch would refuse the number.
    rw [candidates, if_neg]
    rw [m.supports_eq_false.2.2 hsupports]
    decide
  | _ => rfl

/-- A label is tried as an address before all else. -/
theorem candidates_label (h : AddressForm make short long) (index : Nat) :
    ∃ rest, candidates m (make (.label index)) = .ok ((long, .label index) :: rest) := by
  cases h with
  | direct => exact ⟨[(.relative, .branch index)], rfl⟩
  | _ => exact ⟨[], rfl⟩

end AddressForm

/-- A mnemonic takes an address of one byte in the zero-page mode, where it has this mode, and so in
no longer one. -/
def Mnemonic.Shortens (m : Mnemonic) (shape : OperandShape) (short long : Mode) (n : Nat) : Prop :=
  ∃ make, AddressForm make short long ∧ shape = make (.number n) ∧ n ≤ Numeral.byteLimit ∧
    m.supports short = true

/-- A form in a mode of the mnemonic comes before all other candidates that the mnemonic has, unless
it is shortened. -/
theorem OperandForm.exists_candidates (h : OperandForm shape mode operand)
    (hsupports : m.supports mode = true) (hlong : ∀ short n, ¬ m.Shortens shape short mode n) :
    ∃ options, candidates m shape = .ok options ∧
      options.find? (fun c => m.supports c.1) = some (mode, operand) := by
  obtain ⟨hstack, haccumulator, hrelative⟩ := m.supports_eq_false
  -- Most shapes have a single candidate.
  have hone : ∃ options, Except.ok [(mode, operand)] = (.ok options : Except Cause _) ∧
      options.find? (fun c => m.supports c.1) = some (mode, operand) :=
    ⟨_, rfl, by rw [List.find?_cons, hsupports]⟩
  cases h with
  | implied => exact ⟨_, rfl, by rw [List.find?_cons, hsupports]⟩
  | stack =>
    exact ⟨_, rfl, by simp only [List.find?_cons, hstack hsupports, hsupports]⟩
  | omitted =>
    obtain ⟨himplied, hstack⟩ := haccumulator hsupports
    exact ⟨_, rfl, by simp only [List.find?_cons, himplied, hstack, hsupports]⟩
  | accumulator => exact hone
  | short hform hfits =>
    refine ⟨_, hform.candidates_number (.inl hsupports) _, ?_⟩
    simp only [addressCandidates, if_pos hfits, List.find?_cons, hsupports]
  | @long make short long n hform =>
    refine ⟨_, hform.candidates_number (.inr hsupports) _, ?_⟩
    rw [addressCandidates]
    split
    case isTrue hfits =>
      have hshort : m.supports short = false :=
        Bool.eq_false_iff.2 fun hshort => hlong short n ⟨make, hform, rfl, hfits, hshort⟩
      simp only [List.find?_cons, hshort, hsupports]
    case isFalse => simp only [List.find?_cons, hsupports]
  | label index hform =>
    obtain ⟨rest, hrest⟩ := hform.candidates_label index
    exact ⟨_, hrest, by rw [List.find?_cons, hsupports]⟩
  | relative index =>
    have habsolute : m.supports .absolute = false := by
      refine Bool.eq_false_iff.2 fun habsolute => ?_
      rw [hrelative (.inr habsolute)] at hsupports
      cases hsupports
    exact ⟨_, rfl, by simp only [List.find?_cons, habsolute, hsupports]⟩
  | bitBranch index hfits =>
    rw [candidates, if_pos hfits]
    exact hone
  | immediate hfits => exact hone
  | half half n => exact hone
  | labelHalf half index => exact hone
  | indirectIndexed hfits =>
    rw [candidates, if_pos hfits]
    exact hone

theorem OperandForm.fits_of_immediate {n : Nat} (h : OperandForm shape mode operand)
    (hshape : shape = .immediate n) : n ≤ Numeral.byteLimit := by
  cases h with
  | immediate hfits => exact OperandShape.immediate.inj hshape ▸ hfits
  | short hform _ => exact absurd hshape (hform.ne_immediate _ n)
  | long _ hform => exact absurd hshape (hform.ne_immediate _ n)
  | label _ hform => exact absurd hshape (hform.ne_immediate _ n)
  | _ => cases hshape

/-- Every form in a mode of the mnemonic is chosen, unless it is shortened. -/
theorem chooseMode_of_operandForm {pos : Position} {tokens : List Token}
    (hshape : OperandShape.ofKinds? (tokens.map Token.kind) = some shape)
    (hform : OperandForm shape mode operand) (hsupports : m.supports mode = true)
    (hlong : ∀ short n, ¬ m.Shortens shape short mode n) :
    chooseMode m pos tokens = .ok (mode, operand) := by
  obtain ⟨options, hoptions, hfind⟩ := hform.exists_candidates hsupports hlong
  exact chooseMode_eq_ok_iff.2
    ⟨shape, options, hshape, fun n => hform.fits_of_immediate, hoptions, hfind⟩

end Choice

/-! ## What holds of every form -/

theorem AddressForm.operandLength {make : OperandValue → OperandShape} {short long : Mode}
    (h : AddressForm make short long) : short.operandLength = 1 ∧ long.operandLength = 2 := by
  cases h <;> exact ⟨rfl, rfl⟩

/-- The operand of a form takes the bytes that its mode sets aside. -/
theorem OperandForm.length_draft {shape : OperandShape} {mode : Mode} {operand : Operand}
    (h : OperandForm shape mode operand) : operand.draft.length = mode.operandLength := by
  cases h with
  | short hform hfits => rw [hform.operandLength.1]; rfl
  | long n hform => rw [hform.operandLength.2]; rfl
  | label index hform => rw [hform.operandLength.2]; rfl
  | _ => rfl

end Assembler65
