import Assembler65.Proofs.Operations

/-!
# The surface forms of addressing modes

How the operand of a mode is written. `OperandShape.kinds` gives the tokens of a shape, and reading
tokens as a shape inverts it (`OperandShape.ofKinds?_eq_some_iff`), so that `SurfaceForm` says which
tokens stand for which operand in which mode without regard to how they are read. Main statement:
`chooseMode_sound_and_complete`, for every mnemonic the choice of a mode agrees with the opcode
table.
-/

set_option autoImplicit false

namespace Assembler65

/-! ## Tokens of shapes -/

/-- The token of a value. -/
def OperandValue.kind : OperandValue → TokenKind
  | .number n => .number n
  | .label index => .label index

/-- The token in front of a value of which an immediate operand takes half. -/
def Half.sign : Half → TokenKind
  | .low => .less
  | .high => .greater

/-- The tokens that a shape is written with. -/
def OperandShape.kinds : OperandShape → List TokenKind
  | .empty => []
  | .accumulator => [.register .a]
  | .direct v => [v.kind]
  | .indexedX v => [v.kind, .comma, .register .x]
  | .indexedY v => [v.kind, .comma, .register .y]
  | .pair n v => [.number n, .comma, v.kind]
  | .immediate n => [.hash, .number n]
  | .immediateHalf half v => [.hash, half.sign, v.kind]
  | .indirect v => [.leftParen, v.kind, .rightParen]
  | .indirectIndexed v => [.leftParen, v.kind, .rightParen, .comma, .register .y]
  | .indexedIndirect v => [.leftParen, v.kind, .comma, .register .x, .rightParen]

/-- Some tokens are written for a mode and stand for an operand. -/
def SurfaceForm (mode : Mode) (kinds : List TokenKind) (operand : Operand) : Prop :=
  ∃ shape : OperandShape, kinds = shape.kinds ∧ OperandForm shape mode operand

/-- Some tokens are an address of one byte, written in the form that a zero-page mode and an absolute
mode have in common. -/
def ShortAddress (kinds : List TokenKind) (short long : Mode) (n : Nat) : Prop :=
  n ≤ Numeral.byteLimit ∧
    ∃ make : OperandValue → OperandShape, AddressForm make short long ∧
      kinds = (make (.number n)).kinds

theorem TokenKind.value?_eq_some_iff {kind : TokenKind} {v : OperandValue} :
    kind.value? = some v ↔ kind = v.kind := by
  constructor
  · intro h
    cases kind with
    | number n => cases h; rfl
    | label index => cases h; rfl
    | _ => cases h
  · rintro rfl
    cases v <;> rfl

namespace OperandShape

/-- A shape around a value is written as the tokens around the token of the value. -/
theorem eq_kinds_of_value? {make : OperandValue → OperandShape} {kind : TokenKind}
    {shape : OperandShape} (write : TokenKind → List TokenKind)
    (hmake : ∀ v, (make v).kinds = write v.kind) (h : kind.value?.map make = some shape) :
    write kind = shape.kinds := by
  obtain ⟨v, hv, rfl⟩ := Option.map_eq_some_iff.1 h
  rw [TokenKind.value?_eq_some_iff.1 hv, hmake]

theorem eq_kinds_of_ofKinds? {kinds : List TokenKind} {shape : OperandShape}
    (h : ofKinds? kinds = some shape) : kinds = shape.kinds := by
  unfold ofKinds? at h
  split at h
  case h_1 => cases h; rfl
  case h_2 => cases h; rfl
  case h_3 => exact eq_kinds_of_value? (fun v => [v]) (fun _ => rfl) h
  case h_4 => exact eq_kinds_of_value? (fun v => [v, .comma, .register .x]) (fun _ => rfl) h
  case h_5 => exact eq_kinds_of_value? (fun v => [v, .comma, .register .y]) (fun _ => rfl) h
  case h_6 n _ _ _ =>
    exact eq_kinds_of_value? (fun v => [.number n, .comma, v]) (fun _ => rfl) h
  case h_7 => cases h; rfl
  case h_8 => exact eq_kinds_of_value? (fun v => [.hash, .less, v]) (fun _ => rfl) h
  case h_9 => exact eq_kinds_of_value? (fun v => [.hash, .greater, v]) (fun _ => rfl) h
  case h_10 => exact eq_kinds_of_value? (fun v => [.leftParen, v, .rightParen]) (fun _ => rfl) h
  case h_11 =>
    exact eq_kinds_of_value? (fun v => [.leftParen, v, .rightParen, .comma, .register .y])
      (fun _ => rfl) h
  case h_12 =>
    exact eq_kinds_of_value? (fun v => [.leftParen, v, .comma, .register .x, .rightParen])
      (fun _ => rfl) h
  case h_13 => cases h

theorem ofKinds?_kinds (shape : OperandShape) : ofKinds? shape.kinds = some shape := by
  cases shape with
  | empty => rfl
  | accumulator => rfl
  | immediate n => rfl
  | immediateHalf half v => cases half <;> cases v <;> rfl
  | direct v => cases v <;> rfl
  | indexedX v => cases v <;> rfl
  | indexedY v => cases v <;> rfl
  | pair n v => cases v <;> rfl
  | indirect v => cases v <;> rfl
  | indirectIndexed v => cases v <;> rfl
  | indexedIndirect v => cases v <;> rfl

/-- Tokens are read as a shape exactly if the shape is written with them. -/
theorem ofKinds?_eq_some_iff {kinds : List TokenKind} {shape : OperandShape} :
    ofKinds? kinds = some shape ↔ kinds = shape.kinds :=
  ⟨eq_kinds_of_ofKinds?, fun h => h ▸ ofKinds?_kinds shape⟩

theorem kinds_injective : Function.Injective kinds := by
  intro shape other h
  have hread : some shape = some other := by rw [← ofKinds?_kinds, ← ofKinds?_kinds other, h]
  exact Option.some.inj hread

end OperandShape

/-! ## Choices and surface forms -/

section Choice

variable {m : Mnemonic} {pos : Position} {tokens : List Token} {mode : Mode} {operand : Operand}

/-- A mnemonic shortens the short addresses of the zero-page modes that it has. -/
theorem Mnemonic.shortens_iff {shape : OperandShape} {short long : Mode} {n : Nat} :
    m.Shortens shape short long n ↔ ShortAddress shape.kinds short long n ∧ short ∈ m.modes := by
  constructor
  · rintro ⟨make, hform, rfl, hfits, hsupports⟩
    exact ⟨⟨hfits, make, hform, rfl⟩, mem_modes_iff.2 hsupports⟩
  · rintro ⟨⟨hfits, make, hform, hkinds⟩, hmode⟩
    exact ⟨make, hform, OperandShape.kinds_injective hkinds, hfits, mem_modes_iff.1 hmode⟩

theorem surfaceForm_of_chooseMode (h : chooseMode m pos tokens = .ok (mode, operand)) :
    mode ∈ m.modes ∧ SurfaceForm mode (tokens.map Token.kind) operand := by
  obtain ⟨shape, hshape, hform, hsupports⟩ := exists_operandForm h
  exact ⟨Mnemonic.mem_modes_iff.2 hsupports, shape, OperandShape.ofKinds?_eq_some_iff.1 hshape, hform⟩

theorem chooseMode_of_surfaceForm (hmode : mode ∈ m.modes)
    (h : SurfaceForm mode (tokens.map Token.kind) operand)
    (hlong : ∀ short n, ShortAddress (tokens.map Token.kind) short mode n → short ∉ m.modes) :
    chooseMode m pos tokens = .ok (mode, operand) := by
  obtain ⟨shape, hkinds, hform⟩ := h
  refine chooseMode_of_operandForm (OperandShape.ofKinds?_eq_some_iff.2 hkinds) hform
    (Mnemonic.mem_modes_iff.1 hmode) ?_
  intro short n hshortens
  obtain ⟨haddress, hshort⟩ := Mnemonic.shortens_iff.1 hshortens
  rw [← hkinds] at haddress
  exact hlong short n haddress hshort

/-- No mode is both the short and the long one of an address. -/
theorem AddressForm.not_chained {make other : OperandValue → OperandShape} {short long longest : Mode}
    (h : AddressForm make short long) : ¬ AddressForm other long longest := by
  cases h <;> exact nofun

/-- An address of one byte is taken in the zero-page mode, where the mnemonic has it. -/
theorem chooseMode_of_shortAddress {short long : Mode} {n : Nat}
    (h : ShortAddress (tokens.map Token.kind) short long n) (hshort : short ∈ m.modes) :
    chooseMode m pos tokens = .ok (short, .byte (UInt8.ofNat n)) := by
  obtain ⟨hfits, make, hform, hkinds⟩ := h
  refine chooseMode_of_surfaceForm hshort ⟨_, hkinds, .short hform hfits⟩ ?_
  rintro shorter _ ⟨-, other, hother, -⟩
  exact absurd hform hother.not_chained

theorem ShortAddress.ne {kinds : List TokenKind} {short long : Mode} {n : Nat}
    (h : ShortAddress kinds short long n) : short ≠ long := by
  obtain ⟨-, make, hform, -⟩ := h
  rintro rfl
  exact hform.not_chained hform

/-- Every mode has a surface form that is no short address. -/
theorem Mode.exists_surfaceForm (mode : Mode) :
    ∃ kinds operand, SurfaceForm mode kinds operand ∧
      ∀ short n, ¬ ShortAddress kinds short mode n := by
  -- A zero-page mode is the long one of no address.
  have hnone : ∀ {kinds operand}, SurfaceForm mode kinds operand →
      (∀ make short, ¬ AddressForm make short mode) → ∃ kinds operand,
        SurfaceForm mode kinds operand ∧ ∀ short n, ¬ ShortAddress kinds short mode n := by
    intro kinds operand hform hmode
    refine ⟨kinds, operand, hform, ?_⟩
    rintro short n ⟨-, make, haddress, -⟩
    exact hmode make short haddress
  -- An absolute mode takes a label, which is no number.
  have hlabel : ∀ {make short}, AddressForm make short mode → ∃ kinds operand,
      SurfaceForm mode kinds operand ∧ ∀ short n, ¬ ShortAddress kinds short mode n := by
    intro make short haddress
    refine ⟨(make (.label 0)).kinds, .label 0, ⟨_, rfl, .label 0 haddress⟩, ?_⟩
    rintro short' n ⟨-, other, hother, hkinds⟩
    have hshape := OperandShape.kinds_injective hkinds
    cases haddress <;> cases hother <;> cases hshape
  have hzero : 0 ≤ Numeral.byteLimit := Nat.zero_le _
  cases mode with
  | implied => exact hnone ⟨_, rfl, .implied⟩ nofun
  | stack => exact hnone ⟨_, rfl, .stack⟩ nofun
  | accumulator => exact hnone ⟨_, rfl, .accumulator⟩ nofun
  | immediate => exact hnone ⟨_, rfl, .immediate hzero⟩ nofun
  | zeroPage => exact hnone ⟨_, rfl, .short .direct hzero⟩ nofun
  | zeroPageX => exact hnone ⟨_, rfl, .short .indexedX hzero⟩ nofun
  | zeroPageY => exact hnone ⟨_, rfl, .short .indexedY hzero⟩ nofun
  | zeroPageIndirect => exact hnone ⟨_, rfl, .short .indirect hzero⟩ nofun
  | zeroPageIndexedIndirect => exact hnone ⟨_, rfl, .short .indexedIndirect hzero⟩ nofun
  | zeroPageIndirectIndexed => exact hnone ⟨_, rfl, .indirectIndexed hzero⟩ nofun
  | zeroPageRelative => exact hnone ⟨_, rfl, .bitBranch 0 hzero⟩ nofun
  | relative => exact hnone ⟨_, rfl, .relative 0⟩ nofun
  | absolute => exact hlabel .direct
  | absoluteX => exact hlabel .indexedX
  | absoluteY => exact hlabel .indexedY
  | absoluteIndirect => exact hlabel .indirect
  | absoluteIndexedIndirect => exact hlabel .indexedIndirect

end Choice

/-- The choice of a mode agrees with the opcode table. What is chosen is a mode that the mnemonic has,
with a surface form for the tokens, and an address of one byte takes an absolute mode only where the
mnemonic lacks the zero-page mode; all such forms are chosen, and a zero-page mode is chosen wherever
it can be. So every choice makes an operation, and every opcode is that of some operation. -/
theorem chooseMode_sound_and_complete (m : Mnemonic) (pos : Position) :
    (∀ tokens mode operand, chooseMode m pos tokens = .ok (mode, operand) ↔
      mode ∈ m.modes ∧ SurfaceForm mode (tokens.map Token.kind) operand ∧
        ∀ short n, ShortAddress (tokens.map Token.kind) short mode n → short ∉ m.modes) ∧
      (∀ tokens short long n, ShortAddress (tokens.map Token.kind) short long n →
        short ∈ m.modes → chooseMode m pos tokens = .ok (short, .byte (UInt8.ofNat n))) ∧
      (∀ tokens mode operand, chooseMode m pos tokens = .ok (mode, operand) →
        ∃ code, encode m mode = some code ∧
          operationItem m pos tokens = .ok (.operation ⟨m, mode⟩ code operand)) ∧
      ∀ mode code, encode m mode = some code →
        ∃ tokens operand, operationItem m pos tokens = .ok (.operation ⟨m, mode⟩ code operand) := by
  refine ⟨?_, ?_, ?_, ?_⟩
  · intro tokens mode operand
    constructor
    · intro hchoice
      obtain ⟨hmode, hform⟩ := surfaceForm_of_chooseMode hchoice
      refine ⟨hmode, hform, ?_⟩
      -- With the zero-page mode, that one would have been chosen.
      intro short n haddress hshort
      rw [chooseMode_of_shortAddress haddress hshort] at hchoice
      cases hchoice
      exact haddress.ne rfl
    · rintro ⟨hmode, hform, hlong⟩
      exact chooseMode_of_surfaceForm hmode hform hlong
  · intro tokens short long n haddress hshort
    exact chooseMode_of_shortAddress haddress hshort
  · intro tokens mode operand hchoice
    obtain ⟨code, hcode⟩ := exists_encode_of_chooseMode hchoice
    exact ⟨code, hcode, operationItem_eq_ok_iff.2 ⟨mode, operand, code, hchoice, hcode, rfl⟩⟩
  · intro mode code hcode
    obtain ⟨kinds, operand, hform, hlong⟩ := mode.exists_surfaceForm
    refine ⟨kinds.map fun kind => ⟨kind, "", pos⟩, operand, ?_⟩
    have hkinds : (kinds.map fun kind => (⟨kind, "", pos⟩ : Token)).map Token.kind = kinds := by
      rw [List.map_map]
      exact List.map_id kinds
    have hmode : mode ∈ m.modes := by
      rw [Mnemonic.mem_modes_iff, hcode]
      rfl
    refine operationItem_eq_ok_iff.2 ⟨mode, operand, code, ?_, hcode, rfl⟩
    apply chooseMode_of_surfaceForm hmode
    · rw [hkinds]
      exact hform
    · rw [hkinds]
      exact fun short n haddress => absurd haddress (hlong short n)

/-- The tokens of `$10,Y`. -/
def shortIndexed : List Token :=
  [⟨.number 0x10, "$10", ⟨1, 5⟩⟩, ⟨.comma, ",", ⟨1, 8⟩⟩, ⟨.register .y, "Y", ⟨1, 9⟩⟩]

/-- Of the two mnemonics only `LDX` has the zero-page mode, and `LDA` takes the same tokens in the
absolute mode. -/
theorem chooseMode_shortIndexed :
    ShortAddress (shortIndexed.map Token.kind) .zeroPageY .absoluteY 0x10 ∧
      Mode.zeroPageY ∉ Mnemonic.lda.modes ∧
      chooseMode .lda ⟨1, 1⟩ shortIndexed = .ok (.absoluteY, .word 0x10) ∧
      Mode.zeroPageY ∈ Mnemonic.ldx.modes ∧
      chooseMode .ldx ⟨1, 1⟩ shortIndexed = .ok (.zeroPageY, .byte 0x10) := by
  have haddress : ShortAddress (shortIndexed.map Token.kind) .zeroPageY .absoluteY 0x10 :=
    ⟨by decide, .indexedY, .indexedY, rfl⟩
  have hlda : Mode.zeroPageY ∉ Mnemonic.lda.modes := by decide
  have hldx : Mode.zeroPageY ∈ Mnemonic.ldx.modes := by decide
  refine ⟨haddress, hlda, ?_, hldx, ?_⟩
  · refine ((chooseMode_sound_and_complete .lda ⟨1, 1⟩).1 shortIndexed .absoluteY (.word 0x10)).2 ?_
    refine ⟨by decide, ⟨.indexedY (.number 0x10), rfl, .long 0x10 .indexedY⟩, ?_⟩
    rintro short n ⟨-, make, hform, -⟩
    cases hform
    exact hlda
  · exact (chooseMode_sound_and_complete .ldx ⟨1, 1⟩).2.1 _ _ _ _ haddress hldx

end Assembler65
