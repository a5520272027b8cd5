import Assembler65.Isa.Mnemonic
import Assembler65.Isa.Mode

/-!
# The opcode table

`Mnemonic.encodings` lists, for each mnemonic, the addressing modes it has and the opcode byte of
each. `encode`, `decode` and `modes` are all read off this one table, so they cannot disagree.
-/

set_option autoImplicit false

namespace Assembler65

/-- A bit number as a byte. -/
def bitByte (b : BitIndex) : UInt8 := UInt8.ofNat b.val

/-- The addressing modes of a mnemonic with their opcode bytes. -/
def Mnemonic.encodings : Mnemonic → List (Mode × UInt8)
  | .adc => [(.immediate, 0x69), (.zeroPage, 0x65), (.zeroPageX, 0x75), (.absolute, 0x6D),
      (.absoluteX, 0x7D), (.absoluteY, 0x79), (.zeroPageIndexedIndirect, 0x61),
      (.zeroPageIndirectIndexed, 0x71), (.zeroPageIndirect, 0x72)]
  | .and => [(.immediate, 0x29), (.zeroPage, 0x25), (.zeroPageX, 0x35), (.absolute, 0x2D),
      (.absoluteX, 0x3D), (.absoluteY, 0x39), (.zeroPageIndexedIndirect, 0x21),
      (.zeroPageIndirectIndexed, 0x31), (.zeroPageIndirect, 0x32)]
  | .asl => [(.accumulator, 0x0A), (.zeroPage, 0x06), (.zeroPageX, 0x16), (.absolute, 0x0E),
      (.absoluteX, 0x1E)]
  | .bbr b => [(.zeroPageRelative, 0x0F + 0x10 * bitByte b)]
  | .bbs b => [(.zeroPageRelative, 0x8F + 0x10 * bitByte b)]
  | .bcc => [(.relative, 0x90)]
  | .bcs => [(.relative, 0xB0)]
  | .beq => [(.relative, 0xF0)]
  | .bit => [(.immediate, 0x89), (.zeroPage, 0x24), (.zeroPageX, 0x34), (.absolute, 0x2C),
      (.absoluteX, 0x3C)]
  | .bmi => [(.relative, 0x30)]
  | .bne => [(.relative, 0xD0)]
  | .bpl => [(.relative, 0x10)]
  | .bra => [(.relative, 0x80)]
  | .brk => [(.stack, 0x00)]
  | .bvc => [(.relative, 0x50)]
  | .bvs => [(.relative, 0x70)]
  | .clc => [(.implied, 0x18)]
  | .cld => [(.implied, 0xD8)]
  | .cli => [(.implied, 0x58)]
  | .clv => [(.implied, 0xB8)]
  | .cmp => [(.immediate, 0xC9), (.zeroPage, 0xC5), (.zeroPageX, 0xD5), (.absolute, 0xCD),
      (.absoluteX, 0xDD), (.absoluteY, 0xD9), (.zeroPageIndexedIndirect, 0xC1),
      (.zeroPageIndirectIndexed, 0xD1), (.zeroPageIndirect, 0xD2)]
  | .cpx => [(.immediate, 0xE0), (.zeroPage, 0xE4), (.absolute, 0xEC)]
  | .cpy => [(.immediate, 0xC0), (.zeroPage, 0xC4), (.absolute, 0xCC)]
  | .dec => [(.accumulator, 0x3A), (.zeroPage, 0xC6), (.zeroPageX, 0xD6), (.absolute, 0xCE),
      (.absoluteX, 0xDE)]
  | .dex => [(.implied, 0xCA)]
  | .dey => [(.implied, 0x88)]
  | .eor => [(.immediate, 0x49), (.zeroPage, 0x45), (.zeroPageX, 0x55), (.absolute, 0x4D),
      (.absoluteX, 0x5D), (.absoluteY, 0x59), (.zeroPageIndexedIndirect, 0x41),
      (.zeroPageIndirectIndexed, 0x51), (.zeroPageIndirect, 0x52)]
  | .inc => [(.accumulator, 0x1A), (.zeroPage, 0xE6), (.zeroPageX, 0xF6), (.absolute, 0xEE),
      (.absoluteX, 0xFE)]
  | .inx => [(.implied, 0xE8)]
  | .iny => [(.implied, 0xC8)]
  | .jmp => [(.absolute, 0x4C), (.absoluteIndirect, 0x6C), (.absoluteIndexedIndirect, 0x7C)]
  | .jsr => [(.absolute, 0x20)]
  | .lda => [(.immediate, 0xA9), (.zeroPage, 0xA5), (.zeroPageX, 0xB5), (.absolute, 0xAD),
      (.absoluteX, 0xBD), (.absoluteY, 0xB9), (.zeroPageIndexedIndirect, 0xA1),
      (.zeroPageIndirectIndexed, 0xB1), (.zeroPageIndirect, 0xB2)]
  | .ldx => [(.immediate, 0xA2), (.zeroPage, 0xA6), (.zeroPageY, 0xB6), (.absolute, 0xAE),
      (.absoluteY, 0xBE)]
  | .ldy => [(.immediate, 0xA0), (.zeroPage, 0xA4), (.zeroPageX, 0xB4), (.absolute, 0xAC),
      (.absoluteX, 0xBC)]
  | .lsr => [(.accumulator, 0x4A), (.zeroPage, 0x46), (.zeroPageX, 0x56), (.absolute, 0x4E),
      (.absoluteX, 0x5E)]
  | .nop => [(.implied, 0xEA)]
  | .ora => [(.immediate, 0x09), (.zeroPage, 0x05), (.zeroPageX, 0x15), (.absolute, 0x0D),
      (.absoluteX, 0x1D), (.absoluteY, 0x19), (.zeroPageIndexedIndirect, 0x01),
      (.zeroPageIndirectIndexed, 0x11), (.zeroPageIndirect, 0x12)]
  | .pha => [(.stack, 0x48)]
  | .php => [(.stack, 0x08)]
  | .phx => [(.stack, 0xDA)]
  | .phy => [(.stack, 0x5A)]
  | .pla => [(.stack, 0x68)]
  | .plp => [(.stack, 0x28)]
  | .plx => [(.stack, 0xFA)]
  | .ply => [(.stack, 0x7A)]
  | .rmb b => [(.zeroPage, 0x07 + 0x10 * bitByte b)]
  | .rol => [(.accumulator, 0x2A), (.zeroPage, 0x26), (.zeroPageX, 0x36), (.absolute, 0x2E),
      (.absoluteX, 0x3E)]
  | .ror => [(.accumulator, 0x6A), (.zeroPage, 0x66), (.zeroPageX, 0x76), (.absolute, 0x6E),
      (.absoluteX, 0x7E)]
  | .rti => [(.stack, 0x40)]
  | .rts => [(.stack, 0x60)]
  | .sbc => [(.immediate, 0xE9), (.zeroPage, 0xE5), (.zeroPageX, 0xF5), (.absolute, 0xED),
      (.absoluteX, 0xFD), (.absoluteY, 0xF9), (.zeroPageIndexedIndirect, 0xE1),
      (.zeroPageIndirectIndexed, 0xF1), (.zeroPageIndirect, 0xF2)]
  | .sec => [(.implied, 0x38)]
  | .sed => [(.implied, 0xF8)]
  | .sei => [(.implied, 0x78)]
  | .smb b => [(.zeroPage, 0x87 + 0x10 * bitByte b)]
  | .sta => [(.zeroPage, 0x85), (.zeroPageX, 0x95), (.absolute, 0x8D), (.absoluteX, 0x9D),
      (.absoluteY, 0x99), (.zeroPageIndexedIndirect, 0x81), (.zeroPageIndirectIndexed, 0x91),
      (.zeroPageIndirect, 0x92)]
  | .stp => [(.implied, 0xDB)]
  | .stx => [(.zeroPage, 0x86), (.zeroPageY, 0x96), (.absolute, 0x8E)]
  | .sty => [(.zeroPage, 0x84), (.zeroPageX, 0x94), (.absolute, 0x8C)]
  | .stz => [(.zeroPage, 0x64), (.zeroPageX, 0x74), (.absolute, 0x9C), (.absoluteX, 0x9E)]
  | .tax => [(.implied, 0xAA)]
  | .tay => [(.implied, 0xA8)]
  | .trb => [(.zeroPage, 0x14), (.absolute, 0x1C)]
  | .tsb => [(.zeroPage, 0x04), (.absolute, 0x0C)]
  | .tsx => [(.implied, 0xBA)]
  | .txa => [(.implied, 0x8A)]
  | .txs => [(.implied, 0x9A)]
  | .tya => [(.implied, 0x98)]
  | .wai => [(.implied, 0xCB)]

/-- A mnemonic in one addressing mode. -/
structure Instruction where
  mnemonic : Mnemonic
  mode : Mode
  deriving DecidableEq, Repr

/-- Every instruction of the processor with its opcode byte. -/
def opcodeTable : List (Instruction × UInt8) :=
  Mnemonic.all.flatMap fun m => m.encodings.map fun (mode, code) => (⟨m, mode⟩, code)

/-- The opcode byte of a mnemonic in a mode, if the processor has the pair. -/
def encode (m : Mnemonic) (mode : Mode) : Option UInt8 :=
  m.encodings.lookup mode

/-- The instruction of an opcode byte, if the byte is assigned. -/
def decode (code : UInt8) : Option Instruction :=
  (opcodeTable.find? fun entry => entry.2 == code).map Prod.fst

theorem mem_opcodeTable_iff {i : Instruction} {code : UInt8} :
    (i, code) ∈ opcodeTable ↔ (i.mode, code) ∈ i.mnemonic.encodings := by
  obtain ⟨m, mode⟩ := i
  simp [opcodeTable, Mnemonic.mem_all]

/-- A mnemonic lists each of its modes once. -/
theorem encode_of_mem_encodings {m : Mnemonic} {mode : Mode} {code : UInt8}
    (h : (mode, code) ∈ m.encodings) : encode m mode = some code := by
  have unique : ∀ m ∈ Mnemonic.all, ∀ e ∈ m.encodings, encode m e.1 = some e.2 := by
    decide +kernel
  exact unique m m.mem_all _ h

theorem encode_eq_some_iff {m : Mnemonic} {mode : Mode} {code : UInt8} :
    encode m mode = some code ↔ (mode, code) ∈ m.encodings := by
  constructor
  · intro h
    obtain ⟨before, behind, split, _⟩ := List.lookup_eq_some_iff.1 h
    simp [split]
  · exact encode_of_mem_encodings

/-- No two instructions share an opcode. -/
theorem decode_of_mem_opcodeTable {i : Instruction} {code : UInt8}
    (h : (i, code) ∈ opcodeTable) : decode code = some i := by
  have unique : ∀ e ∈ opcodeTable, decode e.2 = some e.1 := by decide +kernel
  exact unique _ h

/-- Decoding inverts encoding. -/
theorem decode_eq_some_iff {code : UInt8} {i : Instruction} :
    decode code = some i ↔ encode i.mnemonic i.mode = some code := by
  rw [encode_eq_some_iff, ← mem_opcodeTable_iff]
  constructor
  · intro h
    obtain ⟨⟨j, c⟩, found, rfl⟩ := Option.map_eq_some_iff.1 h
    have same : c = code := by simpa using List.find?_some found
    exact same ▸ List.mem_of_find?_eq_some found
  · exact decode_of_mem_opcodeTable

namespace Mnemonic

/-- A mnemonic has a mode when the table gives an opcode for the pair. -/
def supports (m : Mnemonic) (mode : Mode) : Bool := (encode m mode).isSome

/-- The addressing modes of a mnemonic, in the order of `Mode.all`. -/
def modes (m : Mnemonic) : List Mode := Mode.all.filter m.supports

theorem mem_modes_iff {m : Mnemonic} {mode : Mode} :
    mode ∈ m.modes ↔ (encode m mode).isSome := by
  simp [modes, supports, Mode.mem_all]

end Mnemonic

end Assembler65
