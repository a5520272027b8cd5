/-!
# Mnemonics and registers of the 65C02

The instruction names, the four bit-numbered families (`BBRn`, `BBSn`, `RMBn`, `SMBn`) carrying
their bit as data, and the three register names an operand may hold: `A` selects the accumulator
mode, `X` and `Y` the indexed modes. Main definitions: `Mnemonic.parse?` and `Register.parse?`,
which read a name in either letter case.
-/

set_option autoImplicit false

namespace Assembler65

/-- The number of a bit in a byte. -/
abbrev BitIndex := Fin 8

/-- The instruction names of the 65C02. -/
inductive Mnemonic where
  | adc | and | asl
  /-- Branch if a zero-page bit is clear. -/
  | bbr (bit : BitIndex)
  /-- Branch if a zero-page bit is set. -/
  | bbs (bit : BitIndex)
  | bcc | bcs | beq | bit | bmi | bne | bpl | bra | brk | bvc | bvs
  | clc | cld | cli | clv | cmp | cpx | cpy
  | dec | dex | dey
  | eor
  | inc | inx | iny
  | jmp | jsr
  | lda | ldx | ldy | lsr
  | nop
  | ora
  | pha | php | phx | phy | pla | plp | plx | ply
  /-- Clear a zero-page bit. -/
  | rmb (bit : BitIndex)
  | rol | ror | rti | rts
  | sbc | sec | sed | sei
  /-- Set a zero-page bit. -/
  | smb (bit : BitIndex)
  | sta | stp | stx | sty | stz
  | tax | tay | trb | tsb | tsx | txa | txs | tya
  | wai
  deriving DecidableEq, Repr

/-- The eight bit numbers in ascending order. -/
def BitIndex.all : List BitIndex := [0, 1, 2, 3, 4, 5, 6, 7]

namespace Mnemonic

/-- Every mnemonic, in alphabetical order of the names. -/
def all : List Mnemonic :=
  [adc, and, asl] ++ BitIndex.all.map bbr ++ BitIndex.all.map bbs ++
    [bcc, bcs, beq, bit, bmi, bne, bpl, bra, brk, bvc, bvs,
      clc, cld, cli, clv, cmp, cpx, cpy, dec, dex, dey, eor, inc, inx, iny,
      jmp, jsr, lda, ldx, ldy, lsr, nop, ora,
      pha, php, phx, phy, pla, plp, plx, ply] ++
    BitIndex.all.map rmb ++
    [rol, ror, rti, rts, sbc, sec, sed, sei] ++
    BitIndex.all.map smb ++
    [sta, stp, stx, sty, stz, tax, tay, trb, tsb, tsx, txa, txs, tya, wai]

theorem mem_all (m : Mnemonic) : m ∈ all := by
  cases m with
  | bbr b => revert b; decide
  | bbs b => revert b; decide
  | rmb b => revert b; decide
  | smb b => revert b; decide
  | _ => decide

/-- The name of a mnemonic, in capitals. -/
def name : Mnemonic → String
  | adc => "ADC" | and => "AND" | asl => "ASL"
  | bbr b => "BBR" ++ toString b.val
  | bbs b => "BBS" ++ toString b.val
  | bcc => "BCC" | bcs => "BCS" | beq => "BEQ" | bit => "BIT" | bmi => "BMI" | bne => "BNE"
  | bpl => "BPL" | bra => "BRA" | brk => "BRK" | bvc => "BVC" | bvs => "BVS"
  | clc => "CLC" | cld => "CLD" | cli => "CLI" | clv => "CLV" | cmp => "CMP" | cpx => "CPX"
  | cpy => "CPY"
  | dec => "DEC" | dex => "DEX" | dey => "DEY"
  | eor => "EOR"
  | inc => "INC" | inx => "INX" | iny => "INY"
  | jmp => "JMP" | jsr => "JSR"
  | lda => "LDA" | ldx => "LDX" | ldy => "LDY" | lsr => "LSR"
  | nop => "NOP"
  | ora => "ORA"
  | pha => "PHA" | php => "PHP" | phx => "PHX" | phy => "PHY"
  | pla => "PLA" | plp => "PLP" | plx => "PLX" | ply => "PLY"
  | rmb b => "RMB" ++ toString b.val
  | rol => "ROL" | ror => "ROR" | rti => "RTI" | rts => "RTS"
  | sbc => "SBC" | sec => "SEC" | sed => "SED" | sei => "SEI"
  | smb b => "SMB" ++ toString b.val
  | sta => "STA" | stp => "STP" | stx => "STX" | sty => "STY" | stz => "STZ"
  | tax => "TAX" | tay => "TAY" | trb => "TRB" | tsb => "TSB" | tsx => "TSX" | txa => "TXA"
  | txs => "TXS" | tya => "TYA"
  | wai => "WAI"

/-- The mnemonic of a name, ASCII letters in either case. -/
def parse? (s : String) : Option Mnemonic :=
  let capitals := s.toUpper
  all.find? fun m => m.name == capitals

/-- Reading inverts naming. -/
theorem parse?_name (m : Mnemonic) : parse? m.name = some m := by
  have each : ∀ m ∈ all, parse? m.name = some m := by decide +kernel
  exact each m m.mem_all

end Mnemonic

/-- The registers that operands name. -/
inductive Register where
  | a | x | y
  deriving DecidableEq, Repr

namespace Register

/-- Every register. -/
def all : List Register := [a, x, y]

/-- The name of a register, in capitals. -/
def name : Register → String
  | a => "A"
  | x => "X"
  | y => "Y"

/-- The register of a name, ASCII letters in either case. -/
def parse? (s : String) : Option Register :=
  let capitals := s.toUpper
  all.find? fun r => r.name == capitals

end Register

end Assembler65
