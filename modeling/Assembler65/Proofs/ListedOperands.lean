import Assembler65.Listing
import Assembler65.Proofs.Disassembly
import Assembler65.Proofs.LinkFaults
import Assembler65.Proofs.Linking
import Assembler65.Proofs.LostLabels

/-!
# What a listing shows of an operation

The bytes of an operation in an image are decoded to its instruction again, and the text that they
are disassembled to shows the true values of its operand: literals, the addresses of labels or
halves of them, and for a branch the address that it leads to, which is that of its label. Main
statement: `listing_shows_operand_values`, for every operation of an accepted program whose bytes no
other record writes.
-/

set_option autoImplicit false

namespace Assembler65

open Text

/-- The values of an operand, given the locations of labels. -/
def Operand.values? (labels : Nat → Option Nat) : Operand → Option (List Nat)
  | none => some []
  | byte value => some [value.toNat]
  | word value => some [value.toNat]
  | label index | branch index => (labels index).map fun location => [location]
  | labelHalf index .low => (labels index).map fun location => [location % 0x100]
  | labelHalf index .high => (labels index).map fun location => [location / 0x100]
  | bitBranch zeroPage index => (labels index).map fun location => [zeroPage.toNat, location]

/-- Bytes of an image at consecutive addresses. -/
def Image.slice? (image : Image) (location : Nat) : (count : Nat) → Option (List UInt8)
  | 0 => some []
  | count + 1 =>
    (image.get? (UInt16.ofNat location)).bind fun b =>
      (image.slice? (location + 1) count).map fun rest => b :: rest

/-! ## Values out of bytes -/

theorem toNat_wordOfBytes {n : Nat} (h : n < memorySize) :
    (wordOfBytes (UInt8.ofNat n) (UInt8.ofNat (n / 0x100))).toNat = n := by
  rw [memorySize] at h
  simp only [wordOfBytes, UInt16.toNat_add, UInt16.toNat_mul, UInt8.toNat_toUInt16,
    UInt8.toNat_ofNat', UInt16.reduceToNat]
  omega

theorem toNat_signExtend (b : UInt8) :
    (signExtend b).toNat = if b.toNat < 0x80 then b.toNat else b.toNat + 0xFF00 := by
  have hall : ∀ n < 0x100, (signExtend (UInt8.ofNat n)).toNat =
      if n < 0x80 then n else n + 0xFF00 := by
    decide +kernel
  have hb := hall b.toNat b.toNat_lt
  rwa [UInt8.ofNat_toNat] at hb

/-- A branch whose displacement is in reach leads to its target, also where the address behind it is
beyond the last one. -/
theorem toNat_branchTarget {next target : Nat} (htarget : target < memorySize)
    (h : InReach ((target : Int) - (next : Int))) :
    (branchTarget (UInt16.ofNat next) (UInt8.ofInt ((target : Int) - (next : Int)))).toNat =
      target := by
  have hbyte : (UInt8.ofInt ((target : Int) - (next : Int))).toNat =
      (((target : Int) - (next : Int)) % 0x100).toNat := by
    rw [UInt8.ofInt, UInt8.toNat_ofNat']
    omega
  obtain ⟨hlow, hhigh⟩ := h
  rw [memorySize] at htarget
  rw [branchTarget, UInt16.toNat_add, UInt16.toNat_ofNat', toNat_signExtend, hbyte]
  split
  · omega
  · omega

theorem AddressForm.shownValues_eq {make : OperandValue → OperandShape} {short long : Mode}
    (h : AddressForm make short long) (pc : UInt16) (operand : List UInt8) :
    Instruction.shownValues short pc operand = [(operand.getD 0 0).toNat] ∧
      Instruction.shownValues long pc operand =
        [(wordOfBytes (operand.getD 0 0) (operand.getD 1 0)).toNat] := by
  cases h <;> exact ⟨rfl, rfl⟩

section Bytes

variable {labels : Nat → Option Nat} {next : Nat} {bytes : List UInt8}

theorem eq_of_forall₂_literal {value : UInt8}
    (h : List.Forall₂ (fun (source : ByteSource) b => source.value? labels next = some b)
      (Operand.byte value).encoding bytes) : [value] = bytes := by
  obtain _ | ⟨hbyte, ⟨⟩⟩ := h
  exact congrArg (fun b => [b]) (Option.some.inj hbyte)

theorem exists_of_value?_displacement {index : Nat} {b : UInt8}
    (h : (ByteSource.displacement index).value? labels next = some b) :
    ∃ target, labels index = some target ∧ UInt8.ofInt ((target : Int) - (next : Int)) = b := by
  rw [ByteSource.value?] at h
  cases htarget : labels index with
  | none =>
    rw [htarget] at h
    cases h
  | some target =>
    rw [htarget] at h
    exact ⟨target, rfl, Option.some.inj h⟩

theorem eq_of_forall₂_literals {value : UInt16}
    (h : List.Forall₂ (fun (source : ByteSource) b => source.value? labels next = some b)
      (Operand.word value).encoding bytes) : littleEndian value = bytes := by
  obtain _ | ⟨hlow, _ | ⟨hhigh, ⟨⟩⟩⟩ := h
  exact congrArg₂ (fun low high => [low, high]) (Option.some.inj hlow) (Option.some.inj hhigh)

end Bytes

/-- The bytes of an operand are shown as its values, if the labels have locations and relative
operands are in reach of theirs. -/
theorem OperandForm.shownValues_eq {shape : OperandShape} {mode : Mode} {operand : Operand}
    (h : OperandForm shape mode operand) {labels : Nat → Option Nat} {location : Nat}
    (hlabels : ∀ index target, labels index = some target → target < memorySize)
    (hreach : ∀ index target, labels index = some target →
      (operand = .branch index ∨ ∃ zeroPage, operand = .bitBranch zeroPage index) →
        InReach ((target : Int) - (location + 1 + mode.operandLength : Nat)))
    {bytes : List UInt8}
    (hbytes : List.Forall₂ (fun (source : ByteSource) b =>
      source.value? labels (location + 1 + mode.operandLength) = some b) operand.encoding bytes) :
    operand.values? labels =
      some (Instruction.shownValues mode (UInt16.ofNat location) bytes) := by
  cases h with
  | implied => rfl
  | stack => rfl
  | omitted => rfl
  | accumulator => rfl
  | short hform hfits =>
    obtain rfl := eq_of_forall₂_literal hbytes
    rw [(hform.shownValues_eq _ _).1]
    rfl
  | long n hform =>
    obtain rfl := eq_of_forall₂_literals hbytes
    rw [(hform.shownValues_eq _ _).2]
    exact congrArg (fun value => some [value]) (toNat_wordOfBytes (UInt16.toNat_lt _)).symm
  | label index hform =>
    obtain _ | ⟨hlow, _ | ⟨hhigh, ⟨⟩⟩⟩ := hbytes
    obtain ⟨target, htarget, rfl⟩ := Option.map_eq_some_iff.1 hlow
    obtain ⟨_, hsame, rfl⟩ := Option.map_eq_some_iff.1 hhigh
    cases htarget.symm.trans hsame
    rw [(hform.shownValues_eq _ _).2, Operand.values?, htarget]
    exact congrArg (fun value => some [value]) (toNat_wordOfBytes (hlabels _ _ htarget)).symm
  | relative index =>
    obtain _ | ⟨hbyte, ⟨⟩⟩ := hbytes
    obtain ⟨target, htarget, rfl⟩ := exists_of_value?_displacement hbyte
    have hleads := toNat_branchTarget (hlabels _ _ htarget) (hreach _ _ htarget (.inl rfl))
    have hnext : UInt16.ofNat (location + 1 + Mode.relative.operandLength) =
        UInt16.ofNat location + 2 := UInt16.ofNat_add location 2
    rw [hnext] at hleads
    rw [Operand.values?, htarget]
    exact congrArg (fun value => some [value]) hleads.symm
  | bitBranch index hfits =>
    obtain _ | ⟨hzero, _ | ⟨hbyte, ⟨⟩⟩⟩ := hbytes
    obtain rfl := Option.some.inj hzero
    obtain ⟨target, htarget, rfl⟩ := exists_of_value?_displacement hbyte
    have hleads := toNat_branchTarget (hlabels _ _ htarget) (hreach _ _ htarget (.inr ⟨_, rfl⟩))
    have hnext : UInt16.ofNat (location + 1 + Mode.zeroPageRelative.operandLength) =
        UInt16.ofNat location + 3 := UInt16.ofNat_add location 3
    rw [hnext] at hleads
    rw [Operand.values?, htarget]
    exact congrArg (fun value => some [_, value]) hleads.symm
  | immediate hfits =>
    obtain rfl := eq_of_forall₂_literal hbytes
    rfl
  | half half n =>
    obtain rfl := eq_of_forall₂_literal hbytes
    rfl
  | labelHalf half index =>
    obtain _ | ⟨hbyte, ⟨⟩⟩ := hbytes
    cases half with
    | low =>
      obtain ⟨target, htarget, rfl⟩ := Option.map_eq_some_iff.1 hbyte
      rw [Operand.values?, htarget]
      rfl
    | high =>
      obtain ⟨target, htarget, rfl⟩ := Option.map_eq_some_iff.1 hbyte
      have hhigh : (UInt8.ofNat (target / 0x100)).toNat = target / 0x100 := by
        have hlt := hlabels _ _ htarget
        rw [memorySize] at hlt
        exact UInt8.toNat_ofNat_of_lt' (show target / 0x100 < 256 by omega)
      rw [Operand.values?, htarget]
      exact congrArg (fun value => some [value]) hhigh.symm
  | indirectIndexed hfits =>
    obtain rfl := eq_of_forall₂_literal hbytes
    rfl

/-! ## Operations in an image -/

/-- Sources whose bytes stand one behind the other in an image are read off it together. -/
theorem Image.exists_slice? {image : Image} {labels : Nat → Option Nat} {next : Nat}
    {sources : List ByteSource} {location : Nat}
    (h : ∀ i < sources.length, ∃ b, sources[i]?.bind (ByteSource.value? labels next) = some b ∧
      image.get? (UInt16.ofNat (location + i)) = some b) :
    ∃ bytes, image.slice? location sources.length = some bytes ∧
      List.Forall₂ (fun source b => source.value? labels next = some b) sources bytes := by
  induction sources generalizing location with
  | nil => exact ⟨[], rfl, .nil⟩
  | cons source sources ih =>
    obtain ⟨b, hvalue, hget⟩ := h 0 (Nat.succ_pos _)
    obtain ⟨bytes, hslice, hbytes⟩ : ∃ bytes,
        image.slice? (location + 1) sources.length = some bytes ∧
          List.Forall₂ (fun source b => source.value? labels next = some b) sources bytes := by
      apply ih
      intro i hi
      obtain ⟨b, hvalue, hget⟩ := h (i + 1) (Nat.succ_lt_succ hi)
      rw [← Nat.add_assoc, Nat.add_right_comm] at hget
      exact ⟨b, hvalue, hget⟩
    refine ⟨b :: bytes, ?_, .cons hvalue hbytes⟩
    rw [Nat.add_zero] at hget
    rw [List.length_cons, slice?, hget, hslice]
    rfl

theorem Image.map_get?_of_slice? {image : Image} {location count : Nat} {bytes : List UInt8}
    (h : image.slice? location count = some bytes) :
    (List.range count).map (fun i => image.get? (UInt16.ofNat (location + i))) =
      bytes.map some := by
  induction count generalizing location bytes with
  | zero =>
    cases h
    rfl
  | succ count ih =>
    obtain ⟨b, hget, hmore⟩ := Option.bind_eq_some_iff.1 h
    obtain ⟨rest, hrest, rfl⟩ := Option.map_eq_some_iff.1 hmore
    rw [List.range_succ_eq_map, List.map_cons, List.map_map, List.map_cons, ← ih hrest]
    refine congrArg₂ List.cons hget (List.map_congr_left fun i _ => ?_)
    rw [Function.comp_apply, Nat.succ_eq_add_one, Nat.add_assoc, Nat.add_comm 1 i]

/-- A span over an operation whose bytes are in the image is disassembled from these bytes. -/
theorem Listing.disassembly_eq {image : Image} {row location : Nat} {code : UInt8}
    {bytes : List UInt8} {instruction : Instruction} (hcode : decode code = some instruction)
    (h : image.slice? location (bytes.length + 1) = some (code :: bytes)) :
    disassembly ⟨row, UInt16.ofNat location, bytes.length + 1, true⟩
        (image.spanBytes ⟨row, UInt16.ofNat location, bytes.length + 1, true⟩) =
      instruction.disassemble (UInt16.ofNat location) bytes := by
  have hbytes : image.spanBytes ⟨row, UInt16.ofNat location, bytes.length + 1, true⟩ =
      some code :: bytes.map some := by
    rw [Image.spanBytes, ← List.map_cons, ← Image.map_get?_of_slice? h]
    exact List.map_congr_left fun i _ => congrArg image.get? (UInt16.ofNat_add location i).symm
  have hvalues : (bytes.map some).map (fun b => b.getD 0) = bytes := by
    rw [List.map_map]
    exact List.map_id' bytes
  rw [hbytes]
  simp only [disassembly, hcode, hvalues]

namespace Linked

variable {origin : UInt16} {names : List String} {placed : List Placed}
  {addresses : LabelAddresses} {image : Image} {p : Placed}

/-- A record that alone writes its bytes has them in the image. -/
theorem exists_slice? (h : Linked origin names placed addresses image) (hp : p ∈ placed)
    (hinside : p.stop ≤ memorySize) (horigin : origin.toNat ≤ p.location)
    (halone : ∀ address, p.writes address = true → writers placed address = [p]) :
    ∃ bytes, image.slice? p.location p.record.item.encoding.length = some bytes ∧
      List.Forall₂ (fun source b =>
        ByteSource.value? (labelLocation? placed) p.stop source = some b)
        p.record.item.encoding bytes := by
  apply Image.exists_slice?
  intro i hi
  have hlength : p.record.item.encoding.length = p.record.size :=
    Item.length_encoding (h.fits p hp)
  have hstop : p.location + p.record.size ≤ memorySize := hinside
  have haddress : (UInt16.ofNat (p.location + i)).toNat = p.location + i :=
    UInt16.toNat_ofNat_of_lt' (show p.location + i < memorySize by omega)
  have hwrites : p.writes (UInt16.ofNat (p.location + i)).toNat = true := by
    rw [writes_iff_of_stop_le hinside, haddress, Placed.stop]
    omega
  have habove : origin ≤ UInt16.ofNat (p.location + i) := by
    rw [UInt16.le_iff_toNat_le, haddress]
    omega
  obtain ⟨b, hbyte, hget⟩ := h.get?_of_writers_eq_singleton habove (halone _ hwrites)
  rw [Placed.byte?, Placed.source?_eq (h.fits p hp) hinside, haddress,
    if_pos (Nat.le_add_right _ _), Nat.add_sub_cancel_left] at hbyte
  exact ⟨b, hbyte, hget⟩

/-- No operand of a successful link has a fault. -/
theorem operandFault?_eq_none (h : Linked origin names placed addresses image) (hp : p ∈ placed) :
    p.operandFault? (labelLocation? placed) names = none := by
  rw [Placed.operandFault?_eq h.lookup h.labels_inside (h.fits p hp) (h.admissible p hp)]
  cases hpatch : p.patch? with
  | none => rfl
  | some patch => exact h.completed p hp patch hpatch

/-- A relative operand is in reach of its label. -/
theorem inReach (h : Linked origin names placed addresses image) (hp : p ∈ placed)
    {use : LabelUse} (huse : p.record.item.labelUse? = some use) (hrelative : use.relative = true)
    {target : Nat} (htarget : labelLocation? placed use.index = some target) :
    InReach (p.displacement target) := by
  by_contra hfar
  obtain ⟨-, hmisses⟩ := Placed.operandFault?_eq_none_iff.1 (h.operandFault?_eq_none hp)
  exact hmisses ⟨use, target, huse, hrelative, htarget, hfar⟩

end Linked

/-- Every record with bytes has a span in the image of a successful link. -/
theorem span_mem_of_link_eq_ok {origin : UInt16} {names : List String} {records : List Record}
    {image : Image} (hfits : ∀ r ∈ records, r.item.OperandFits)
    (hlink : link origin names records = .ok image) {p : Placed}
    (hp : p ∈ layout origin.toNat records) (hsize : 0 < p.record.size) :
    ⟨p.record.pos.row, UInt16.ofNat p.location, p.record.size, p.record.item.isCode⟩ ∈
      image.spans := by
  show p.span ∈ image.spans
  rw [spans_of_link_eq_ok hfits hlink]
  exact List.mem_map_of_mem (List.mem_filter.2 ⟨hp, decide_eq_true hsize⟩)

theorem StatementItem.exists_operandForm {symbols : Symbols} {words : List Lexeme}
    {instruction : Instruction} {code : UInt8} {operand : Operand}
    (h : StatementItem symbols words (.operation instruction code operand)) :
    (∃ shape, OperandForm shape instruction.mode operand) ∧ decode code = some instruction := by
  cases h with
  | operation hopcode hoperands hchoice hcode hlabels =>
    obtain ⟨shape, -, hform, -⟩ := Assembler65.exists_operandForm hchoice
    exact ⟨⟨shape, hform⟩, decode_eq_some_iff.2 hcode⟩

/-- The operations of an accepted program have operands of a form, and their opcodes. -/
theorem operation_of_outcome {lexemes : List Lexeme} {records : List Record}
    (h : (Program.resolve {} lexemes).outcome = .ok records) {r : Record} (hr : r ∈ records)
    {instruction : Instruction} {code : UInt8} {operand : Operand}
    (hitem : r.item = .operation instruction code operand) :
    (∃ shape, OperandForm shape instruction.mode operand) ∧ decode code = some instruction := by
  obtain ⟨-, -, chunks, hchunks, rfl⟩ := wellFormed_and_exists_chunks h
  obtain ⟨chunk, hchunk, hr⟩ := List.mem_flatten.1 hr
  obtain ⟨row, -, hrow⟩ := exists_of_mem_left hchunks.flip hchunk
  cases hrow with
  | definition hrow => cases hr
  | declaration hlabel hindex =>
    cases List.mem_singleton.1 hr
    cases hitem
  | statement hstatement =>
    cases List.mem_singleton.1 hr
    cases hitem
    exact hstatement.exists_operandForm
  | labelled hlabel hindex hstatement =>
    rcases List.mem_pair.1 hr with rfl | rfl
    · cases hitem
    · cases hitem
      exact hstatement.exists_operandForm

/-- An operation of an accepted program whose bytes no other record writes is decoded to its
instruction, and the listing shows the values of its operand. -/
theorem listing_shows_operand_values {s : Source} {origin : UInt16} {image : Image}
    {records : List Record} (himage : assemble s origin = .ok image)
    (hrecords : s.ResolvesTo records) {p : Placed} (hp : p ∈ layout origin.toNat records)
    {instruction : Instruction} {code : UInt8} {operand : Operand}
    (hitem : p.record.item = .operation instruction code operand)
    (horigin : origin.toNat ≤ p.location)
    (halone : ∀ address, p.writes address = true →
      writers (layout origin.toNat records) address = [p]) :
    (image.get? (UInt16.ofNat p.location)).bind decode = some instruction ∧
      ∃ bytes values,
        image.slice? (p.location + 1) instruction.mode.operandLength = some bytes ∧
        operand.values? (labelLocation? (layout origin.toNat records)) = some values ∧
        plain (instruction.disassemble (UInt16.ofNat p.location) bytes) =
          alignLeft 5 instruction.mnemonic.name.toLower ++ instruction.mode.written values ∧
        (∀ row, List.Forall₂ Lexeme.Spells
          ((Lexeme.ofRow row (plain (instruction.disassemble (UInt16.ofNat p.location)
            bytes))).filter Lexeme.isWord)
          (.opcode instruction.mnemonic :: instruction.mode.operandTokens values)) ∧
        ∃ span ∈ image.spans, span.row = p.record.pos.row ∧
          span.address = UInt16.ofNat p.location ∧
          Listing.disassembly span (image.spanBytes span) =
            instruction.disassemble (UInt16.ofNat p.location) bytes := by
  obtain ⟨lexemes, hlexemes, houtcome⟩ := hrecords
  rw [assemble_eq_link origin hlexemes houtcome] at himage
  have hfits := operandFits_of_outcome houtcome
  obtain ⟨addresses, hlinked⟩ := linked_of_link_eq_ok hfits himage
  obtain ⟨⟨shape, hform⟩, hdecode⟩ :=
    operation_of_outcome houtcome (record_mem_of_mem_layout hp) hitem
  have hlength : operand.encoding.length = instruction.mode.operandLength := by
    have hoperand := hlinked.fits p hp
    rw [hitem] at hoperand
    exact hoperand
  have hsize : p.record.size = operand.encoding.length + 1 := by
    rw [Record.size, hitem, hlength]
    exact Nat.add_comm _ _
  have hinside : p.stop ≤ memorySize := by
    apply (hlinked.admissible p hp).stop_le
    have hmode := instruction.mode.operandLength_le
    omega
  -- The first byte in the image is the opcode, and those of the operand follow it.
  obtain ⟨all, hall, hsources⟩ := hlinked.exists_slice? hp hinside horigin halone
  rw [hitem] at hall hsources
  obtain ⟨b, bytes, hcode, hbytes, rfl⟩ := List.forall₂_cons_left_iff.1 hsources
  obtain rfl := Option.some.inj hcode
  obtain ⟨b, hget, hmore⟩ := Option.bind_eq_some_iff.1 hall
  obtain ⟨rest, hslice, hcons⟩ := Option.map_eq_some_iff.1 hmore
  obtain ⟨rfl, rfl⟩ := List.cons.inj hcons
  have hstop : p.stop = p.location + 1 + instruction.mode.operandLength := by
    rw [Placed.stop, hsize, hlength, ← Nat.add_assoc, Nat.add_right_comm]
  have hreach : ∀ index target,
      labelLocation? (layout origin.toNat records) index = some target →
        (operand = .branch index ∨ ∃ zeroPage, operand = .bitBranch zeroPage index) →
          InReach ((target : Int) - (p.location + 1 + instruction.mode.operandLength : Nat)) := by
    intro index target htarget hoperand
    have huse : p.record.item.labelUse? = some ⟨index, true⟩ := by
      rw [hitem]
      rcases hoperand with rfl | ⟨zeroPage, rfl⟩
      · rfl
      · rfl
    rw [← hstop]
    exact hlinked.inReach hp huse rfl htarget
  have hvalues := hform.shownValues_eq hlinked.labels_inside hreach (hstop ▸ hbytes)
  refine ⟨by rw [hget]; exact hdecode, _, _, hlength ▸ hslice, hvalues,
    Instruction.plain_disassemble _ _ _, Instruction.forall₂_spells_disassemble _ _ _, ?_⟩
  have hspan := span_mem_of_link_eq_ok hfits himage hp (by omega)
  refine ⟨_, hspan, rfl, rfl, ?_⟩
  rw [hsize, hitem, hbytes.length_eq]
  exact Listing.disassembly_eq hdecode (hbytes.length_eq ▸ hall)

/-- A branch on a bit at the end of memory, back to a label whose high byte is loaded. -/
def branchAtEnd : Source where
  name := "end.s"
  rows := ["* = $FFF0", "back: LDA #>back", "* = $FFFD", "BBR0 $12,back"]

/-- The last instruction of `branchAtEnd`. -/
def branchOnBitZero : Instruction := ⟨.bbr ⟨0, Nat.zero_lt_succ 7⟩, .zeroPageRelative⟩

/-- The records of `branchAtEnd`. -/
def branchAtEndRecords : List Record :=
  [⟨⟨1, 1⟩, .origin 0xFFF0⟩, ⟨⟨2, 1⟩, .label 0⟩,
    ⟨⟨2, 7⟩, .operation ⟨.lda, .immediate⟩ 0xA9 (.labelHalf 0 .high)⟩,
    ⟨⟨3, 1⟩, .origin 0xFFFD⟩,
    ⟨⟨4, 1⟩, .operation branchOnBitZero 0x0F (.bitBranch 0x12 0)⟩]

/-- The address behind the branch is beyond the last one, and the branch shows its label. -/
theorem listing_branchAtEnd :
    ∃ image, assemble branchAtEnd 0xFFF0 = .ok image ∧ branchAtEnd.ResolvesTo branchAtEndRecords ∧
      ∃ bytes, image.slice? 0xFFFE 2 = some bytes ∧
        plain (branchOnBitZero.disassemble 0xFFFD bytes) = "bbr0 $12,$FFF0" := by
  have hlexemes : branchAtEnd.lexemes = .ok (Lexeme.ofSource branchAtEnd) := by
    decide +kernel
  have houtcome : (Program.resolve {} (Lexeme.ofSource branchAtEnd)).outcome =
      .ok branchAtEndRecords := by
    decide +kernel
  have himage : assemble branchAtEnd 0xFFF0 =
      .ok ⟨0xFFF0, #[0xA9, 0xFF, 0, 0, 0, 0, 0, 0, 0, 0, 0, 0, 0, 0x0F, 0x12, 0xF0],
        [⟨2, 0xFFF0, 2, true⟩, ⟨4, 0xFFFD, 3, true⟩]⟩ := by
    decide +kernel
  have halone : ∀ address,
      Placed.writes ⟨0xFFFD, ⟨⟨4, 1⟩, .operation branchOnBitZero 0x0F (.bitBranch 0x12 0)⟩⟩
          address = true →
        writers (layout 0xFFF0 branchAtEndRecords) address =
          [⟨0xFFFD, ⟨⟨4, 1⟩, .operation branchOnBitZero 0x0F (.bitBranch 0x12 0)⟩⟩] := by
    intro address hwrites
    obtain ⟨hlow, hhigh⟩ := (writes_iff_of_stop_le (by decide)).1 hwrites
    have hhigh : address < 0x10000 := hhigh
    have hlow : 0xFFFD ≤ address := hlow
    interval_cases address
    · decide +kernel
    · decide +kernel
    · decide +kernel
  have hresolves : branchAtEnd.ResolvesTo branchAtEndRecords := ⟨_, hlexemes, houtcome⟩
  obtain ⟨-, bytes, values, hbytes, hvalues, htext, -⟩ :=
    listing_shows_operand_values himage hresolves (by decide +kernel) rfl (by decide) halone
  refine ⟨_, himage, hresolves, bytes, hbytes, htext.trans ?_⟩
  have hshown : some values = some [0x12, 0xFFF0] := hvalues.symm.trans (by decide +kernel)
  rw [Option.some.inj hshown]
  decide +kernel

end Assembler65
