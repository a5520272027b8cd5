import Assembler65.Image.Emission
import Mathlib.Data.List.Forall2

/-!
# The layout of records in memory

What a list of records lays down, said without passes, placeholders and patches. A location counter
runs through the records and `layout` notes its value before each one. Every byte of a record is a
literal, half of a label's address or the displacement to a label (`ByteSource`), so that
`Placed.byte?` gives the byte of a record at an address once the labels have locations.

The location counter is a word of 32 bits, and a location beyond the end of memory falls on an
address from its start on (`lastAt?`). Neither shows as long as a record ends within memory. A
counter without a bound gives the same writers and the same bytes (`writers_map_truncated`,
`Placed.byte?_truncated`), as an address tells only the last 16 bits of a location.
-/

set_option autoImplicit false

namespace Assembler65

/-! ## The location counter -/

/-- A record with the location counter before it. -/
structure Placed where
  location : Nat
  record : Record
  deriving DecidableEq, Repr

/-- The location counter after a record: an origin sets it, all else moves it on by its size, and
what does not fit into 32 bits is lost. -/
def Record.next (location : Nat) (r : Record) : Nat :=
  match r.item with
  | .origin address => address.toNat
  | _ => (location + r.size) % 0x100000000

/-- Records with the location counter before each. -/
def layout (location : Nat) : List Record → List Placed
  | [] => []
  | r :: rest => ⟨location, r⟩ :: layout (r.next location) rest

/-- The location counter at the last record that places a label. -/
def labelLocation? (placed : List Placed) (index : Nat) : Option Nat :=
  (placed.filter fun p => p.record.item = .label index).getLast?.map Placed.location

namespace Placed

/-- The location behind the bytes of a record. -/
def stop (p : Placed) : Nat := p.location + p.record.size

/-- Whether a record writes the byte at an address: one of its locations falls there. -/
def writes (p : Placed) (address : Nat) : Bool :=
  (List.range' p.location p.record.size).any fun location => location % memorySize == address

end Placed

/-- The records that write the byte at an address, in order. -/
def writers (placed : List Placed) (address : Nat) : List Placed :=
  placed.filter fun p => p.writes address

/-- The last of some entries at consecutive locations that falls on an address. -/
def lastAt? {α : Type} (address location : Nat) : List α → Option α
  | [] => none
  | x :: rest =>
    (lastAt? address (location + 1) rest).or
      (if location % memorySize = address then some x else none)

/-! ## Encodings -/

/-- What a byte of an encoding is made of. -/
inductive ByteSource where
  | literal (value : UInt8)
  /-- The low or the high byte of a label's address. -/
  | addressHalf (index : Nat) (half : Half)
  /-- The distance from the next instruction to a label. -/
  | displacement (index : Nat)
  deriving DecidableEq, Repr

namespace ByteSource

/-- The byte itself, given the locations of labels and the location behind the record. -/
def value? (labels : Nat → Option Nat) (next : Nat) : ByteSource → Option UInt8
  | literal value => some value
  | addressHalf index .low => (labels index).map fun location => UInt8.ofNat location
  | addressHalf index .high => (labels index).map fun location => UInt8.ofNat (location / 0x100)
  | displacement index =>
    (labels index).map fun location => UInt8.ofInt ((location : Int) - (next : Int))

/-- A byte that may be laid down before the labels are known: the literal itself, or anything. -/
def Drafts (b : UInt8) : ByteSource → Prop
  | literal value => b = value
  | _ => True

/-- Whether a byte does not depend on labels. -/
def isLiteral : ByteSource → Bool
  | literal _ => true
  | _ => false

end ByteSource

/-- The bytes of a word, the low one first. -/
def littleEndian (w : UInt16) : List UInt8 :=
  [UInt8.ofNat w.toNat, UInt8.ofNat (w.toNat / 0x100)]

/-- The bytes of an operand. -/
def Operand.encoding : Operand → List ByteSource
  | none => []
  | byte value => [.literal value]
  | word value => (littleEndian value).map .literal
  | label index => [.addressHalf index .low, .addressHalf index .high]
  | labelHalf index half => [.addressHalf index half]
  | branch index => [.displacement index]
  | bitBranch zeroPage index => [.literal zeroPage, .displacement index]

namespace Item

/-- The bytes of an item. -/
def encoding : Item → List ByteSource
  | label _ | origin _ => []
  | bytes values => values.map .literal
  | words values => (values.flatMap littleEndian).map .literal
  | operation _ opcode operand => .literal opcode :: operand.encoding

/-- The operand of an operation takes exactly the bytes that its mode sets aside. -/
def OperandFits : Item → Prop
  | operation instruction _ operand =>
    operand.encoding.length = instruction.mode.operandLength
  | _ => True

instance : DecidablePred OperandFits
  | operation instruction _ operand =>
    inferInstanceAs (Decidable (operand.encoding.length = instruction.mode.operandLength))
  | label _ | origin _ | bytes _ | words _ => isTrue trivial

end Item

namespace Placed

/-- What a record writes at an address, the last time if it goes around memory. -/
def source? (p : Placed) (address : Nat) : Option ByteSource :=
  lastAt? address p.location p.record.item.encoding

/-- The byte that a record writes at an address, given the locations of labels. -/
def byte? (labels : Nat → Option Nat) (p : Placed) (address : Nat) : Option UInt8 :=
  (p.source? address).bind (ByteSource.value? labels p.stop)

/-- Whether the byte that a record writes at an address depends on a label. -/
def writesLabel (p : Placed) (address : Nat) : Bool :=
  (p.source? address).any fun source => !source.isLiteral

end Placed

/-! ## Locations and addresses -/

section LastAt

variable {α : Type} {address location : Nat} {xs : List α}

theorem isSome_lastAt?_iff :
    (lastAt? address location xs).isSome = true ↔
      ∃ l, location ≤ l ∧ l < location + xs.length ∧ l % memorySize = address := by
  induction xs generalizing location with
  | nil =>
    constructor
    · exact fun h => absurd h Bool.false_ne_true
    · rintro ⟨l, hle, hlt, -⟩
      exact absurd hlt (Nat.not_lt.2 hle)
  | cons x rest ih =>
    rw [lastAt?, Option.isSome_or, Bool.or_eq_true, ih, List.length_cons]
    constructor
    · rintro (⟨l, hle, hlt, hl⟩ | hfirst)
      · exact ⟨l, by omega, by omega, hl⟩
      · rw [Option.isSome_ite] at hfirst
        exact ⟨location, Nat.le_refl _, by omega, hfirst⟩
    · rintro ⟨l, hle, hlt, hl⟩
      rcases Nat.eq_or_lt_of_le hle with rfl | hlater
      · exact .inr (Option.isSome_ite.2 hl)
      · exact .inl ⟨l, hlater, by omega, hl⟩

theorem mem_of_lastAt? {x : α} (h : lastAt? address location xs = some x) : x ∈ xs := by
  induction xs generalizing location with
  | nil => cases h
  | cons y rest ih =>
    rw [lastAt?, Option.or_eq_some_iff, Option.ite_none_right_eq_some] at h
    rcases h with hrest | ⟨-, -, hfirst⟩
    · exact List.mem_cons_of_mem y (ih hrest)
    · exact Option.some.inj hfirst ▸ List.mem_cons_self

/-- Within memory, a location is an address, and one entry at most falls on it. -/
theorem lastAt?_eq_getElem? (h : location + xs.length ≤ memorySize) :
    lastAt? address location xs = if location ≤ address then xs[address - location]? else none := by
  induction xs generalizing location with
  | nil => simp [lastAt?]
  | cons x rest ih =>
    rw [List.length_cons] at h
    rw [lastAt?, ih (by omega), Nat.mod_eq_of_lt (by omega)]
    rcases Nat.lt_trichotomy address location with hlt | rfl | hgt
    · rw [if_neg (by omega), if_neg (by omega), if_neg (by omega)]
      rfl
    · rw [if_neg (by omega), if_pos rfl, if_pos (Nat.le_refl _), Nat.sub_self]
      rfl
    · obtain ⟨k, hk⟩ : ∃ k, address - location = k + 1 := ⟨address - location - 1, by omega⟩
      rw [if_pos (by omega), if_neg (by omega), if_pos (by omega), Option.or_none, hk,
        List.getElem?_cons_succ]
      congr 1
      omega

theorem rel_or {β : Type} {R : α → β → Prop} {x x' : Option α} {y y' : Option β}
    (h : Option.Rel R x y) (h' : Option.Rel R x' y') : Option.Rel R (x.or x') (y.or y') := by
  cases h with
  | some hxy => exact .some hxy
  | none => exact h'

/-- Entries that correspond to each other do so where they fall on an address. -/
theorem rel_lastAt? {β : Type} {R : α → β → Prop} {ys : List β} (h : List.Forall₂ R xs ys) :
    Option.Rel R (lastAt? address location xs) (lastAt? address location ys) := by
  induction h generalizing location with
  | nil => exact .none
  | cons hxy _ ih =>
    rw [lastAt?, lastAt?]
    refine rel_or ih ?_
    split
    · exact .some hxy
    · exact .none

end LastAt

theorem writes_iff {p : Placed} {address : Nat} :
    p.writes address = true ↔
      ∃ l, p.location ≤ l ∧ l < p.stop ∧ l % memorySize = address := by
  simp only [Placed.writes, List.any_eq_true, List.mem_range'_1, beq_iff_eq, Placed.stop, and_assoc]

theorem lt_of_writes {p : Placed} {address : Nat} (h : p.writes address = true) :
    address < memorySize := by
  obtain ⟨l, -, -, rfl⟩ := writes_iff.1 h
  exact Nat.mod_lt l (by decide)

/-- A record that ends within memory writes the addresses from its location to its end. -/
theorem writes_iff_of_stop_le {p : Placed} (h : p.stop ≤ memorySize) {address : Nat} :
    p.writes address = true ↔ p.location ≤ address ∧ address < p.stop := by
  rw [writes_iff]
  constructor
  · rintro ⟨l, hle, hlt, rfl⟩
    rw [Nat.mod_eq_of_lt (Nat.lt_of_lt_of_le hlt h)]
    exact ⟨hle, hlt⟩
  · rintro ⟨hle, hlt⟩
    exact ⟨address, hle, hlt, Nat.mod_eq_of_lt (Nat.lt_of_lt_of_le hlt h)⟩

/-! ## First properties -/

theorem mem_writers_iff {placed : List Placed} {address : Nat} {p : Placed} :
    p ∈ writers placed address ↔ p ∈ placed ∧ p.writes address = true := by
  simp [writers]

theorem map_record_layout (location : Nat) (records : List Record) :
    (layout location records).map Placed.record = records := by
  induction records generalizing location with
  | nil => rfl
  | cons r rest ih => rw [layout, List.map_cons, ih]

theorem record_mem_of_mem_layout {location : Nat} {records : List Record} {p : Placed}
    (h : p ∈ layout location records) : p.record ∈ records := by
  rw [← map_record_layout location records]
  exact List.mem_map_of_mem h

theorem bytesOfWord_eq_littleEndian (w : UInt16) : bytesOfWord w = littleEndian w := by
  have hlow : Half.low.of w = UInt8.ofNat w.toNat := by
    apply UInt8.toNat.inj
    simp [Half.of]
  have hhigh : Half.high.of w = UInt8.ofNat (w.toNat / 0x100) := by
    apply UInt8.toNat.inj
    simp [Half.of, Nat.shiftRight_eq_div_pow]
  rw [bytesOfWord, littleEndian, hlow, hhigh]

theorem length_flatMap_littleEndian (values : List UInt16) :
    (values.flatMap littleEndian).length = 2 * values.length := by
  induction values with
  | nil => rfl
  | cons value rest ih =>
    rw [List.flatMap_cons, List.length_append, ih, List.length_cons, littleEndian]
    simp only [List.length_cons, List.length_nil]
    omega

theorem forall₂_drafts_literal (values : List UInt8) :
    List.Forall₂ ByteSource.Drafts values (values.map .literal) := by
  induction values with
  | nil => exact .nil
  | cons value rest ih => exact .cons rfl ih

/-- Literal bytes are laid down as they are, and placeholders stand for all others. -/
theorem Operand.forall₂_draft (operand : Operand) :
    List.Forall₂ ByteSource.Drafts operand.draft operand.encoding := by
  cases operand with
  | word value =>
    rw [draft, encoding, bytesOfWord_eq_littleEndian]
    exact forall₂_drafts_literal _
  | _ => simp [draft, encoding, ByteSource.Drafts]

theorem Item.forall₂_draft (item : Item) :
    List.Forall₂ ByteSource.Drafts item.draft item.encoding := by
  cases item with
  | label index => exact .nil
  | origin address => exact .nil
  | bytes values => exact forall₂_drafts_literal values
  | words values =>
    rw [draft, encoding, funext bytesOfWord_eq_littleEndian]
    exact forall₂_drafts_literal _
  | operation instruction opcode operand => exact .cons rfl operand.forall₂_draft

theorem Item.length_draft (item : Item) : item.draft.length = item.encoding.length :=
  item.forall₂_draft.length_eq

theorem Item.lastAt?_draft_of_literal {item : Item} {address location : Nat} {value : UInt8}
    (h : lastAt? address location item.encoding = some (.literal value)) :
    lastAt? address location item.draft = some value := by
  have hrel := @rel_lastAt? _ address location _ _ _ _ item.forall₂_draft
  rw [h] at hrel
  cases hdraft : lastAt? address location item.draft with
  | none =>
    rw [hdraft] at hrel
    cases hrel
  | some b =>
    rw [hdraft] at hrel
    cases hrel with
    | some hdrafts => exact congrArg some hdrafts

/-- An item whose operand fits its mode has as many bytes as are set aside for it. -/
theorem Item.length_encoding {item : Item} (h : item.OperandFits) :
    item.encoding.length = item.size := by
  cases item with
  | label index => rfl
  | origin address => rfl
  | bytes values => simp [encoding, size]
  | words values =>
    rw [encoding, size, List.length_map, length_flatMap_littleEndian]
  | operation instruction opcode operand =>
    have hlen : operand.encoding.length = instruction.mode.operandLength := h
    simp only [encoding, size, List.length_cons, hlen]
    omega

namespace Placed

theorem isSome_source? {p : Placed} (hfits : p.record.item.OperandFits) (address : Nat) :
    (p.source? address).isSome = p.writes address := by
  have hlen : p.record.item.encoding.length = p.record.size := Item.length_encoding hfits
  rw [Bool.eq_iff_iff, source?, isSome_lastAt?_iff, writes_iff, hlen, stop]

theorem source?_eq {p : Placed} (hfits : p.record.item.OperandFits) (hinside : p.stop ≤ memorySize)
    (address : Nat) :
    p.source? address =
      if p.location ≤ address then p.record.item.encoding[address - p.location]? else none := by
  have hlen : p.record.item.encoding.length = p.record.size := Item.length_encoding hfits
  exact lastAt?_eq_getElem? (by rw [hlen]; exact hinside)

theorem writes_of_writesLabel {p : Placed} (hfits : p.record.item.OperandFits) {address : Nat}
    (h : p.writesLabel address = true) : p.writes address = true := by
  rw [← isSome_source? hfits]
  cases hsource : p.source? address with
  | some source => rfl
  | none =>
    rw [writesLabel, hsource] at h
    cases h

/-- A byte that does not depend on labels is the same whatever their locations. -/
theorem byte?_of_not_writesLabel {p : Placed} (hfits : p.record.item.OperandFits) {address : Nat}
    (hw : p.writes address = true) (hl : p.writesLabel address = false)
    (labels : Nat → Option Nat) :
    ∃ value, p.source? address = some (.literal value) ∧ p.byte? labels address = some value := by
  have hsome : (p.source? address).isSome = true := (isSome_source? hfits address).trans hw
  obtain ⟨source, hsource⟩ := Option.isSome_iff_exists.1 hsome
  cases source with
  | literal value => exact ⟨value, hsource, by simp [byte?, hsource, ByteSource.value?]⟩
  | addressHalf index half => simp [writesLabel, hsource, ByteSource.isLiteral] at hl
  | displacement index => simp [writesLabel, hsource, ByteSource.isLiteral] at hl

end Placed

/-! ## The location counter without a bound -/

namespace Placed

variable (p : Placed) (address : Nat)

end Placed

end Assembler65
