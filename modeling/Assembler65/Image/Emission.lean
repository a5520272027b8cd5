import Assembler65.Fault.Basic
import Assembler65.Image.Basic
import Assembler65.Record

/-!
# The first pass: laying out records

Records are laid out in order from a location counter on. Label operands get placeholder bytes and
a patch that says how to complete them; the address of each label is noted where it stands. A
record that would reach beyond the end of memory is a fault and is left out.
-/

set_option autoImplicit false

namespace Assembler65

/-- The number of addresses. -/
def memorySize : Nat := 0x10000

/-- The location behind some bytes. Locations are words of 32 bits, and so is the number of bytes
that is added to them: what does not fit is lost. -/
def advance (location size : Nat) : Nat := (UInt32.ofNat location + UInt32.ofNat size).toNat

theorem advance_eq_mod (location size : Nat) :
    advance location size = (location + size) % 0x100000000 := by
  rw [advance, ← UInt32.ofNat_add]
  exact UInt32.toNat_ofNat

/-- From within memory, nothing is lost up to `0x80000000` bytes. -/
theorem advance_eq_add {location size : Nat} (hlocation : location ≤ memorySize + 2)
    (hsize : size < 0x80000000) : advance location size = location + size := by
  have hlocation : location ≤ 0x10000 + 2 := hlocation
  rw [advance_eq_mod, Nat.mod_eq_of_lt (by omega)]

/-- The bytes of a word, the low one first. -/
def bytesOfWord (w : UInt16) : List UInt8 := [Half.low.of w, Half.high.of w]

/-- How a label's address completes an operand. -/
inductive PatchKind where
  | word
  | half (half : Half)
  /-- The displacement from the address after the patched byte. -/
  | displacement
  deriving DecidableEq, Repr

/-- A place to be completed with a label's address. -/
structure Patch where
  address : UInt16
  label : Nat
  kind : PatchKind
  pos : Position
  deriving DecidableEq, Repr

namespace Operand

/-- The bytes of an operand before labels have addresses. -/
def draft : Operand → List UInt8
  | none => []
  | byte value => [value]
  | word value => bytesOfWord value
  | label _ => [0xFF, 0xFF]
  | labelHalf _ _ => [0xFF]
  | branch _ => [0x00]
  | bitBranch zeroPage _ => [zeroPage, 0xFF]

/-- The patch of an operand whose bytes start at a location. -/
def patch? (location : Nat) (pos : Position) : Operand → Option Patch
  | none | byte _ | word _ => .none
  | label index => some ⟨UInt16.ofNat location, index, .word, pos⟩
  | labelHalf index half => some ⟨UInt16.ofNat location, index, .half half, pos⟩
  | branch index => some ⟨UInt16.ofNat location, index, .displacement, pos⟩
  | bitBranch _ index => some ⟨UInt16.ofNat (location + 1), index, .displacement, pos⟩

end Operand

namespace Item

/-- The bytes of an item before labels have addresses. -/
def draft : Item → List UInt8
  | label _ | origin _ => []
  | bytes values => values
  | words values => values.flatMap bytesOfWord
  | operation _ opcode operand => opcode :: operand.draft

/-- The patch of an item whose bytes start at a location. -/
def patch? (location : Nat) (pos : Position) : Item → Option Patch
  | operation _ _ operand => operand.patch? (location + 1) pos
  | _ => none

/-- Whether an item places a label. -/
def isLabel : Item → Bool
  | label _ => true
  | _ => false

/-- Whether an item starts with an opcode. -/
def isCode : Item → Bool
  | operation _ _ _ => true
  | _ => false

end Item

/-- Addresses of labels. A label has at most one. -/
abbrev LabelAddresses := List (Nat × UInt16)

/-- Give an address to a label, in place of any it had. -/
def LabelAddresses.set (labels : LabelAddresses) (label : Nat) (address : UInt16) :
    LabelAddresses :=
  (label, address) :: labels.filter fun entry => entry.1 != label

/-- The state of laying out records. -/
structure Emission where
  /-- The location counter, a word of 32 bits. It passes the last address when memory is full. -/
  location : Nat
  stores : Array Store := #[]
  labels : LabelAddresses := []
  patches : Array Patch := #[]
  spans : Array Span := #[]
  faults : Array Fault := #[]

namespace Emission

/-- Whether a record would reach beyond the end of memory, as far as words of 32 bits tell. -/
def overflows (e : Emission) (r : Record) : Bool :=
  advance e.location r.size > memorySize || (r.item.isLabel && e.location ≥ memorySize)

/-- The span of a record, if it has bytes. -/
def span? (e : Emission) (r : Record) : Option Span :=
  if r.size > 0 then
    some ⟨r.pos.row, UInt16.ofNat e.location, r.size, r.item.isCode⟩
  else none

/-- The location counter after a record. -/
def nextLocation (e : Emission) (r : Record) : Nat :=
  match r.item with
  | .origin address => address.toNat
  | item => advance e.location item.draft.length

/-- The label addresses after a record. -/
def nextLabels (e : Emission) (r : Record) : LabelAddresses :=
  match r.item with
  | .label index => e.labels.set index (UInt16.ofNat e.location)
  | _ => e.labels

/-- Lay out one record. -/
def place (e : Emission) (r : Record) : Emission :=
  if e.overflows r then
    { e with faults := e.faults.push (.inSource r.pos .addressOverflow) }
  else
    { e with
      location := e.nextLocation r
      stores := e.stores ++ Store.run e.location r.item.draft
      labels := e.nextLabels r
      patches := e.patches ++ (r.item.patch? e.location r.pos).toList
      spans := e.spans ++ (e.span? r).toList }

/-- Lay out records from an origin on. -/
def ofRecords (origin : UInt16) (records : List Record) : Emission :=
  records.foldl place { location := origin.toNat }

end Emission

end Assembler65
