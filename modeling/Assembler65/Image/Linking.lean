import Assembler65.Image.Emission
import Assembler65.Remark

/-!
# The second pass: completing label operands

`link` lays out the records, then completes every patch in order with the address of its label. A
branch reaches from 128 bytes before to 127 bytes behind the next instruction. The image is made
only if no pass found a fault.
-/

set_option autoImplicit false

namespace Assembler65

/-- A displacement as a two's complement byte, if it is in range. -/
def displacementByte? (displacement : Int) : Option UInt8 :=
  if -128 ≤ displacement ∧ displacement ≤ 127 then
    some (UInt8.ofNat (displacement % 256).toNat)
  else none

/-- The name of a label in messages: its own, or else its number. -/
def labelName (names : List String) (label : Nat) : String :=
  names.getD label ("#" ++ toString label)

namespace Patch

/-- The distance from the address after the patched byte to a target. -/
def displacement (p : Patch) (target : UInt16) : Int :=
  (target.toNat : Int) - ((p.address.toNat : Int) + 1)

/-- The stores that complete a patch. -/
def complete (names : List String) (labels : LabelAddresses) (p : Patch) :
    Except Fault (List Store) :=
  match labels.lookup p.label with
  | none => .error (.unresolvedLabel p.label)
  | some target =>
    match p.kind with
    | .word => .ok [⟨p.address, Half.low.of target⟩, ⟨p.address + 1, Half.high.of target⟩]
    | .half half => .ok [⟨p.address, half.of target⟩]
    | .displacement =>
      match displacementByte? (p.displacement target) with
      | some b => .ok [⟨p.address, b⟩]
      | none =>
        .error (.inSource p.pos
          (.branchOutOfRange (labelName names p.label) (p.displacement target)))

/-- The stores of a patch that can be completed. -/
def stores (names : List String) (labels : LabelAddresses) (p : Patch) : List Store :=
  match p.complete names labels with
  | .ok stores => stores
  | .error _ => []

/-- The fault of a patch that cannot be completed. -/
def fault? (names : List String) (labels : LabelAddresses) (p : Patch) : Option Fault :=
  match p.complete names labels with
  | .ok _ => none
  | .error fault => some fault

end Patch

namespace Emission

/-- Memory after the first pass. -/
def draftBytes (e : Emission) (origin : UInt16) : Array UInt8 :=
  Store.applyAll origin #[] e.stores.toList

/-- The stores of the second pass. -/
def completions (e : Emission) (names : List String) : List Store :=
  e.patches.toList.flatMap (Patch.stores names e.labels)

/-- Memory after the second pass. -/
def finalBytes (e : Emission) (origin : UInt16) (names : List String) : Array UInt8 :=
  Store.applyAll origin (e.draftBytes origin) (e.completions names)

/-- The faults of both passes, those of the first pass first. -/
def allFaults (e : Emission) (names : List String) : List Fault :=
  e.faults.toList ++ e.patches.toList.filterMap (Patch.fault? names e.labels)

end Emission

/-- The remarks on the stores that lie below the origin. -/
def droppedRemarks (origin : UInt16) (stores : List Store) : List Remark :=
  (stores.filter (Store.isBelow origin)).map fun s => .storeDropped s.address

/-- The image of some records, with the names of the labels for messages. -/
def link (origin : UInt16) (names : List String) (records : List Record) :
    Except (List Fault) Image :=
  let e := Emission.ofRecords origin records
  match e.allFaults names with
  | [] => .ok ⟨origin, e.finalBytes origin names, e.spans.toList⟩
  | faults => .error (Fault.sorted faults)

/-- What is noted while records are linked. -/
def linkRemarks (origin : UInt16) (names : List String) (records : List Record) : List Remark :=
  let e := Emission.ofRecords origin records
  droppedRemarks origin e.stores.toList ++
    [.recordsPlaced (e.draftBytes origin).size e.labels.length e.patches.size] ++
    droppedRemarks origin (e.completions names)

end Assembler65
