/-!
# Memory images

An image is the stretch of memory from an origin up to the highest byte stored. Memory is filled by
single stores in order: a later store to an address replaces an earlier one, memory never stored to
reads zero, and a store below the origin has no place in the image.
-/

set_option autoImplicit false

namespace Assembler65

/-- One byte for one address. -/
structure Store where
  address : UInt16
  value : UInt8
  deriving DecidableEq, Repr

/-- The bytes laid down for one source row. -/
structure Span where
  row : Nat
  address : UInt16
  length : Nat
  /-- Whether the bytes start with an opcode. -/
  isCode : Bool
  deriving DecidableEq, Repr

/-- An assembled piece of memory. -/
structure Image where
  origin : UInt16
  bytes : Array UInt8
  spans : List Span
  deriving DecidableEq, Repr

/-- The byte of an image at an address. -/
def Image.get? (image : Image) (address : UInt16) : Option UInt8 :=
  if address < image.origin then none
  else image.bytes[address.toNat - image.origin.toNat]?

namespace Store

/-- Whether a store lies below the origin. -/
def isBelow (origin : UInt16) (s : Store) : Bool := s.address < origin

/-- Memory from an origin on after one more store. Bytes up to the store are filled with zeros. -/
def apply (origin : UInt16) (bytes : Array UInt8) (s : Store) : Array UInt8 :=
  if s.isBelow origin then bytes
  else
    let offset := s.address.toNat - origin.toNat
    let filled := bytes ++ Array.replicate (offset + 1 - bytes.size) 0
    filled.setIfInBounds offset s.value

/-- Memory from an origin on after some stores in order. -/
def applyAll (origin : UInt16) (bytes : Array UInt8) (stores : List Store) : Array UInt8 :=
  stores.foldl (apply origin) bytes

/-- Bytes at consecutive addresses from a location on, modulo the size of memory. -/
def run (location : Nat) : List UInt8 → List Store
  | [] => []
  | b :: rest => ⟨UInt16.ofNat location, b⟩ :: run (location + 1) rest

/-! ## What stores do to memory -/

theorem size_apply (origin : UInt16) (bytes : Array UInt8) (s : Store) :
    (apply origin bytes s).size =
      if s.isBelow origin then bytes.size
      else max bytes.size (s.address.toNat - origin.toNat + 1) := by
  unfold apply
  split
  · rfl
  · simp only [Array.size_setIfInBounds, Array.size_append, Array.size_replicate]
    omega

/-- A store sets its own byte, keeps the others and fills the gap before it with zeros. -/
theorem getElem?_apply (origin : UInt16) (bytes : Array UInt8) (s : Store)
    (h : s.isBelow origin = false) (i : Nat) :
    (apply origin bytes s)[i]? =
      if i = s.address.toNat - origin.toNat then some s.value
      else if i < bytes.size then bytes[i]?
      else if i < s.address.toNat - origin.toNat then some 0
      else none := by
  simp only [apply, h, Bool.false_eq_true, if_false]
  rw [Array.getElem?_setIfInBounds]
  by_cases same : s.address.toNat - origin.toNat = i
  · subst same
    simp
    omega
  · rw [if_neg same, if_neg (Ne.symm same), Array.getElem?_append]
    split
    · rfl
    · rw [Array.getElem?_replicate]
      by_cases gap : i < s.address.toNat - origin.toNat
      · rw [if_pos gap, if_pos (by omega)]
      · rw [if_neg gap, if_neg (by omega)]

@[simp] theorem applyAll_nil (origin : UInt16) (bytes : Array UInt8) :
    applyAll origin bytes [] = bytes := rfl

@[simp] theorem applyAll_cons (origin : UInt16) (bytes : Array UInt8) (s : Store)
    (rest : List Store) :
    applyAll origin bytes (s :: rest) = applyAll origin (apply origin bytes s) rest := rfl

@[simp] theorem applyAll_append (origin : UInt16) (bytes : Array UInt8)
    (first second : List Store) :
    applyAll origin bytes (first ++ second) =
      applyAll origin (applyAll origin bytes first) second := by
  simp [applyAll]

@[simp] theorem length_run (location : Nat) (bs : List UInt8) :
    (run location bs).length = bs.length := by
  induction bs generalizing location with
  | nil => rfl
  | cons b rest ih => simp [run, ih]

end Store

end Assembler65
