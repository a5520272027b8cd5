import Assembler65.Proofs.Linking

/-!
# The origin as a window on memory

Where an image starts decides only which bytes it shows. `Store.read?` reads memory after some
stores without an origin, and an image reads the same from its origin on
(`getElem?_applyAll_eq_read?`).
Records that set the location counter first are laid out alike from every origin
(`Emission.ofRecords_origin_cons`), so that images of them at two origins agree wherever both reach
(`link_agrees_from_both_origins`).
-/

set_option autoImplicit false

namespace Assembler65

namespace Store

/-- The byte at an address after some stores: the last value stored there, zero below the highest
address stored to, and nothing above it. -/
def read? (stores : List Store) (address : UInt16) : Option UInt8 :=
  if ∃ s ∈ stores, address ≤ s.address then some ((last? stores address).getD 0) else none

theorem lt_size_applyAll_empty_iff {origin address : UInt16} (h : origin ≤ address)
    (stores : List Store) :
    address.toNat - origin.toNat < (applyAll origin #[] stores).size ↔
      ∃ s ∈ stores, address ≤ s.address := by
  have hle : origin.toNat ≤ address.toNat := UInt16.le_iff_toNat_le.1 h
  rw [lt_size_applyAll_iff]
  constructor
  · rintro (hnone | ⟨s, hs, hstart, hreach⟩)
    · exact absurd hnone (Nat.not_lt_zero _)
    · have hstart : origin.toNat ≤ s.address.toNat := UInt16.le_iff_toNat_le.1 hstart
      exact ⟨s, hs, UInt16.le_iff_toNat_le.2 (by omega)⟩
  · rintro ⟨s, hs, hreach⟩
    have hreach' : address.toNat ≤ s.address.toNat := UInt16.le_iff_toNat_le.1 hreach
    exact .inr ⟨s, hs, UInt16.le_iff_toNat_le.2 (by omega), by omega⟩

/-- Memory from an origin on reads as it does without one. -/
theorem getElem?_applyAll_eq_read? {origin address : UInt16} (h : origin ≤ address)
    (stores : List Store) :
    (applyAll origin #[] stores)[address.toNat - origin.toNat]? = read? stores address := by
  rw [read?]
  by_cases hreach : ∃ s ∈ stores, address ≤ s.address
  · rw [if_pos hreach]
    exact getElem?_applyAll h #[] stores ((lt_size_applyAll_empty_iff h stores).2 hreach)
  · rw [if_neg hreach]
    apply Array.getElem?_eq_none
    exact Nat.le_of_not_lt fun hlt => hreach ((lt_size_applyAll_empty_iff h stores).1 hlt)

end Store

/-- An image made of stores reads as memory does without an origin. -/
theorem Image.get?_eq_read? {image : Image} {stores : List Store}
    (hbytes : image.bytes = Store.applyAll image.origin #[] stores) {address : UInt16}
    (h : image.origin ≤ address) : image.get? address = Store.read? stores address := by
  rw [get?, if_neg (UInt16.not_lt.2 h), hbytes]
  exact Store.getElem?_applyAll_eq_read? h stores

namespace Emission

/-- All stores of both passes. -/
def allStores (e : Emission) (names : List String) : List Store :=
  e.stores.toList ++ e.completions names

theorem finalBytes_eq_applyAll (e : Emission) (origin : UInt16) (names : List String) :
    e.finalBytes origin names = Store.applyAll origin #[] (e.allStores names) := by
  rw [finalBytes, draftBytes, allStores, Store.applyAll_append]

/-- Records that set the location counter first are laid out as if from there. -/
theorem ofRecords_origin_cons (origin : UInt16) (pos : Position) (address : UInt16)
    (rest : List Record) :
    ofRecords origin (⟨pos, .origin address⟩ :: rest) = ofRecords address rest := by
  -- No origin is so high that the record overflows.
  have hfits : overflows { location := origin.toNat } ⟨pos, .origin address⟩ = false :=
    overflows_origin (Nat.le_of_lt origin.toNat_lt) rfl
  rw [ofRecords, List.foldl_cons, place_of_not_overflows hfits]
  rfl

end Emission

/-- Two links that lay out their records alike agree: both fail with the same faults, or both give
images that read the same from both origins on. -/
theorem link_eq_of_ofRecords_eq {origin origin' : UInt16} {names : List String}
    {records records' : List Record}
    (h : Emission.ofRecords origin records = Emission.ofRecords origin' records') :
    (∃ faults, link origin names records = .error faults ∧
        link origin' names records' = .error faults) ∨
      ∃ image image', link origin names records = .ok image ∧
        link origin' names records' = .ok image' ∧ image.origin = origin ∧
        image'.origin = origin' ∧ image.spans = image'.spans ∧
        ∀ a : UInt16, origin ≤ a → origin' ≤ a → image.get? a = image'.get? a := by
  cases hfaults : (Emission.ofRecords origin records).allFaults names with
  | cons fault rest =>
    refine .inl ⟨Fault.sorted (fault :: rest), ?_, ?_⟩
    · simp only [link, hfaults]
    · rw [h] at hfaults
      simp only [link, hfaults]
  | nil =>
    refine .inr ⟨_, _, link_eq_ok_iff.2 ⟨hfaults, rfl⟩, link_eq_ok_iff.2 ⟨h ▸ hfaults, rfl⟩, rfl,
      rfl, by rw [h], ?_⟩
    intro a ha ha'
    rw [Image.get?_eq_read? (Emission.finalBytes_eq_applyAll _ origin names) ha,
      Image.get?_eq_read? (Emission.finalBytes_eq_applyAll _ origin' names) ha', h]

/-- Records that start by setting the location counter are linked alike at any two origins: with the
same faults, or with images that have the same spans and hold the same bytes wherever both reach. -/
theorem link_agrees_from_both_origins (origin origin' : UInt16) (names : List String)
    (pos : Position) (start : UInt16) (rest : List Record) :
    (∃ faults, link origin names (⟨pos, .origin start⟩ :: rest) = .error faults ∧
        link origin' names (⟨pos, .origin start⟩ :: rest) = .error faults) ∨
      ∃ image image', link origin names (⟨pos, .origin start⟩ :: rest) = .ok image ∧
        link origin' names (⟨pos, .origin start⟩ :: rest) = .ok image' ∧
        image.origin = origin ∧ image'.origin = origin' ∧ image.spans = image'.spans ∧
        ∀ a : UInt16, origin ≤ a → origin' ≤ a → image.get? a = image'.get? a := by
  apply link_eq_of_ofRecords_eq
  rw [Emission.ofRecords_origin_cons, Emission.ofRecords_origin_cons]

/-- `* = $05FE / back: JMP back`, and an instruction whose operand is longer than its mode says. -/
def acrossOrigins : List Record :=
  [⟨⟨1, 1⟩, .origin 0x05FE⟩, ⟨⟨2, 1⟩, .label 0⟩,
    ⟨⟨2, 7⟩, .operation ⟨.jmp, .absolute⟩ 0x4C (.label 0)⟩,
    ⟨⟨3, 1⟩, .operation ⟨.nop, .implied⟩ 0xEA (.word 0x1234)⟩]

/-- The higher origin cuts the jump in two, and its last byte is the first one of the image. -/
theorem link_acrossOrigins :
    ∃ image image', link 0x0600 ["back"] acrossOrigins = .ok image ∧
      link 0x0500 ["back"] acrossOrigins = .ok image' ∧ image.spans = image'.spans ∧
      image.bytes.size = 4 ∧ image'.bytes.size = 0x104 ∧
      image.get? 0x0600 = some 0x05 ∧ image'.get? 0x0600 = some 0x05 := by
  have hlink : link 0x0600 ["back"] acrossOrigins =
      .ok ⟨0x0600, #[0x05, 0xEA, 0x34, 0x12], [⟨2, 0x05FE, 3, true⟩, ⟨3, 0x0601, 1, true⟩]⟩ := by
    decide +kernel
  rcases link_agrees_from_both_origins 0x0600 0x0500 ["back"] ⟨1, 1⟩ 0x05FE acrossOrigins.tail with
    ⟨faults, hfaults, -⟩ | ⟨image, image', himage, himage', horigin, horigin', hspans, hbytes⟩
  · cases hlink.symm.trans hfaults
  · cases hlink.symm.trans himage
    have hsize : image'.bytes.size = 0x104 := by
      have hok : (link 0x0500 ["back"] acrossOrigins).map (fun i => i.bytes.size) = .ok 0x104 := by
        decide +kernel
      rw [acrossOrigins] at hok
      rw [acrossOrigins, List.tail_cons] at himage'
      rw [himage'] at hok
      exact Except.ok.inj hok
    exact ⟨_, image', hlink, himage', hspans, rfl, hsize, rfl,
      (hbytes 0x0600 (by decide) (by decide)).symm⟩

end Assembler65
