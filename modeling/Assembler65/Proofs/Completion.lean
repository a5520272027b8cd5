import Assembler65.Proofs.Emission

/-!
# The bytes that come from labels

The second pass as a function of the layout. The bytes of a record that come from labels are its
last ones, and its patch points to the first of them (`Item.encoding_of_patch?`). A patch that can
be completed stores just these bytes (`Patch.stores_eq_run`), so the second pass completes exactly
the addresses where a record writes a byte that comes from a label
(`Placed.last?_completions`).
-/

set_option autoImplicit false

namespace Assembler65

/-! ## Stores at consecutive addresses -/

theorem ofNat_eq_iff {n : Nat} {a : UInt16} : UInt16.ofNat n = a ↔ n % memorySize = a.toNat := by
  constructor
  · rintro rfl
    exact UInt16.toNat_ofNat.symm
  · intro h
    exact UInt16.toNat.inj (UInt16.toNat_ofNat.trans h)

namespace Store

theorem isSome_last?_iff {stores : List Store} {a : UInt16} :
    (last? stores a).isSome = true ↔ ∃ s ∈ stores, s.address = a := by
  induction stores with
  | nil => simp
  | cons s rest ih =>
    rw [last?_cons, Option.isSome_or, Bool.or_eq_true, ih]
    by_cases hs : s.address = a <;> simp [hs]

/-- Consecutive stores read back as the last of their bytes that falls on an address. -/
theorem last?_run (location : Nat) (bs : List UInt8) (a : UInt16) :
    last? (run location bs) a = lastAt? a.toNat location bs := by
  induction bs generalizing location with
  | nil => rfl
  | cons b rest ih => rw [run, last?_cons, ih, lastAt?, if_congr ofNat_eq_iff rfl rfl]

end Store

/-! ## Patches complete the bytes that come from labels -/

namespace Patch

/-- The bytes that a patch completes. -/
def sources (p : Patch) : List ByteSource :=
  match p.kind with
  | .word => [.addressHalf p.label .low, .addressHalf p.label .high]
  | .half half => [.addressHalf p.label half]
  | .displacement => [.displacement p.label]

theorem length_sources_pos (p : Patch) : 0 < p.sources.length := by
  rw [sources]
  split
  case h_1 => exact Nat.zero_lt_two
  case h_2 => exact Nat.one_pos
  case h_3 => exact Nat.one_pos

theorem isLiteral_of_mem_sources {p : Patch} {source : ByteSource} (h : source ∈ p.sources) :
    source.isLiteral = false := by
  rw [sources] at h
  cases hkind : p.kind with
  | word =>
    rw [hkind] at h
    simp only [List.mem_cons, List.not_mem_nil, or_false] at h
    rcases h with rfl | rfl <;> rfl
  | half half =>
    rw [hkind] at h
    rw [List.mem_singleton.1 h]
    rfl
  | displacement =>
    rw [hkind] at h
    rw [List.mem_singleton.1 h]
    rfl

end Patch

theorem half_of_ofNat (half : Half) (location : Nat) (labels : Nat → Option Nat) (next index : Nat)
    (h : labels index = some location) :
    (ByteSource.addressHalf index half).value? labels next =
      some (half.of (UInt16.ofNat location)) := by
  cases half with
  | low =>
    simp [ByteSource.value?, h, Half.of]
  | high =>
    simp only [ByteSource.value?, h, Option.map_some, Option.some.injEq, Half.of]
    apply UInt8.toNat.inj
    simp only [UInt8.toNat_ofNat', UInt16.toNat_toUInt8, UInt16.toNat_shiftRight,
      UInt16.toNat_ofNat', Nat.shiftRight_eq_div_pow]
    have h8 : UInt16.toNat 8 % 16 = 8 := rfl
    rw [h8]
    omega

/-- A displacement in range is the two's complement byte. -/
theorem displacementByte?_eq_some {d : Int} {b : UInt8} (h : displacementByte? d = some b) :
    UInt8.ofInt d = b := by
  rw [displacementByte?] at h
  split at h
  · exact Option.some.inj h
  · cases h

/-- A patch that can be completed stores the bytes it stands for, one behind the other. -/
theorem Patch.stores_eq_run {names : List String} {addresses : LabelAddresses} {p : Patch}
    {labels : Nat → Option Nat}
    (hlookup : ∀ index, addresses.lookup index = (labels index).map UInt16.ofNat)
    (hbound : ∀ index location, labels index = some location → location < memorySize)
    (hok : p.fault? names addresses = none) :
    ∃ bs, p.stores names addresses = Store.run p.address.toNat bs ∧
      p.sources.map (ByteSource.value? labels (p.address.toNat + p.sources.length)) =
        bs.map some := by
  cases htarget : labels p.label with
  | none =>
    have hnone : addresses.lookup p.label = none := by rw [hlookup, htarget]; rfl
    simp [fault?, complete, hnone] at hok
  | some location =>
    have hsome : addresses.lookup p.label = some (UInt16.ofNat location) := by
      rw [hlookup, htarget]; rfl
    have hloc : (UInt16.ofNat location).toNat = location :=
      UInt16.toNat_ofNat_of_lt' (hbound _ _ htarget)
    cases hkind : p.kind with
    | word =>
      refine ⟨[Half.low.of (UInt16.ofNat location), Half.high.of (UInt16.ofNat location)], ?_, ?_⟩
      · simp [stores, complete, hsome, hkind, Store.run]
      · simp [sources, hkind, half_of_ofNat _ _ _ _ _ htarget]
    | half half =>
      refine ⟨[half.of (UInt16.ofNat location)], ?_, ?_⟩
      · simp [stores, complete, hsome, hkind, Store.run]
      · simp [sources, hkind, half_of_ofNat _ _ _ _ _ htarget]
    | displacement =>
      -- A displacement out of range would have been a fault.
      cases hbyte : displacementByte? (p.displacement (UInt16.ofNat location)) with
      | none => simp [fault?, complete, hsome, hkind, hbyte] at hok
      | some b =>
        refine ⟨[b], ?_, ?_⟩
        · simp [stores, complete, hsome, hkind, hbyte, Store.run]
        · have hval := displacementByte?_eq_some hbyte
          rw [Patch.displacement, hloc] at hval
          simp only [sources, hkind, List.map_cons, List.map_nil, ByteSource.value?, htarget,
            List.length_cons, List.length_nil]
          rw [← hval]
          rfl

/-- The bytes of an item that come from labels are its last ones, where its patch points to. -/
theorem Item.encoding_of_patch? {item : Item} {location : Nat} {pos : Position} {patch : Patch}
    (h : item.patch? location pos = some patch) :
    ∃ literals : List UInt8, item.encoding = literals.map .literal ++ patch.sources ∧
      patch.address = UInt16.ofNat (location + literals.length) := by
  cases item with
  | operation instruction opcode operand =>
    cases operand with
    | none => cases h
    | byte value => cases h
    | word value => cases h
    | label index => cases h; exact ⟨[opcode], rfl, rfl⟩
    | labelHalf index half => cases h; exact ⟨[opcode], rfl, rfl⟩
    | branch index => cases h; exact ⟨[opcode], rfl, rfl⟩
    | bitBranch zeroPage index => cases h; exact ⟨[opcode, zeroPage], rfl, rfl⟩
  | label index => cases h
  | origin address => cases h
  | bytes values => cases h
  | words values => cases h

theorem Item.isLiteral_of_patch?_none {item : Item} {location : Nat} {pos : Position}
    (h : item.patch? location pos = none) {source : ByteSource} (hmem : source ∈ item.encoding) :
    source.isLiteral = true := by
  cases item with
  | operation instruction opcode operand =>
    cases operand with
    | none =>
      rw [List.mem_singleton.1 hmem]
      rfl
    | byte value =>
      simp only [encoding, Operand.encoding, List.mem_cons, List.not_mem_nil, or_false] at hmem
      rcases hmem with rfl | rfl <;> rfl
    | word value =>
      simp only [encoding, Operand.encoding, littleEndian, List.map_cons, List.map_nil,
        List.mem_cons, List.not_mem_nil, or_false] at hmem
      rcases hmem with rfl | rfl | rfl <;> rfl
    | label index => cases h
    | labelHalf index half => cases h
    | branch index => cases h
    | bitBranch zeroPage index => cases h
  | label index => cases hmem
  | origin address => cases hmem
  | bytes values =>
    obtain ⟨value, -, rfl⟩ := List.mem_map.1 hmem
    rfl
  | words values =>
    obtain ⟨value, -, rfl⟩ := List.mem_map.1 hmem
    rfl

namespace Placed

/-- The stores of the second pass for a record. -/
def completions (names : List String) (addresses : LabelAddresses) (p : Placed) : List Store :=
  p.patch?.toList.flatMap (Patch.stores names addresses)

theorem last?_drafts (p : Placed) (a : UInt16) :
    Store.last? p.drafts a = lastAt? a.toNat p.location p.record.item.draft :=
  Store.last?_run p.location p.record.item.draft a

/-- The first pass stores a byte wherever a record writes. -/
theorem isSome_last?_drafts {p : Placed} (hfits : p.record.item.OperandFits) (a : UInt16) :
    (Store.last? p.drafts a).isSome = p.writes a.toNat := by
  rw [← isSome_source? hfits, Bool.eq_iff_iff, last?_drafts, isSome_lastAt?_iff, source?,
    isSome_lastAt?_iff, Item.length_draft]

theorem writesLabel_of_patch?_none {p : Placed} (hpatch : p.patch? = none) (address : Nat) :
    p.writesLabel address = false := by
  rw [writesLabel]
  cases hsource : p.source? address with
  | none => rfl
  | some source =>
    have hlit := Item.isLiteral_of_patch?_none hpatch (mem_of_lastAt? hsource)
    simp [hlit]

/-- A record with a patch writes literal bytes up to the place that the patch points to, and the
bytes of the patch from there to its end. -/
theorem exists_start_of_patch? {p : Placed} (hfits : p.record.item.OperandFits)
    (hinside : p.stop ≤ memorySize) {patch : Patch} (hpatch : p.patch? = some patch) :
    ∃ start, patch.address = UInt16.ofNat start ∧ start + patch.sources.length = p.stop ∧
      (∀ address, start ≤ address → p.source? address = patch.sources[address - start]?) ∧
      ∀ address, address < start → p.writesLabel address = false := by
  obtain ⟨literals, hencoding, haddress⟩ := Item.encoding_of_patch? hpatch
  have hlength : p.record.item.encoding.length = p.record.size := Item.length_encoding hfits
  rw [hencoding, List.length_append, List.length_map] at hlength
  refine ⟨p.location + literals.length, haddress, by rw [stop]; omega, ?_, ?_⟩
  · intro address hle
    rw [source?_eq hfits hinside, if_pos (by omega), hencoding,
      List.getElem?_append_right (by rw [List.length_map]; omega), List.length_map]
    congr 1
    omega
  · intro address hlt
    rw [writesLabel, source?_eq hfits hinside]
    split
    · rw [hencoding, List.getElem?_append_left (by rw [List.length_map]; omega),
        List.getElem?_map]
      cases literals[address - p.location]? with
      | none => rfl
      | some b => rfl
    · rfl

variable {names : List String} {addresses : LabelAddresses} {labels : Nat → Option Nat}

/-- The second pass stores the bytes of a patch that can be completed, and they are those of the
layout. -/
theorem last?_completions_of_patch? {p : Placed}
    (hlookup : ∀ index, addresses.lookup index = (labels index).map UInt16.ofNat)
    (hbound : ∀ index location, labels index = some location → location < memorySize)
    (hfits : p.record.item.OperandFits) (hinside : p.stop ≤ memorySize) {patch : Patch}
    (hpatch : p.patch? = some patch) (hok : patch.fault? names addresses = none) (a : UInt16) :
    (p.writesLabel a.toNat = false ∧ Store.last? (p.completions names addresses) a = none) ∨
      ∃ b, p.writesLabel a.toNat = true ∧ p.byte? labels a.toNat = some b ∧
        Store.last? (p.completions names addresses) a = some b := by
  obtain ⟨start, haddress, hend, hsources, hliterals⟩ :=
    exists_start_of_patch? hfits hinside hpatch
  obtain ⟨bs, hstores, hvalues⟩ := Patch.stores_eq_run hlookup hbound hok
  have hlength : bs.length = patch.sources.length := by
    simpa using (congrArg List.length hvalues).symm
  have hpos := patch.length_sources_pos
  have hstart : patch.address.toNat = start := by
    rw [haddress]
    exact UInt16.toNat_ofNat_of_lt' (by show start < memorySize; omega)
  have hlast : Store.last? (p.completions names addresses) a =
      if start ≤ a.toNat then bs[a.toNat - start]? else none := by
    simp only [completions, hpatch, Option.toList_some, List.flatMap_singleton, hstores, hstart,
      Store.last?_run]
    exact lastAt?_eq_getElem? (by omega)
  by_cases hle : start ≤ a.toNat
  · rw [if_pos hle] at hlast
    -- Displacements count from the end of the patch, which is the end of the record.
    rw [hstart, hend] at hvalues
    have hvalue := congrArg (fun all => all[a.toNat - start]?) hvalues
    simp only [List.getElem?_map] at hvalue
    cases hsource : patch.sources[a.toNat - start]? with
    | none =>
      left
      have hnone : bs[a.toNat - start]? = none := by
        rw [List.getElem?_eq_none_iff, hlength, ← List.getElem?_eq_none_iff]
        exact hsource
      exact ⟨by simp [writesLabel, hsources _ hle, hsource], hlast.trans hnone⟩
    | some source =>
      right
      have hlit := Patch.isLiteral_of_mem_sources (List.mem_of_getElem? hsource)
      rw [hsource, Option.map_some] at hvalue
      obtain ⟨b, hb, hbyte⟩ := Option.map_eq_some_iff.1 hvalue.symm
      refine ⟨b, ?_, ?_, hlast.trans hb⟩
      · simp [writesLabel, hsources _ hle, hsource, hlit]
      · simp [byte?, hsources _ hle, hsource, ← hbyte]
  · left
    exact ⟨hliterals _ (Nat.lt_of_not_le hle), by rw [hlast, if_neg hle]⟩

/-- The second pass stores a byte exactly where a record writes one that comes from a label, and
it is the byte of the layout. -/
theorem last?_completions {p : Placed}
    (hlookup : ∀ index, addresses.lookup index = (labels index).map UInt16.ofNat)
    (hbound : ∀ index location, labels index = some location → location < memorySize)
    (hfits : p.record.item.OperandFits) (hadmissible : p.Admissible)
    (hok : ∀ patch, p.patch? = some patch → patch.fault? names addresses = none) (a : UInt16) :
    (p.writesLabel a.toNat = false ∧ Store.last? (p.completions names addresses) a = none) ∨
      ∃ b, p.writesLabel a.toNat = true ∧ p.byte? labels a.toNat = some b ∧
        Store.last? (p.completions names addresses) a = some b := by
  cases hpatch : p.patch? with
  | none =>
    left
    refine ⟨writesLabel_of_patch?_none hpatch _, ?_⟩
    rw [completions, hpatch]
    rfl
  | some patch =>
    exact last?_completions_of_patch? hlookup hbound hfits
      (hadmissible.stop_le_of_patch? hpatch) hpatch (hok patch hpatch) a

end Placed

/-- The second pass goes through the admitted records in order. -/
theorem Emission.completions_ofRecords (origin : UInt16) (names : List String)
    (records : List Record) :
    (ofRecords origin records).completions names =
      (admitted { location := origin.toNat } records).flatMap
        (Placed.completions names (ofRecords origin records).labels) := by
  rw [completions, patches_ofRecords, List.flatMap_assoc]
  rfl

end Assembler65
