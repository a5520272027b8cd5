import Assembler65.Proofs.LinkFaults

/-!
# Bounds on laying out records

The location counter is a word of 32 bits, and addresses are words of 16 bits. Main statement:
`Emission.stays_within_bounds`, for records of fewer than `0x80000000` bytes none of this arithmetic
loses anything. Memory never grows beyond its end, and the second pass stores only where the first
pass did, so that it leaves the length of memory as it is. With operands that fit their modes, the
location counter never passes the end of memory by even one byte, and every address that is noted
is the location counter itself (`Emission.PlacedExactly`).
-/

set_option autoImplicit false

namespace Assembler65

/-! ## The length of memory -/

namespace Store

/-- Memory from an origin on reaches at most to the last address. -/
theorem size_applyAll_le (origin : UInt16) (stores : List Store) :
    (applyAll origin #[] stores).size ≤ memorySize - origin.toNat := by
  by_contra hlong
  -- Something would have to be stored behind the last address.
  rcases (lt_size_applyAll_iff #[] stores _).1 (Nat.lt_of_not_le hlong) with
    hnone | ⟨s, -, hle, hreach⟩
  · exact absurd hnone (Nat.not_lt_zero _)
  · have hlast : s.address.toNat < memorySize := s.address.toNat_lt
    have hstart : origin.toNat ≤ s.address.toNat := UInt16.le_iff_toNat_le.1 hle
    omega

/-- Stores to addresses that were stored to before leave memory as long as it was. -/
theorem size_applyAll_of_stored {origin : UInt16} {first second : List Store}
    (h : ∀ s ∈ second, ∃ t ∈ first, t.address = s.address) :
    (applyAll origin (applyAll origin #[] first) second).size =
      (applyAll origin #[] first).size := by
  apply eq_of_forall_lt_iff
  intro i
  rw [lt_size_applyAll_iff]
  constructor
  · rintro (hlt | ⟨s, hs, hle, hreach⟩)
    · exact hlt
    · obtain ⟨t, ht, haddress⟩ := h s hs
      rw [← haddress] at hle hreach
      exact (lt_size_applyAll_iff #[] first i).2 (.inr ⟨t, ht, hle, hreach⟩)
  · exact .inl

end Store

/-! ## Where patches point -/

theorem Store.getElem?_run (location : Nat) (bs : List UInt8) (k : Nat) :
    (run location bs)[k]? = bs[k]?.map fun b => ⟨UInt16.ofNat (location + k), b⟩ := by
  induction bs generalizing location k with
  | nil => rfl
  | cons b rest ih =>
    cases k with
    | zero => rfl
    | succ k => simp [run, ih, Nat.add_assoc, Nat.add_comm 1 k]

/-- The addresses of consecutive stores are consecutive locations within memory. -/
theorem Store.map_toNat_run {location : Nat} {bs : List UInt8}
    (h : location + bs.length ≤ memorySize) :
    (run location bs).map (fun s => s.address.toNat) = List.range' location bs.length := by
  induction bs generalizing location with
  | nil => rfl
  | cons b rest ih =>
    rw [List.length_cons] at h ⊢
    have hlocation : (UInt16.ofNat location).toNat = location :=
      UInt16.toNat_ofNat_of_lt' (by show location < memorySize; omega)
    rw [run, List.map_cons, hlocation, ih (by omega), List.range'_succ]

/-- A patch stores nothing but the bytes it stands for, at consecutive addresses. -/
theorem Patch.exists_address_of_mem_stores {names : List String} {addresses : LabelAddresses}
    {p : Patch} {s : Store} (h : s ∈ p.stores names addresses) :
    ∃ k < p.sources.length, s.address = p.address + UInt16.ofNat k := by
  rw [stores, complete] at h
  rw [sources]
  cases hlabel : addresses.lookup p.label with
  | none => simp [hlabel] at h
  | some target =>
    cases hkind : p.kind with
    | word =>
      simp only [hlabel, hkind, List.mem_cons, List.not_mem_nil, or_false] at h
      rcases h with rfl | rfl
      · exact ⟨0, by simp, by simp⟩
      · exact ⟨1, by simp, rfl⟩
    | half half =>
      simp only [hlabel, hkind, List.mem_singleton] at h
      exact ⟨0, by simp, by simp [h]⟩
    | displacement =>
      simp only [hlabel, hkind] at h
      cases hbyte : displacementByte? (p.displacement target) with
      | none => simp [hbyte] at h
      | some b =>
        simp only [hbyte, List.mem_singleton] at h
        exact ⟨0, by simp, by simp [h]⟩

/-- The second pass stores for a record only where the first pass did, whatever its operand. -/
theorem Placed.exists_draft_of_mem_completions {names : List String}
    {addresses : LabelAddresses} {p : Placed} {s : Store}
    (h : s ∈ p.completions names addresses) : ∃ t ∈ p.drafts, t.address = s.address := by
  obtain ⟨patch, hpatch, hs⟩ := List.mem_flatMap.1 h
  rw [Option.mem_toList] at hpatch
  obtain ⟨literals, hencoding, haddress⟩ := Item.encoding_of_patch? hpatch
  obtain ⟨k, hk, hstore⟩ := Patch.exists_address_of_mem_stores hs
  -- Both passes count modulo the size of memory, so that they agree even beyond its end.
  have hlength : literals.length + k < p.record.item.draft.length := by
    rw [Item.length_draft, hencoding, List.length_append, List.length_map]
    omega
  refine ⟨⟨UInt16.ofNat (p.location + (literals.length + k)),
    p.record.item.draft[literals.length + k]⟩, ?_, ?_⟩
  · apply List.mem_of_getElem? (i := literals.length + k)
    rw [drafts, Store.getElem?_run, List.getElem?_eq_getElem hlength, Option.map_some]
  · rw [hstore, haddress, ← UInt16.ofNat_add, Nat.add_assoc]

/-- The place in an item of the first byte that comes from a label. -/
def Item.labelOffset? (item : Item) : Option Nat :=
  item.encoding.findIdx? fun source => !source.isLiteral

/-- The patch of an item points to its first byte that comes from a label. -/
theorem Item.map_address_patch? (item : Item) (location : Nat) (pos : Position) :
    (item.patch? location pos).map Patch.address =
      item.labelOffset?.map fun k => UInt16.ofNat (location + k) := by
  rw [labelOffset?]
  cases hpatch : item.patch? location pos with
  | none =>
    have hnone : (item.encoding.findIdx? fun source => !source.isLiteral) = none := by
      rw [List.findIdx?_eq_none_iff]
      intro source hsource
      rw [isLiteral_of_patch?_none hpatch hsource]
      rfl
    rw [hnone]
    rfl
  | some patch =>
    obtain ⟨literals, hencoding, haddress⟩ := encoding_of_patch? hpatch
    obtain ⟨first, rest, hsources⟩ := List.exists_cons_of_length_pos patch.length_sources_pos
    have hfirst : first.isLiteral = false :=
      Patch.isLiteral_of_mem_sources (hsources ▸ List.mem_cons_self)
    have hliterals : ((literals.map ByteSource.literal).findIdx? fun source =>
        !source.isLiteral) = none := by
      rw [List.findIdx?_eq_none_iff, List.forall_mem_map]
      intro b _
      rfl
    rw [hencoding, hsources, List.findIdx?_append, hliterals, List.findIdx?_cons]
    simp [hfirst, haddress]

/-! ## The location counter -/

namespace Emission

variable {origin : UInt16} {records : List Record}

/-- What holds at the start and is kept by every record holds after all of them. -/
theorem invariant_ofRecords (inv : Emission → Prop) (hstart : inv { location := origin.toNat })
    (hstep : ∀ e, inv e → ∀ r ∈ records, inv (e.place r)) : inv (ofRecords origin records) :=
  List.foldlRecOn records place hstart hstep

theorem location_ofRecords_le (origin : UInt16) (records : List Record) :
    (ofRecords origin records).location ≤ memorySize + 2 := by
  apply invariant_ofRecords fun e => e.location ≤ memorySize + 2
  · have horigin : origin.toNat < memorySize := origin.toNat_lt
    show origin.toNat ≤ memorySize + 2
    omega
  · intro e he r _
    exact location_place_le he r

/-- An operand longer than its mode says reaches two bytes beyond the end of memory. -/
example : (ofRecords 0xFFFF
    [⟨⟨1, 1⟩, .operation ⟨.nop, .implied⟩ 0xEA (.word 0x1234)⟩]).location = memorySize + 2 := by
  decide

/-- With operands that fit their modes, the location counter stays within memory. -/
theorem location_ofRecords_le_memorySize (hfits : ∀ r ∈ records, r.item.OperandFits) :
    (ofRecords origin records).location ≤ memorySize := by
  apply invariant_ofRecords fun e => e.location ≤ memorySize
  · exact Nat.le_of_lt origin.toNat_lt
  · intro e he r hr
    -- As long as the bound holds, the location counter is the one that steps over overflows.
    rw [location_place (hfits r hr) he]
    exact Placed.next_le_memorySize he

/-! ## The second pass -/

/-- The second pass stores only where the first pass did. -/
theorem exists_store_of_mem_completions {names : List String} {s : Store}
    (h : s ∈ (ofRecords origin records).completions names) :
    ∃ t ∈ (ofRecords origin records).stores.toList, t.address = s.address := by
  rw [completions_ofRecords] at h
  obtain ⟨p, hp, hs⟩ := List.mem_flatMap.1 h
  obtain ⟨t, ht, haddress⟩ := Placed.exists_draft_of_mem_completions hs
  refine ⟨t, ?_, haddress⟩
  rw [stores_ofRecords]
  exact List.mem_flatMap.2 ⟨p, hp, ht⟩

/-- At no point of the second pass is memory longer or shorter than before it. -/
theorem size_applyAll_completions {names : List String} {done : List Store}
    (h : done <+: (ofRecords origin records).completions names) :
    (Store.applyAll origin ((ofRecords origin records).draftBytes origin) done).size =
      ((ofRecords origin records).draftBytes origin).size := by
  apply Store.size_applyAll_of_stored
  intro s hs
  exact exists_store_of_mem_completions (h.subset hs)

/-- The high byte of a word lies behind the low byte, not at the start of memory. -/
theorem toNat_address_add_one (hfits : ∀ r ∈ records, r.item.OperandFits) {patch : Patch}
    (h : patch ∈ (ofRecords origin records).patches.toList) (hkind : patch.kind = .word) :
    (patch.address + 1).toNat = patch.address.toNat + 1 := by
  rw [patches_ofRecords] at h
  obtain ⟨p, hp, hpatch⟩ := List.mem_flatMap.1 h
  have hpatch := Option.mem_toList.1 hpatch
  obtain ⟨hmem, hadmissible⟩ := admissible_of_mem_admitted_origin hp
  have hinside := hadmissible.stop_le_of_patch? hpatch
  obtain ⟨start, haddress, hend, -, -⟩ :=
    Placed.exists_start_of_patch? (hfits _ hmem) hinside hpatch
  -- A word is the last two bytes of its record, and the record lies within memory.
  have hlength : patch.sources.length = 2 := by
    rw [Patch.sources, hkind]
    rfl
  have hlt : start + 1 < memorySize := by omega
  have hstart : (UInt16.ofNat start).toNat = start :=
    UInt16.toNat_ofNat_of_lt' (Nat.lt_of_succ_lt hlt)
  rw [haddress, UInt16.toNat_add, hstart]
  exact Nat.mod_eq_of_lt hlt

/-! ## Addresses -/

/-- The addresses that are noted when a record is placed are the location counter itself: those of
its bytes, of its label, of its patch and of its span. -/
structure PlacedExactly (e : Emission) (r : Record) : Prop where
  stores : (e.place r).stores.toList.map (fun s => s.address.toNat) =
    e.stores.toList.map (fun s => s.address.toNat) ++ List.range' e.location r.size
  labels : ∀ index, ((e.place r).labels.lookup index).map UInt16.toNat =
    if r.item = .label index then some e.location else (e.labels.lookup index).map UInt16.toNat
  patches : (e.place r).patches.toList.map (fun p => p.address.toNat) =
    e.patches.toList.map (fun p => p.address.toNat) ++
      (r.item.labelOffset?.map fun k => e.location + k).toList
  spans : (e.place r).spans.toList.map (fun s => s.address.toNat) =
    e.spans.toList.map (fun s => s.address.toNat) ++ if 0 < r.size then [e.location] else []

/-- A record within memory whose operand fits its mode takes its addresses unchanged. -/
theorem placedExactly {e : Emission} (he : e.location ≤ memorySize + 2) {r : Record}
    (hfits : r.item.OperandFits) (hsize : r.size < 0x80000000) (hover : e.overflows r = false) :
    e.PlacedExactly r := by
  obtain ⟨hinside, hlabel⟩ := overflows_eq_false_iff.1 hover
  rw [advance_eq_add he hsize] at hinside
  -- The check looks at the size that the mode sets aside. The bytes are as many, since the operand
  -- fits.
  have hlength : r.item.encoding.length = r.size := Item.length_encoding hfits
  have hdraft : r.item.draft.length = r.size := r.item.length_draft.trans hlength
  constructor
  case stores =>
    rw [← hdraft] at hinside ⊢
    simp [place_of_not_overflows hover, ← Store.map_toNat_run hinside]
  case labels =>
    intro index
    rw [place_of_not_overflows hover, lookup_nextLabels]
    split
    case isTrue hitem =>
      -- A label at the very end of memory is an overflow.
      have hlocation : e.location < memorySize := hlabel (by rw [hitem]; rfl)
      rw [Option.map_some, UInt16.toNat_ofNat_of_lt' hlocation]
    case isFalse => rfl
  case patches =>
    have hpatch : (r.item.patch? e.location r.pos).map (fun p => p.address.toNat) =
        r.item.labelOffset?.map fun k => e.location + k := by
      have haddress := congrArg (Option.map UInt16.toNat)
        (r.item.map_address_patch? e.location r.pos)
      rw [Option.map_map, Option.map_map] at haddress
      refine haddress.trans (Option.map_congr fun k hk => ?_)
      -- The patch points into the record and so into memory.
      have hk : k < r.item.encoding.length := (List.findIdx?_eq_some_iff_getElem.1 hk).1
      exact UInt16.toNat_ofNat_of_lt' (by show e.location + k < memorySize; omega)
    simp [place_of_not_overflows hover, ← hpatch, Option.toList_map]
  case spans =>
    rw [place_of_not_overflows hover, span?]
    -- Only a record without bytes can stand at the very end of memory, and it has no span.
    by_cases hsize : 0 < r.size
    · have hlocation : (UInt16.ofNat e.location).toNat = e.location :=
        UInt16.toNat_ofNat_of_lt' (by show e.location < memorySize; omega)
      simp [hsize, hlocation]
    · simp [hsize]

/-- All arithmetic of the two passes stays in bounds. Whatever the operands, memory ends with the
last address, the second pass stores only where the first one did and never changes the length of
memory, the location counter is at most two bytes beyond the end, and the check for the end does not
wrap. With operands that fit their modes, the location counter never passes the end of memory, every
address that is noted is the location counter itself, a new location is never an overflow, and no
word wraps around to the first address. -/
theorem stays_within_bounds (origin : UInt16) (names : List String) {records : List Record}
    (hsizes : ∀ r ∈ records, r.size < 0x80000000) :
    ((ofRecords origin records).draftBytes origin).size ≤ memorySize - origin.toNat ∧
      ((ofRecords origin records).finalBytes origin names).size ≤ memorySize - origin.toNat ∧
      (∀ s ∈ (ofRecords origin records).completions names,
        ∃ t ∈ (ofRecords origin records).stores.toList, t.address = s.address) ∧
      (∀ done, done <+: (ofRecords origin records).completions names →
        (Store.applyAll origin ((ofRecords origin records).draftBytes origin) done).size =
          ((ofRecords origin records).draftBytes origin).size) ∧
      (∀ front, front <+: records → (ofRecords origin front).location ≤ memorySize + 2) ∧
      (∀ front r, front ++ [r] <+: records →
        (UInt32.ofNat (ofRecords origin front).location + UInt32.ofNat r.size).toNat =
          (ofRecords origin front).location + r.size) ∧
      ((∀ r ∈ records, r.item.OperandFits) →
        (∀ front, front <+: records → (ofRecords origin front).location ≤ memorySize) ∧
          (∀ front r, front ++ [r] <+: records →
            ((ofRecords origin front).overflows r = false →
              (ofRecords origin front).PlacedExactly r) ∧
            ∀ address, r.item = .origin address →
              (ofRecords origin front).overflows r = false) ∧
          ∀ patch ∈ (ofRecords origin records).patches.toList, patch.kind = .word →
            (patch.address + 1).toNat = patch.address.toNat + 1) := by
  have hdraft : ((ofRecords origin records).draftBytes origin).size ≤
      memorySize - origin.toNat := Store.size_applyAll_le origin _
  refine ⟨hdraft, ?_, ?_, ?_, ?_, ?_, ?_⟩
  · rw [finalBytes, size_applyAll_completions (List.prefix_refl _)]
    exact hdraft
  · intro s hs
    exact exists_store_of_mem_completions hs
  · intro done hdone
    exact size_applyAll_completions hdone
  · intro front _
    exact location_ofRecords_le origin front
  · intro front r hfront
    have hr : r ∈ records := hfront.subset (List.mem_append_right _ List.mem_cons_self)
    exact advance_eq_add (location_ofRecords_le origin front) (hsizes r hr)
  · intro hfits
    have hlocation : ∀ front, front <+: records →
        (ofRecords origin front).location ≤ memorySize := by
      intro front hfront
      apply location_ofRecords_le_memorySize
      intro r hr
      exact hfits r (hfront.subset hr)
    refine ⟨hlocation, ?_, ?_⟩
    · intro front r hfront
      have hr : r ∈ records := hfront.subset (List.mem_append_right _ List.mem_cons_self)
      refine ⟨placedExactly (location_ofRecords_le origin front) (hfits r hr) (hsizes r hr), ?_⟩
      intro address hitem
      apply overflows_origin _ hitem
      exact hlocation front ((List.prefix_append front [r]).trans hfront)
    · intro patch hpatch hkind
      exact toNat_address_add_one hfits hpatch hkind

end Emission

/-- `* = $FFFD / end: JMP end / * = $0600 / NOP`. -/
def upToTheEnd : List Record :=
  [⟨⟨1, 1⟩, .origin 0xFFFD⟩, ⟨⟨2, 1⟩, .label 0⟩,
    ⟨⟨2, 6⟩, .operation ⟨.jmp, .absolute⟩ 0x4C (.label 0)⟩, ⟨⟨3, 1⟩, .origin 0x0600⟩,
    ⟨⟨4, 1⟩, .operation ⟨.nop, .implied⟩ 0xEA .none⟩]

/-- The jump fills memory to its last byte, so that the location counter is one beyond it. The next
origin is taken all the same, and the high byte of the jump's target is the last byte of memory. -/
theorem upToTheEnd_within_bounds :
    (∀ r ∈ upToTheEnd, r.size < 0x80000000) ∧ (∀ r ∈ upToTheEnd, r.item.OperandFits) ∧
      ((Emission.ofRecords 0x0600 upToTheEnd).finalBytes 0x0600 ["end"]).size ≤ 0xFA00 ∧
      (Emission.ofRecords 0x0600 (upToTheEnd.take 3)).location = memorySize ∧
      (Emission.ofRecords 0x0600 (upToTheEnd.take 3)).overflows ⟨⟨3, 1⟩, .origin 0x0600⟩ = false ∧
      (Emission.ofRecords 0x0600 (upToTheEnd.take 2)).PlacedExactly
        ⟨⟨2, 6⟩, .operation ⟨.jmp, .absolute⟩ 0x4C (.label 0)⟩ ∧
      ((0xFFFE : UInt16) + 1).toNat = (0xFFFE : UInt16).toNat + 1 := by
  have hsizes : ∀ r ∈ upToTheEnd, r.size < 0x80000000 := by decide
  have hfits : ∀ r ∈ upToTheEnd, r.item.OperandFits := by decide
  obtain ⟨-, hfinal, -, -, -, -, hexact⟩ := Emission.stays_within_bounds 0x0600 ["end"] hsizes
  obtain ⟨-, hplaced, hwords⟩ := hexact hfits
  have hjump := hplaced (upToTheEnd.take 2) _ ⟨upToTheEnd.drop 3, rfl⟩
  have horigin := hplaced (upToTheEnd.take 3) _ ⟨upToTheEnd.drop 4, rfl⟩
  refine ⟨hsizes, hfits, hfinal, by decide, horigin.2 _ rfl, hjump.1 (by decide), ?_⟩
  exact hwords ⟨0xFFFE, 0, .word, ⟨2, 6⟩⟩ (by decide) rfl

end Assembler65
