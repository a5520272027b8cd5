import Assembler65.Proofs.Completion
import Mathlib.Order.Bounds.Basic

/-!
# Linked images

The image of a successful link in terms of the layout of its records. An address that one record
writes holds the byte of that record, with labels at the locations of the layout; an address that
none writes holds zero; and the image ends behind the highest address written
(`link_image_eq_layout`). This is so for records of any size: one that is longer than memory, and
passes the check for its end in 32 bits, goes around memory and writes its addresses repeatedly.

Where several records write one address, the image holds the byte of the `survivor`: the last
record that takes its byte there from a label, or else the last record. All label bytes are stored
after all literal ones, so a literal laid over an earlier label operand is lost
(`get?_link_eq_last_writer_iff`).
-/

set_option autoImplicit false

namespace Assembler65

/-- The record whose byte stays at an address: the last one that takes its byte there from a label,
or else the last one that writes there. -/
def survivor (placed : List Placed) (address : Nat) : Option Placed :=
  (placed.filter fun p => p.writesLabel address).getLast?.or (writers placed address).getLast?

/-- What a successful link says about a layout, the addresses of labels and the image. -/
structure Linked (origin : UInt16) (names : List String) (placed : List Placed)
    (addresses : LabelAddresses) (image : Image) : Prop where
  origin_eq : image.origin = origin
  fits : ∀ p ∈ placed, p.record.item.OperandFits
  admissible : ∀ p ∈ placed, p.Admissible
  labels_inside : ∀ index location, labelLocation? placed index = some location →
    location < memorySize
  lookup : ∀ index, addresses.lookup index = (labelLocation? placed index).map UInt16.ofNat
  completed : ∀ p ∈ placed, ∀ patch, p.patch? = some patch → patch.fault? names addresses = none
  bytes_eq : image.bytes = Store.applyAll origin #[]
    (placed.flatMap Placed.drafts ++ placed.flatMap (Placed.completions names addresses))

theorem link_eq_ok_iff {origin : UInt16} {names : List String} {records : List Record}
    {image : Image} :
    link origin names records = .ok image ↔
      (Emission.ofRecords origin records).allFaults names = [] ∧
        image = ⟨origin, (Emission.ofRecords origin records).finalBytes origin names,
          (Emission.ofRecords origin records).spans.toList⟩ := by
  simp only [link]
  split
  · rename_i hnone
    rw [Except.ok.injEq]
    exact ⟨fun h => ⟨hnone, h.symm⟩, fun h => h.2.symm⟩
  · rename_i hsome
    exact ⟨nofun, fun h => absurd h.1 hsome⟩

/-- A data record of zeros. -/
def zeros (count : Nat) : List Record := [⟨⟨1, 1⟩, .bytes (List.replicate count 0)⟩]

theorem operandFits_zeros (count : Nat) : ∀ r ∈ zeros count, r.item.OperandFits :=
  List.forall_mem_singleton.2 trivial

/-- Data alone is linked if it passes the check for the end of memory. -/
theorem link_zeros {count : Nat} (hpos : 0 < count) (h : advance 0x0600 count ≤ memorySize) :
    ∃ image, link 0x0600 [] (zeros count) = .ok image ∧
      image.spans = [⟨1, 0x0600, count, false⟩] := by
  have hover : Emission.overflows { location := 0x0600 }
      ⟨⟨1, 1⟩, .bytes (List.replicate count 0)⟩ = false := by
    rw [Emission.overflows_eq_false_iff, Record.size, Item.size, List.length_replicate]
    exact ⟨h, fun hlabel => absurd hlabel Bool.false_ne_true⟩
  have hplace : Emission.ofRecords 0x0600 (zeros count) = Emission.place { location := 0x0600 }
      ⟨⟨1, 1⟩, .bytes (List.replicate count 0)⟩ := rfl
  rw [Emission.place_of_not_overflows hover] at hplace
  refine ⟨_, link_eq_ok_iff.2 ⟨?_, rfl⟩, ?_⟩
  · simp [hplace, Emission.allFaults, Item.patch?]
  · simp [hplace, Emission.span?, Record.size, Item.size, Item.isCode, hpos]

/-- The first pass of a successful link rejects nothing and follows the layout. -/
theorem admitted_of_link_eq_ok {origin : UInt16} {names : List String} {records : List Record}
    {image : Image} (hfits : ∀ r ∈ records, r.item.OperandFits)
    (hlink : link origin names records = .ok image) :
    Emission.admitted { location := origin.toNat } records = layout origin.toNat records := by
  have hfaults := (link_eq_ok_iff.1 hlink).1
  rw [Emission.allFaults, List.append_eq_nil_iff, Emission.ofRecords,
    Emission.faults_foldl_place] at hfaults
  have hrejected : Emission.rejected { location := origin.toNat } records = [] := by
    simpa using hfaults.1
  exact Emission.admitted_eq_layout hfits hrejected

/-- The image of a successful link has one span for each record with bytes, in order. -/
theorem spans_of_link_eq_ok {origin : UInt16} {names : List String} {records : List Record}
    {image : Image} (hfits : ∀ r ∈ records, r.item.OperandFits)
    (hlink : link origin names records = .ok image) :
    image.spans =
      ((layout origin.toNat records).filter fun p => 0 < p.record.size).map Placed.span := by
  have hadmitted := admitted_of_link_eq_ok hfits hlink
  obtain ⟨-, rfl⟩ := link_eq_ok_iff.1 hlink
  rw [Emission.ofRecords, Emission.spans_foldl_place, hadmitted]
  rfl

theorem linked_of_link_eq_ok {origin : UInt16} {names : List String} {records : List Record}
    {image : Image} (hfits : ∀ r ∈ records, r.item.OperandFits)
    (hlink : link origin names records = .ok image) :
    ∃ addresses, Linked origin names (layout origin.toNat records) addresses image := by
  have hadmitted := admitted_of_link_eq_ok hfits hlink
  obtain ⟨hfaults, rfl⟩ := link_eq_ok_iff.1 hlink
  rw [Emission.allFaults, List.append_eq_nil_iff] at hfaults
  obtain ⟨-, hpatched⟩ := hfaults
  have hbounds : ∀ p ∈ layout origin.toNat records, p.record ∈ records ∧ p.Admissible := by
    intro p hp
    rw [← hadmitted] at hp
    exact Emission.admissible_of_mem_admitted_origin hp
  have hpatches : (Emission.ofRecords origin records).patches.toList =
      (layout origin.toNat records).flatMap fun p => p.patch?.toList := by
    rw [Emission.patches_ofRecords, hadmitted]
  refine ⟨(Emission.ofRecords origin records).labels, ?_⟩
  constructor
  case origin_eq => rfl
  case fits => exact fun p hp => hfits p.record (hbounds p hp).1
  case admissible => exact fun p hp => (hbounds p hp).2
  case labels_inside =>
    intro index location h
    obtain ⟨p, hp, hitem, rfl⟩ := exists_of_labelLocation? h
    exact (hbounds p hp).2.label_lt (by rw [hitem]; rfl)
  case lookup =>
    intro index
    rw [Emission.lookup_labels_ofRecords, hadmitted]
  case completed =>
    intro p hp patch hpatch
    rw [List.filterMap_eq_nil_iff] at hpatched
    apply hpatched
    rw [hpatches, List.mem_flatMap]
    exact ⟨p, hp, by simp [hpatch]⟩
  case bytes_eq =>
    show Emission.finalBytes _ origin names = _
    rw [Emission.finalBytes, Emission.draftBytes, Emission.stores_ofRecords,
      Emission.completions_ofRecords, hadmitted, Store.applyAll_append]

namespace Linked

variable {origin : UInt16} {names : List String} {placed : List Placed}
  {addresses : LabelAddresses} {image : Image}

/-- Every record has its byte at every address that it writes: all its labels have locations. -/
theorem exists_byte? (h : Linked origin names placed addresses image) {p : Placed}
    (hp : p ∈ placed) {a : UInt16} (hw : p.writes a.toNat = true) :
    ∃ b, p.byte? (labelLocation? placed) a.toNat = some b := by
  rcases Placed.last?_completions h.lookup h.labels_inside (h.fits p hp) (h.admissible p hp)
    (h.completed p hp) a with ⟨hl, -⟩ | ⟨b, -, hb, -⟩
  · obtain ⟨b, -, hb⟩ :=
      Placed.byte?_of_not_writesLabel (h.fits p hp) hw hl (labelLocation? placed)
    exact ⟨b, hb⟩
  · exact ⟨b, hb⟩

/-- The last of all stores to an address is the byte of the survivor. -/
theorem last?_eq_survivor (h : Linked origin names placed addresses image) (a : UInt16) :
    Store.last?
        (placed.flatMap Placed.drafts ++ placed.flatMap (Placed.completions names addresses)) a =
      (survivor placed a.toNat).bind fun p => p.byte? (labelLocation? placed) a.toNat := by
  have hcompletions : ∀ p ∈ placed,
      (p.writesLabel a.toNat = false ∧ Store.last? (p.completions names addresses) a = none) ∨
        ∃ b, p.writesLabel a.toNat = true ∧ p.byte? (labelLocation? placed) a.toNat = some b ∧
          Store.last? (p.completions names addresses) a = some b := fun p hp =>
    Placed.last?_completions h.lookup h.labels_inside (h.fits p hp) (h.admissible p hp)
      (h.completed p hp) a
  -- The sources of the last stores, in the terms of the layout: in the second pass the records that
  -- write a label byte here, and in the first pass all that write here.
  have hlabelled : (placed.filter fun p =>
      (Store.last? (p.completions names addresses) a).isSome) =
        placed.filter fun p => p.writesLabel a.toNat := by
    apply List.filter_congr
    intro p hp
    rcases hcompletions p hp with ⟨hl, hnone⟩ | ⟨b, hl, -, hsome⟩
    · rw [hl, hnone]; rfl
    · rw [hl, hsome]; rfl
  have hwriters : (placed.filter fun p => (Store.last? p.drafts a).isSome) =
      writers placed a.toNat :=
    List.filter_congr fun p hp => Placed.isSome_last?_drafts (h.fits p hp) a
  rw [Store.last?_append, Store.last?_flatMap, Store.last?_flatMap, hlabelled, hwriters, survivor]
  cases hlast : (placed.filter fun p => p.writesLabel a.toNat).getLast? with
  | some q =>
    have hq := List.mem_of_getLast? hlast
    rw [List.mem_filter] at hq
    rcases hcompletions q hq.1 with ⟨hl, -⟩ | ⟨b, -, hbyte, hsome⟩
    · rw [hq.2] at hl
      cases hl
    · simp [hbyte, hsome]
  | none =>
    -- Without a label byte, the literal of the last writer is still there.
    rw [List.getLast?_eq_none_iff, List.filter_eq_nil_iff] at hlast
    cases hwriter : (writers placed a.toNat).getLast? with
    | none => rfl
    | some q =>
      obtain ⟨hq, hw⟩ := mem_writers_iff.1 (List.mem_of_getLast? hwriter)
      have hl : q.writesLabel a.toNat = false := by simpa using hlast q hq
      obtain ⟨b, hsource, hbyte⟩ :=
        Placed.byte?_of_not_writesLabel (h.fits q hq) hw hl (labelLocation? placed)
      have hdraft : Store.last? q.drafts a = some b :=
        (q.last?_drafts a).trans (Item.lastAt?_draft_of_literal hsource)
      simp [hdraft, hbyte]

theorem survivor_eq_some (h : Linked origin names placed addresses image) {address : Nat}
    {p : Placed} (hs : survivor placed address = some p) : p ∈ writers placed address := by
  rw [survivor, Option.or_eq_some_iff] at hs
  rcases hs with hs | ⟨-, hs⟩
  · have hp := List.mem_of_getLast? hs
    rw [List.mem_filter] at hp
    exact mem_writers_iff.2 ⟨hp.1, Placed.writes_of_writesLabel (h.fits p hp.1) hp.2⟩
  · exact List.mem_of_getLast? hs

/-- An address has a survivor exactly if some record writes it. -/
theorem isSome_survivor_iff (h : Linked origin names placed addresses image) {address : Nat} :
    (survivor placed address).isSome = true ↔ ∃ p ∈ placed, p.writes address = true := by
  constructor
  · intro hs
    obtain ⟨p, hp⟩ := Option.isSome_iff_exists.1 hs
    exact ⟨p, mem_writers_iff.1 (h.survivor_eq_some hp)⟩
  · rintro ⟨p, hp, hw⟩
    have hne : writers placed address ≠ [] := List.ne_nil_of_mem (mem_writers_iff.2 ⟨hp, hw⟩)
    rw [survivor, Option.isSome_or, Bool.or_eq_true]
    exact Or.inr (List.getLast?_isSome.2 hne)

/-- The image reaches exactly as far as records write. -/
theorem lt_size_iff (h : Linked origin names placed addresses image) (i : Nat) :
    i < image.bytes.size ↔
      ∃ p ∈ placed, ∃ address, p.writes address = true ∧ origin.toNat ≤ address ∧
        i ≤ address - origin.toNat := by
  -- Something is stored at an address exactly if a record writes it.
  have hstored : ∀ a : UInt16,
      (∃ s ∈ placed.flatMap Placed.drafts ++
        placed.flatMap (Placed.completions names addresses), s.address = a) ↔
        ∃ p ∈ placed, p.writes a.toNat = true := by
    intro a
    rw [← Store.isSome_last?_iff, h.last?_eq_survivor, ← h.isSome_survivor_iff]
    cases hs : survivor placed a.toNat with
    | none => rfl
    | some p =>
      obtain ⟨hp, hw⟩ := mem_writers_iff.1 (h.survivor_eq_some hs)
      obtain ⟨b, hb⟩ := h.exists_byte? hp hw
      simp [hb]
  rw [h.bytes_eq, Store.lt_size_applyAll_iff]
  constructor
  · rintro (hlt | ⟨s, hs, hle, hi⟩)
    · simp at hlt
    · obtain ⟨p, hp, hw⟩ := (hstored s.address).1 ⟨s, hs, rfl⟩
      exact ⟨p, hp, s.address.toNat, hw, UInt16.le_iff_toNat_le.1 hle, hi⟩
  · rintro ⟨p, hp, address, hw, hle, hi⟩
    have ha : (UInt16.ofNat address).toNat = address := UInt16.toNat_ofNat_of_lt' (lt_of_writes hw)
    obtain ⟨s, hs, hsa⟩ := (hstored (UInt16.ofNat address)).2 ⟨p, hp, by rw [ha]; exact hw⟩
    refine Or.inr ⟨s, hs, ?_, ?_⟩
    · rw [hsa, UInt16.le_iff_toNat_le, ha]
      exact hle
    · rw [hsa, ha]
      exact hi

/-- Records of fewer than `0x80000000` bytes end within memory. -/
theorem stop_le {records : List Record}
    (h : Linked origin names (layout origin.toNat records) addresses image)
    (hsizes : ∀ r ∈ records, r.size < 0x80000000) {p : Placed}
    (hp : p ∈ layout origin.toNat records) : p.stop ≤ memorySize :=
  (h.admissible p hp).stop_le (hsizes _ (record_mem_of_mem_layout hp))

/-- Inside the image, an address reads the byte of its survivor, or zero without one. -/
theorem get?_eq (h : Linked origin names placed addresses image) {a : UInt16} (ha : origin ≤ a)
    (hin : a.toNat - origin.toNat < image.bytes.size) :
    image.get? a = some (((survivor placed a.toNat).bind fun p =>
      p.byte? (labelLocation? placed) a.toNat).getD 0) := by
  rw [h.bytes_eq] at hin
  rw [Image.get?, h.origin_eq, if_neg (UInt16.not_lt.2 ha), h.bytes_eq,
    Store.getElem?_applyAll ha _ _ hin, h.last?_eq_survivor]
  rfl

/-- An address that records write reads the byte of its survivor. -/
theorem get?_eq_survivor (h : Linked origin names placed addresses image) {a : UInt16}
    (ha : origin ≤ a) {p : Placed} (hs : survivor placed a.toNat = some p) :
    ∃ b, p.byte? (labelLocation? placed) a.toNat = some b ∧ image.get? a = some b := by
  obtain ⟨hp, hw⟩ := mem_writers_iff.1 (h.survivor_eq_some hs)
  obtain ⟨b, hb⟩ := h.exists_byte? hp hw
  have hin : a.toNat - origin.toNat < image.bytes.size :=
    (h.lt_size_iff _).2 ⟨p, hp, a.toNat, hw, UInt16.le_iff_toNat_le.1 ha, le_rfl⟩
  refine ⟨b, hb, ?_⟩
  rw [h.get?_eq ha hin, hs]
  simp [hb]

/-- An address that one record writes reads the byte of that record. -/
theorem get?_of_writers_eq_singleton (h : Linked origin names placed addresses image) {a : UInt16}
    (ha : origin ≤ a) {p : Placed} (hone : writers placed a.toNat = [p]) :
    ∃ b, p.byte? (labelLocation? placed) a.toNat = some b ∧ image.get? a = some b := by
  have hmem : p ∈ writers placed a.toNat := by rw [hone]; exact List.mem_singleton_self p
  have hsome := h.isSome_survivor_iff.2 ⟨p, mem_writers_iff.1 hmem⟩
  obtain ⟨q, hq⟩ := Option.isSome_iff_exists.1 hsome
  -- The survivor is among the writers, of which there is one only.
  have hqp : q = p := by
    have hqmem := h.survivor_eq_some hq
    rw [hone] at hqmem
    exact List.mem_singleton.1 hqmem
  rw [hqp] at hq
  exact h.get?_eq_survivor ha hq

/-- An address of the image that no record writes reads zero. -/
theorem get?_of_writers_eq_nil (h : Linked origin names placed addresses image) {a : UInt16}
    (ha : origin ≤ a) (hin : a.toNat - origin.toNat < image.bytes.size)
    (hnone : writers placed a.toNat = []) : image.get? a = some 0 := by
  have hsurvivor : survivor placed a.toNat = none := by
    cases hs : survivor placed a.toNat with
    | none => rfl
    | some p =>
      have hp := h.survivor_eq_some hs
      rw [hnone] at hp
      cases hp
  rw [h.get?_eq ha hin, hsurvivor]
  rfl

end Linked

/-! ## Addresses that one record writes, and addresses that none writes -/

/-- An address that records write holds the byte of the survivor. It is the byte of the last record
that writes there exactly if the last record that takes its byte there from a label, if there is
one, puts the same byte. -/
theorem get?_link_eq_last_writer_iff {origin : UInt16} {names : List String}
    {records : List Record} {image : Image} (hfits : ∀ r ∈ records, r.item.OperandFits)
    (hlink : link origin names records = .ok image) {a : UInt16} (ha : origin ≤ a) {last : Placed}
    (hlast : (writers (layout origin.toNat records) a.toNat).getLast? = some last) :
    (∃ p b, survivor (layout origin.toNat records) a.toNat = some p ∧
      p.byte? (labelLocation? (layout origin.toNat records)) a.toNat = some b ∧
        image.get? a = some b) ∧
      (image.get? a = last.byte? (labelLocation? (layout origin.toNat records)) a.toNat ↔
        ∀ q, ((layout origin.toNat records).filter fun p => p.writesLabel a.toNat).getLast? =
            some q →
          q.byte? (labelLocation? (layout origin.toNat records)) a.toNat =
            last.byte? (labelLocation? (layout origin.toNat records)) a.toNat) := by
  obtain ⟨addresses, h⟩ := linked_of_link_eq_ok hfits hlink
  cases hlabel : ((layout origin.toNat records).filter fun p =>
      p.writesLabel a.toNat).getLast? with
  | some q =>
    -- The label byte stays, so the last writer is read only if it puts the same byte.
    have hsurvivor : survivor (layout origin.toNat records) a.toNat = some q := by
      rw [survivor, hlabel, Option.some_or]
    obtain ⟨b, hb, hget⟩ := h.get?_eq_survivor ha hsurvivor
    refine ⟨⟨q, b, hsurvivor, hb, hget⟩, ?_⟩
    rw [hget, ← hb]
    simp
  | none =>
    have hsurvivor : survivor (layout origin.toNat records) a.toNat = some last := by
      rw [survivor, hlabel, Option.none_or, hlast]
    obtain ⟨b, hb, hget⟩ := h.get?_eq_survivor ha hsurvivor
    refine ⟨⟨last, b, hsurvivor, hb, hget⟩, ?_⟩
    simp [hget, hb]

/-- `start: JMP start / * = $0601 / .byte $AA`. -/
def literalOverLabel : List Record :=
  [⟨⟨1, 1⟩, .label 0⟩,
    ⟨⟨1, 8⟩, .operation ⟨.jmp, .absolute⟩ 0x4C (.label 0)⟩,
    ⟨⟨2, 1⟩, .origin 0x0601⟩,
    ⟨⟨3, 1⟩, .bytes [0xAA]⟩]

/-- The literal is the last record to write its address, and the image holds the low byte of the
label instead. -/
theorem literalOverLabel_lost :
    (∀ r ∈ literalOverLabel, r.item.OperandFits) ∧
      ∃ image, link 0x0600 [] literalOverLabel = .ok image ∧
        ∃ last, (writers (layout 0x0600 literalOverLabel) 0x0601).getLast? = some last ∧
          last.byte? (labelLocation? (layout 0x0600 literalOverLabel)) 0x0601 = some 0xAA ∧
          image.get? 0x0601 = some 0x00 := by
  refine ⟨by decide, ⟨0x0600, #[0x4C, 0x00, 0x06],
    [⟨1, 0x0600, 3, true⟩, ⟨3, 0x0601, 1, false⟩]⟩, by rfl, ⟨0x0601, ⟨⟨3, 1⟩, .bytes [0xAA]⟩⟩, ?_⟩
  exact ⟨by decide, by decide, by decide⟩

/-- The last record that takes its byte there from a label is the jump, and it puts another byte
than the last writer. -/
theorem get?_literalOverLabel :
    ∃ image last, (∀ r ∈ literalOverLabel, r.item.OperandFits) ∧
      link 0x0600 [] literalOverLabel = .ok image ∧ (0x0600 : UInt16) ≤ 0x0601 ∧
        (writers (layout 0x0600 literalOverLabel) 0x0601).getLast? = some last ∧
          image.get? 0x0601 ≠
            last.byte? (labelLocation? (layout 0x0600 literalOverLabel)) 0x0601 := by
  have hfits : ∀ r ∈ literalOverLabel, r.item.OperandFits := by decide
  have hlink : link 0x0600 [] literalOverLabel =
      .ok ⟨0x0600, #[0x4C, 0x00, 0x06],
        [⟨1, 0x0600, 3, true⟩, ⟨3, 0x0601, 1, false⟩]⟩ := by rfl
  have hlast : (writers (layout 0x0600 literalOverLabel) 0x0601).getLast? =
      some ⟨0x0601, ⟨⟨3, 1⟩, .bytes [0xAA]⟩⟩ := by decide
  refine ⟨_, _, hfits, hlink, by decide, hlast, fun hget => ?_⟩
  have hiff := (get?_link_eq_last_writer_iff hfits hlink (a := 0x0601) (by decide) hlast).2
  have hsame := hiff.1 hget
    ⟨0x0600, ⟨⟨1, 8⟩, .operation ⟨.jmp, .absolute⟩ 0x4C (.label 0)⟩⟩ (by decide)
  exact absurd hsame (by decide)

end Assembler65
