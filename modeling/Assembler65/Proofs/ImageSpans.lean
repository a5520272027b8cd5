import Assembler65.Listing
import Assembler65.Proofs.Linking

/-!
# The spans of an image

A linked image says for each record where its bytes lie. `SpansDescribe` asks for spans of the
records with bytes, in order and within memory, whose bytes are in the image from the origin on, and
for zeros in all else. Main statement: `spans_describe_image`, the spans of a linked image do so
exactly if each record has fewer than `0x80000000` bytes. A record whose number of bytes does not
fit into 32 bits can have a span that is longer than memory (`span_of_zeros_beyond_memory`).
-/

set_option autoImplicit false

namespace Assembler65

/-- A span says where the bytes of a record lie and what they are. -/
structure Describes (p : Placed) (span : Span) : Prop where
  row : span.row = p.record.pos.row
  address : span.address.toNat = p.location
  length : span.length = p.record.size
  isCode : span.isCode = true ↔
    ∃ instruction opcode operand, p.record.item = .operation instruction opcode operand

/-- Whether an address lies in a span. -/
def Span.contains (span : Span) (address : Nat) : Bool :=
  span.address.toNat ≤ address && address < span.address.toNat + span.length

/-- The spans of an image describe the bytes of some records, which start at the origin. -/
structure SpansDescribe (origin : UInt16) (records : List Record) (image : Image) : Prop where
  /-- There is one span for each record with bytes, at the location counter before it. -/
  spans : List.Forall₂ Describes
    ((layout origin.toNat records).filter fun p => 0 < p.record.size) image.spans
  inside : ∀ span ∈ image.spans, span.address.toNat + span.length ≤ memorySize
  /-- Within a span addresses do not wrap. Its bytes are in the image, and shown by a listing,
  exactly from the origin on. -/
  bytes : ∀ span ∈ image.spans, ∀ i < span.length,
    (span.address + UInt16.ofNat i).toNat = span.address.toNat + i ∧
      ((image.get? (span.address + UInt16.ofNat i)).isSome = true ↔
        origin.toNat ≤ span.address.toNat + i) ∧
      ((image.spanBytes span)[i]? = some none ↔ span.address.toNat + i < origin.toNat)
  gaps : ∀ i b, image.bytes[i]? = some b →
    (∀ span ∈ image.spans, span.contains (origin.toNat + i) = false) → b = 0

theorem Item.isCode_iff {item : Item} :
    item.isCode = true ↔
      ∃ instruction opcode operand, item = .operation instruction opcode operand := by
  cases item with
  | operation instruction opcode operand => exact ⟨fun _ => ⟨_, _, _, rfl⟩, fun _ => rfl⟩
  | _ => simp [isCode]

namespace Placed

variable {p : Placed}

theorem toNat_address_span (hinside : p.stop ≤ memorySize) (hsize : 0 < p.record.size) :
    p.span.address.toNat = p.location := by
  have hlt : p.location < memorySize := by
    rw [stop] at hinside
    omega
  exact UInt16.toNat_ofNat_of_lt' hlt

theorem describes_span (hinside : p.stop ≤ memorySize) (hsize : 0 < p.record.size) :
    Describes p p.span :=
  ⟨rfl, toNat_address_span hinside hsize, rfl, Item.isCode_iff⟩

/-- A record with bytes writes what lies in its span. -/
theorem contains_span (hinside : p.stop ≤ memorySize) (hsize : 0 < p.record.size)
    (address : Nat) : p.span.contains address = p.writes address := by
  rw [Bool.eq_iff_iff, writes_iff_of_stop_le hinside, Span.contains,
    toNat_address_span hinside hsize, Bool.and_eq_true, decide_eq_true_eq, decide_eq_true_eq]
  rfl

end Placed

/-- Addresses do not wrap within memory. -/
theorem Span.toNat_address_add {span : Span} (h : span.address.toNat + span.length ≤ memorySize)
    {i : Nat} (hi : i < span.length) :
    (span.address + UInt16.ofNat i).toNat = span.address.toNat + i := by
  have hlt : span.address.toNat + i < memorySize := by omega
  have hofNat : (UInt16.ofNat i).toNat = i :=
    UInt16.toNat_ofNat_of_lt' (Nat.lt_of_le_of_lt (Nat.le_add_left i _) hlt)
  rw [UInt16.toNat_add, hofNat]
  exact Nat.mod_eq_of_lt hlt

namespace Linked

variable {origin : UInt16} {names : List String} {placed : List Placed}
  {addresses : LabelAddresses} {image : Image}

/-- The bytes of a record are in the image from the origin on. -/
theorem isSome_get?_iff (h : Linked origin names placed addresses image) {p : Placed}
    (hp : p ∈ placed) {a : UInt16} (hw : p.writes a.toNat = true) :
    (image.get? a).isSome = true ↔ origin.toNat ≤ a.toNat := by
  rw [← UInt16.le_iff_toNat_le]
  constructor
  · intro hsome
    by_contra hbelow
    rw [Image.get?, h.origin_eq, if_pos (UInt16.not_le.1 hbelow)] at hsome
    cases hsome
  · intro habove
    have hin := (h.lt_size_iff (a.toNat - origin.toNat)).2
      ⟨p, hp, a.toNat, hw, UInt16.le_iff_toNat_le.1 habove, le_rfl⟩
    rw [h.get?_eq habove hin]
    rfl

/-- A byte of the image that no record writes is zero. -/
theorem eq_zero_of_writers_eq_nil (h : Linked origin names placed addresses image) {i : Nat}
    {b : UInt8} (hb : image.bytes[i]? = some b)
    (hnone : writers placed (origin.toNat + i) = []) : b = 0 := by
  obtain ⟨hi, -⟩ := Array.getElem?_eq_some_iff.1 hb
  -- Some record reaches as far as the byte, so that its address is in memory.
  obtain ⟨p, hp, address, hw, hle, hreach⟩ := (h.lt_size_iff i).1 hi
  have hinside : origin.toNat + i < memorySize := by
    have hlt := lt_of_writes hw
    omega
  have ha : (UInt16.ofNat (origin.toNat + i)).toNat = origin.toNat + i :=
    UInt16.toNat_ofNat_of_lt' hinside
  have habove : origin ≤ UInt16.ofNat (origin.toNat + i) := by
    rw [UInt16.le_iff_toNat_le, ha]
    exact Nat.le_add_right _ _
  have hoffset : (UInt16.ofNat (origin.toNat + i)).toNat - origin.toNat = i := by
    rw [ha, Nat.add_sub_cancel_left]
  have hzero := h.get?_of_writers_eq_nil habove (by rw [hoffset]; exact hi)
    (by rw [ha]; exact hnone)
  rw [Image.get?, h.origin_eq, if_neg (UInt16.not_lt.2 habove), hoffset, hb] at hzero
  exact Option.some.inj hzero

end Linked

/-- Spans within memory are those of records that fit into it. -/
theorem size_lt_of_spans_inside {location : Nat} {records : List Record}
    (h : ∀ p ∈ (layout location records).filter fun p => 0 < p.record.size,
      p.span.address.toNat + p.span.length ≤ memorySize) :
    ∀ r ∈ records, r.size < 0x80000000 := by
  intro r hr
  rw [← map_record_layout location records] at hr
  obtain ⟨p, hp, rfl⟩ := List.mem_map.1 hr
  rcases Nat.eq_zero_or_pos p.record.size with hzero | hpos
  · rw [hzero]
    decide
  · have hinside : p.span.address.toNat + p.record.size ≤ 0x10000 :=
      h p (List.mem_filter.2 ⟨hp, decide_eq_true hpos⟩)
    omega

theorem spansDescribe_of_link {origin : UInt16} {names : List String} {records : List Record}
    {image : Image} (hfits : ∀ r ∈ records, r.item.OperandFits)
    (hlink : link origin names records = .ok image)
    (hsizes : ∀ r ∈ records, r.size < 0x80000000) : SpansDescribe origin records image := by
  obtain ⟨addresses, hlinked⟩ := linked_of_link_eq_ok hfits hlink
  have hspans := spans_of_link_eq_ok hfits hlink
  have hplaced : ∀ span ∈ image.spans, ∃ p ∈ layout origin.toNat records,
      0 < p.record.size ∧ p.stop ≤ memorySize ∧ p.span = span := by
    rw [hspans, List.forall_mem_map]
    intro p hp
    obtain ⟨hp, hsize⟩ := List.mem_filter.1 hp
    exact ⟨p, hp, of_decide_eq_true hsize, hlinked.stop_le hsizes hp, rfl⟩
  have hinside : ∀ span ∈ image.spans, span.address.toNat + span.length ≤ memorySize := by
    intro span hspan
    obtain ⟨p, -, hsize, hstop, rfl⟩ := hplaced span hspan
    rw [Placed.toNat_address_span hstop hsize]
    exact hstop
  refine ⟨?_, hinside, ?_, ?_⟩
  · rw [hspans, List.forall₂_map_right_iff, List.forall₂_same]
    intro p hp
    obtain ⟨hp, hsize⟩ := List.mem_filter.1 hp
    exact Placed.describes_span (hlinked.stop_le hsizes hp) (of_decide_eq_true hsize)
  · intro span hspan i hi
    have hadd := Span.toNat_address_add (hinside span hspan) hi
    obtain ⟨p, hp, hsize, hstop, rfl⟩ := hplaced span hspan
    have hwrites : p.writes (p.span.address + UInt16.ofNat i).toNat = true := by
      rw [hadd, ← Placed.contains_span hstop hsize, Span.contains, Bool.and_eq_true,
        decide_eq_true_eq, decide_eq_true_eq]
      exact ⟨Nat.le_add_right _ _, Nat.add_lt_add_left hi _⟩
    have hsome := hlinked.isSome_get?_iff hp hwrites
    rw [hadd] at hsome
    refine ⟨hadd, hsome, ?_⟩
    rw [Image.spanBytes, List.getElem?_map, List.getElem?_range hi, Option.map_some,
      Option.some.injEq, ← Option.not_isSome_iff_eq_none, hsome, Nat.not_le]
  · intro i b hb hnone
    apply hlinked.eq_zero_of_writers_eq_nil hb
    rw [writers, List.filter_eq_nil_iff]
    intro p hp hwrites
    -- A record that writes there has bytes, and a span that contains them.
    have hsize : 0 < p.record.size := by
      obtain ⟨l, hle, hlt, -⟩ := writes_iff.1 hwrites
      rw [Placed.stop] at hlt
      omega
    rw [hspans] at hnone
    have hspan := hnone p.span (List.mem_map_of_mem (List.mem_filter.2 ⟨hp, decide_eq_true hsize⟩))
    rw [Placed.contains_span (hlinked.stop_le hsizes hp) hsize, hwrites] at hspan
    cases hspan

/-- The spans of a linked image are those of its records with bytes, each with the row of the
record, the location counter before it and its size; they lie within memory; their bytes are in the
image, and shown by a listing, from the origin on; and the bytes of the image that lie in no span
are zero.
This is so exactly if no record has a number of bytes that is lost in 32 bits. -/
theorem spans_describe_image {origin : UInt16} {names : List String} {records : List Record}
    {image : Image} (hfits : ∀ r ∈ records, r.item.OperandFits)
    (hlink : link origin names records = .ok image) :
    SpansDescribe origin records image ↔ ∀ r ∈ records, r.size < 0x80000000 := by
  constructor
  · intro h
    have hinside := h.inside
    rw [spans_of_link_eq_ok hfits hlink, List.forall_mem_map] at hinside
    exact size_lt_of_spans_inside hinside
  · exact spansDescribe_of_link hfits hlink

/-- The number of these bytes is zero in 32 bits, and they have a span that ends beyond the end of
memory. -/
theorem span_of_zeros_beyond_memory :
    (∀ r ∈ zeros 0x100000000, r.item.OperandFits) ∧
      ∃ image, link 0x0600 [] (zeros 0x100000000) = .ok image ∧
        ∃ span ∈ image.spans, memorySize < span.address.toNat + span.length := by
  obtain ⟨image, himage, hspans⟩ := @link_zeros 0x100000000 (by decide) (by decide)
  refine ⟨operandFits_zeros _, image, himage, ⟨1, 0x0600, 0x100000000, false⟩, ?_, by decide⟩
  rw [hspans]
  exact List.mem_singleton_self _

/-- `* = $0604 / LDA #5 / * = $05FF / .byte 1, 2, 3 / .byte ""`. -/
def acrossOrigin : List Record :=
  [⟨⟨1, 1⟩, .origin 0x0604⟩, ⟨⟨2, 1⟩, .operation ⟨.lda, .immediate⟩ 0xA9 (.byte 5)⟩,
    ⟨⟨3, 1⟩, .origin 0x05FF⟩, ⟨⟨4, 1⟩, .bytes [1, 2, 3]⟩, ⟨⟨5, 1⟩, .bytes []⟩]

/-- The image of `acrossOrigin`. The span of the bytes starts below the origin. -/
def acrossOriginImage : Image where
  origin := 0x0600
  bytes := #[2, 3, 0, 0, 0xA9, 5]
  spans := [⟨2, 0x0604, 2, true⟩, ⟨4, 0x05FF, 3, false⟩]

theorem spans_acrossOrigin :
    (∀ r ∈ acrossOrigin, r.item.OperandFits) ∧ (∀ r ∈ acrossOrigin, r.size < 0x80000000) ∧
      link 0x0600 [] acrossOrigin = .ok acrossOriginImage ∧
      SpansDescribe 0x0600 acrossOrigin acrossOriginImage ∧
      (acrossOriginImage.get? (0x05FF + UInt16.ofNat 0)).isSome = false ∧
      (acrossOriginImage.get? (0x05FF + UInt16.ofNat 1)).isSome = true := by
  have hfits : ∀ r ∈ acrossOrigin, r.item.OperandFits := by decide
  have hsizes : ∀ r ∈ acrossOrigin, r.size < 0x80000000 := by decide
  have hlink : link 0x0600 [] acrossOrigin = .ok acrossOriginImage := by rfl
  have hdescribe := (spans_describe_image hfits hlink).2 hsizes
  have hbytes := hdescribe.bytes ⟨4, 0x05FF, 3, false⟩ (by decide)
  obtain ⟨-, hfirst, -⟩ := hbytes 0 (by decide)
  obtain ⟨-, hsecond, -⟩ := hbytes 1 (by decide)
  refine ⟨hfits, hsizes, hlink, hdescribe, ?_, hsecond.2 (by decide)⟩
  rw [Bool.eq_false_iff, Ne, hfirst]
  decide

end Assembler65
