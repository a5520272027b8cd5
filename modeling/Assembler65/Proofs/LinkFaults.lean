import Assembler65.Proofs.Linking
import Mathlib.Data.Prod.Lex
import Mathlib.Order.WithBot

/-!
# The faults of a link

Which faults a link reports, read off a location counter that steps over the records that overflow:
`counted` notes its value before every record, and `fitting` are the records within memory, which
alone are laid down and place labels. Main statement: `link_fails_exactly`, a link fails exactly if
a record overflows, an operand names a label without a location or a displacement is out of range,
and it reports one fault for each of these, in reading order.

Whether a record overflows is a matter of 32 bits. Below `0x80000000` bytes nothing is lost, but a
record of `0x100000000` bytes counts as none and is not reported (`link_zeros_unreported`).
-/

set_option autoImplicit false

namespace Assembler65

/-! ## Reading order -/

namespace Fault

/-- The place of a fault in reading order: no place before all others, rows before columns. -/
def place (f : Fault) : WithBot (ℕ ×ₗ ℕ) :=
  match f.position? with
  | none => ⊥
  | some p => (toLex (p.row, p.column) : ℕ ×ₗ ℕ)

/-- Faults in reading order, all those given and no others. The faults at one place keep their
order. -/
structure StablySorted (given sorted : List Fault) : Prop where
  ordered : sorted.Pairwise fun f g => f.place ≤ g.place
  stable : ∀ place, sorted.filter (fun f => f.place = place) =
    given.filter fun f => f.place = place

theorem le_iff_place_le {f g : Fault} : f.le g = true ↔ f.place ≤ g.place := by
  rw [le, place, place]
  cases f.position? with
  | none => exact ⟨fun _ => bot_le, fun _ => rfl⟩
  | some p =>
    cases g.position? with
    | none => simp
    | some q =>
      rw [WithBot.coe_le_coe, Prod.Lex.toLex_le_toLex]
      simp [Position.le]

/-- Sorting keeps faults in their order that stand in reading order already. -/
theorem filter_sorted {faults : List Fault} {p : Fault → Bool}
    (h : (faults.filter p).Pairwise fun f g => f.le g) :
    (sorted faults).filter p = faults.filter p := by
  -- They are a sorted sublist, which sorting keeps, and sorting adds no others.
  have hsub := List.sublist_mergeSort le_trans le_total h List.filter_sublist
  have hfilter := hsub.filter p
  rw [List.filter_filter] at hfilter
  simp only [Bool.and_self] at hfilter
  exact (hfilter.eq_of_length ((sorted_perm faults).filter _).length_eq.symm).symm

/-- The order in which faults are reported. -/
theorem stablySorted_sorted (faults : List Fault) : StablySorted faults (sorted faults) := by
  refine ⟨(pairwise_sorted faults).imp le_iff_place_le.1, ?_⟩
  intro place
  apply filter_sorted
  apply List.pairwise_of_forall_mem_list
  intro f hf g hg
  rw [List.mem_filter, decide_eq_true_eq] at hf hg
  exact le_iff_place_le.2 (hf.2.trans hg.2.symm).le

end Fault

/-! ## The location counter -/

namespace Placed

/-- Whether a record reaches beyond the end of memory as far as 32 bits tell, or places a label
there. -/
def overflows (p : Placed) : Bool :=
  p.stop % 0x100000000 > memorySize || (p.record.item.isLabel && p.location == memorySize)

/-- The location counter behind a record. A record that overflows leaves it as it is. -/
def next (p : Placed) : Nat := if p.overflows then p.location else p.record.next p.location

/-- The distance from behind a record to a location. -/
def displacement (p : Placed) (location : Nat) : Int := (location : Int) - (p.stop : Int)

end Placed

/-- Records with the location counter before each. -/
def counted (location : Nat) : List Record → List Placed
  | [] => []
  | r :: rest => ⟨location, r⟩ :: counted (Placed.next ⟨location, r⟩) rest

/-- The records that overflow. -/
def overflowing (placed : List Placed) : List Placed := placed.filter Placed.overflows

/-- The records within memory. -/
def fitting (placed : List Placed) : List Placed := placed.filter fun p => !p.overflows

/-! ## Label operands -/

/-- The use of a label in an operand: of its address, or of the displacement to it. -/
structure LabelUse where
  index : Nat
  relative : Bool
  deriving DecidableEq, Repr

/-- The label operand of an item. -/
def Item.labelUse? : Item → Option LabelUse
  | operation _ _ (.label index) | operation _ _ (.labelHalf index _) => some ⟨index, false⟩
  | operation _ _ (.branch index) | operation _ _ (.bitBranch _ index) => some ⟨index, true⟩
  | _ => none

/-- A displacement that a branch can take. -/
def InReach (displacement : Int) : Prop := -128 ≤ displacement ∧ displacement ≤ 127

instance (displacement : Int) : Decidable (InReach displacement) :=
  inferInstanceAs (Decidable (_ ∧ _))

namespace Placed

variable (labels : Nat → Option Nat) (p : Placed)

/-- A label operand names a label without a location. -/
def NamesNoLabel : Prop := ∃ use, p.record.item.labelUse? = some use ∧ labels use.index = none

/-- A relative operand is too far from its label. -/
def MissesLabel : Prop :=
  ∃ use location, p.record.item.labelUse? = some use ∧ use.relative = true ∧
    labels use.index = some location ∧ ¬ InReach (p.displacement location)

/-- The fault of a label operand. -/
def operandFault? (names : List String) : Option Fault :=
  p.record.item.labelUse?.bind fun use =>
    match labels use.index with
    | none => some (.unresolvedLabel use.index)
    | some location =>
      if use.relative ∧ ¬ InReach (p.displacement location) then
        some (.inSource p.record.pos
          (.branchOutOfRange (names.getD use.index ("#" ++ toString use.index))
            (p.displacement location)))
      else none

end Placed

/-- The faults of a link: all overflows, then all faults of label operands. -/
def linkFaults (names : List String) (placed : List Placed) : List Fault :=
  (overflowing placed).map (fun p => .inSource p.record.pos .addressOverflow) ++
    (fitting placed).filterMap fun p => p.operandFault? (labelLocation? (fitting placed)) names

/-! ## The first pass steps over overflows -/

namespace Placed

/-- The location counter never passes the end of memory. -/
theorem next_le_memorySize {p : Placed} (h : p.location ≤ memorySize) : p.next ≤ memorySize := by
  rw [next]
  split
  case isTrue => exact h
  case isFalse hfits =>
    have hstop : p.stop % 0x100000000 ≤ memorySize := by
      simp only [overflows, Bool.or_eq_true, decide_eq_true_eq, not_or] at hfits
      omega
    rw [Record.next]
    split
    case h_1 address _ => exact Nat.le_of_lt address.toNat_lt
    case h_2 => exact hstop

end Placed

theorem location_le_of_mem_counted {location : Nat} (h : location ≤ memorySize)
    {records : List Record} {p : Placed} (hp : p ∈ counted location records) :
    p.record ∈ records ∧ p.location ≤ memorySize := by
  induction records generalizing location with
  | nil => cases hp
  | cons r rest ih =>
    rcases List.mem_cons.1 hp with rfl | hp
    · exact ⟨List.mem_cons_self, h⟩
    · obtain ⟨hmem, hle⟩ := ih (Placed.next_le_memorySize h) hp
      exact ⟨List.mem_cons_of_mem r hmem, hle⟩

/-- Records of fewer than `0x80000000` bytes are counted without loss. -/
theorem stop_mod_of_mem_counted {location : Nat} (h : location ≤ memorySize)
    {records : List Record} (hsizes : ∀ r ∈ records, r.size < 0x80000000) {p : Placed}
    (hp : p ∈ counted location records) : p.stop % 0x100000000 = p.stop := by
  obtain ⟨hmem, hle⟩ := location_le_of_mem_counted h hp
  have hlocation : p.location ≤ 0x10000 := hle
  have hsize := hsizes _ hmem
  exact Nat.mod_eq_of_lt (by rw [Placed.stop]; omega)

/-- A record that is counted without loss overflows if it ends beyond the end of memory. -/
theorem Placed.overflows_iff_of_stop_mod {p : Placed} (h : p.stop % 0x100000000 = p.stop) :
    p.overflows = true ↔
      memorySize < p.stop ∨ (p.record.item.isLabel = true ∧ p.location = memorySize) := by
  rw [overflows, h, Bool.or_eq_true, Bool.and_eq_true, decide_eq_true_eq, beq_iff_eq]

namespace Emission

theorem overflows_eq {e : Emission} (h : e.location ≤ memorySize) (r : Record) :
    e.overflows r = Placed.overflows ⟨e.location, r⟩ := by
  have hend : decide (e.location ≥ memorySize) = (e.location == memorySize) := by
    rw [Bool.eq_iff_iff, decide_eq_true_eq, beq_iff_eq]
    omega
  rw [overflows, Placed.overflows, hend, advance_eq_mod]
  rfl

theorem location_place {r : Record} (hfits : r.item.OperandFits) {e : Emission}
    (h : e.location ≤ memorySize) : (e.place r).location = Placed.next ⟨e.location, r⟩ := by
  rw [Placed.next, ← overflows_eq h]
  cases hover : e.overflows r with
  | true => rw [place_of_overflows hover, if_pos rfl]
  | false =>
    rw [place_of_not_overflows hover, if_neg Bool.false_ne_true]
    exact nextLocation_eq_next hfits e

/-- The first pass admits the records within memory and rejects those that overflow. -/
theorem admitted_and_rejected {e : Emission} {records : List Record}
    (hfits : ∀ r ∈ records, r.item.OperandFits) (h : e.location ≤ memorySize) :
    e.admitted records = fitting (counted e.location records) ∧
      e.rejected records = (overflowing (counted e.location records)).map Placed.record := by
  -- That the counter stays within memory is what carries the induction over an overflow.
  induction records generalizing e with
  | nil => exact ⟨rfl, rfl⟩
  | cons r rest ih =>
    rw [List.forall_mem_cons] at hfits
    have hnext := location_place hfits.1 h
    have hbound : (e.place r).location ≤ memorySize := by
      rw [hnext]
      exact Placed.next_le_memorySize h
    obtain ⟨hadmitted, hrejected⟩ := ih hfits.2 hbound
    rw [hnext] at hadmitted hrejected
    rw [admitted, rejected, counted, hadmitted, hrejected, overflows_eq h]
    cases hover : Placed.overflows ⟨e.location, r⟩ with
    | true => simp [fitting, overflowing, hover]
    | false => simp [fitting, overflowing, hover]

end Emission

/-! ## The second pass reports label operands -/

theorem Item.labelUse?_eq (item : Item) (location : Nat) (pos : Position) :
    item.labelUse? =
      (item.patch? location pos).map fun patch => ⟨patch.label, patch.kind == .displacement⟩ := by
  cases item with
  | operation instruction opcode operand => cases operand <;> rfl
  | _ => rfl

theorem displacementByte?_eq_none_iff {d : Int} : displacementByte? d = none ↔ ¬ InReach d := by
  rw [displacementByte?]
  split
  case isTrue hreach =>
    exact ⟨fun h => absurd h (Option.some_ne_none _), fun h => absurd hreach h⟩
  case isFalse hreach => exact ⟨fun _ => hreach, fun _ => rfl⟩

/-- What a patch reports, once its label is looked up. -/
theorem Patch.fault?_eq (names : List String) (addresses : LabelAddresses) (p : Patch) :
    p.fault? names addresses =
      match addresses.lookup p.label with
      | none => some (.unresolvedLabel p.label)
      | some target =>
        if (p.kind == .displacement) = true ∧ ¬ InReach (p.displacement target) then
          some (.inSource p.pos
            (.branchOutOfRange (labelName names p.label) (p.displacement target)))
        else none := by
  rw [fault?, complete]
  cases addresses.lookup p.label with
  | none => rfl
  | some target =>
    cases hkind : p.kind with
    | word => simp
    | half half => simp
    | displacement =>
      cases hbyte : displacementByte? (p.displacement target) with
      | none => simp [hbyte, displacementByte?_eq_none_iff.1 hbyte]
      | some b =>
        have hreach : InReach (p.displacement target) := by
          by_contra hnot
          rw [displacementByte?_eq_none_iff.2 hnot] at hbyte
          cases hbyte
        simp [hbyte, hreach]

namespace Placed

theorem pos_of_patch? {p : Placed} {patch : Patch} (h : p.patch? = some patch) :
    patch.pos = p.record.pos := by
  obtain ⟨location, pos, item⟩ := p
  cases item with
  | operation instruction opcode operand => cases operand <;> cases h <;> rfl
  | _ => cases h

/-- A displacement counts from behind the record. -/
theorem displacement_of_patch? {p : Placed} (hfits : p.record.item.OperandFits)
    (hinside : p.stop ≤ memorySize) {patch : Patch} (h : p.patch? = some patch)
    (hkind : patch.kind = .displacement) {location : Nat} (hlocation : location < memorySize) :
    patch.displacement (UInt16.ofNat location) = p.displacement location := by
  obtain ⟨start, haddress, hend, -, -⟩ := exists_start_of_patch? hfits hinside h
  -- The byte of a displacement is the last of its record.
  have hlength : patch.sources.length = 1 := by
    rw [Patch.sources, hkind]
    rfl
  have hstart : (UInt16.ofNat start).toNat = start :=
    UInt16.toNat_ofNat_of_lt' (by show start < memorySize; omega)
  have htarget : (UInt16.ofNat location).toNat = location := UInt16.toNat_ofNat_of_lt' hlocation
  rw [Patch.displacement, displacement, haddress, hstart, htarget, ← hend, hlength]
  rfl

/-- The patch of a record reports the fault of its label operand. -/
theorem operandFault?_eq {p : Placed} {names : List String} {addresses : LabelAddresses}
    {labels : Nat → Option Nat}
    (hlookup : ∀ index, addresses.lookup index = (labels index).map UInt16.ofNat)
    (hbound : ∀ index location, labels index = some location → location < memorySize)
    (hfits : p.record.item.OperandFits) (hadmissible : p.Admissible) :
    p.operandFault? labels names = p.patch?.bind (Patch.fault? names addresses) := by
  rw [operandFault?, Item.labelUse?_eq p.record.item p.location p.record.pos, ← patch?]
  cases hpatch : p.patch? with
  | none => rfl
  | some patch =>
    rw [Option.map_some, Option.bind_some, Option.bind_some, Patch.fault?_eq, hlookup]
    cases hlabel : labels patch.label with
    | none => rfl
    | some location =>
      simp only [Option.map_some, pos_of_patch? hpatch]
      by_cases hkind : patch.kind = .displacement
      · have hinside := hadmissible.stop_le_of_patch? hpatch
        rw [displacement_of_patch? hfits hinside hpatch hkind (hbound _ _ hlabel)]
        rfl
      · simp [hkind]

theorem operandFault?_eq_none_iff {labels : Nat → Option Nat} {p : Placed} {names : List String} :
    p.operandFault? labels names = none ↔ ¬ p.NamesNoLabel labels ∧ ¬ p.MissesLabel labels := by
  rw [operandFault?, NamesNoLabel, MissesLabel]
  cases p.record.item.labelUse? with
  | none => simp
  | some use =>
    cases hlabel : labels use.index with
    | none => simp [hlabel]
    | some location => simp [hlabel]

end Placed

theorem allFaults_ofRecords {origin : UInt16} {names : List String} {records : List Record}
    (hfits : ∀ r ∈ records, r.item.OperandFits) :
    (Emission.ofRecords origin records).allFaults names =
      linkFaults names (counted origin.toNat records) := by
  have horigin : ({ location := origin.toNat } : Emission).location ≤ memorySize :=
    Nat.le_of_lt origin.toNat_lt
  obtain ⟨hadmitted, hrejected⟩ := Emission.admitted_and_rejected hfits horigin
  have hbounds : ∀ p ∈ fitting (counted origin.toNat records),
      p.record ∈ records ∧ p.Admissible := by
    intro p hp
    rw [← hadmitted] at hp
    exact Emission.admissible_of_mem_admitted_origin hp
  have hlookup : ∀ index, (Emission.ofRecords origin records).labels.lookup index =
      (labelLocation? (fitting (counted origin.toNat records)) index).map UInt16.ofNat := by
    intro index
    rw [Emission.lookup_labels_ofRecords, hadmitted]
  have hlabels : ∀ index location,
      labelLocation? (fitting (counted origin.toNat records)) index = some location →
        location < memorySize := by
    intro index location h
    obtain ⟨p, hp, hitem, rfl⟩ := exists_of_labelLocation? h
    exact (hbounds p hp).2.label_lt (by rw [hitem]; rfl)
  rw [Emission.allFaults, linkFaults]
  congr 1
  · rw [Emission.ofRecords, Emission.faults_foldl_place, hrejected, List.map_map]
    rfl
  · have hpatches : (Emission.ofRecords origin records).patches.toList =
        (fitting (counted origin.toNat records)).flatMap fun p => p.patch?.toList := by
      rw [Emission.patches_ofRecords, hadmitted]
    -- A record has one patch at most, so that the faults can be compared record by record.
    rw [hpatches, List.filterMap_flatMap, List.filterMap_eq_flatMap_toList]
    apply List.flatMap_congr
    intro p hp
    obtain ⟨hmem, hadmissible⟩ := hbounds p hp
    rw [Placed.operandFault?_eq hlookup hlabels (hfits _ hmem) hadmissible]
    cases p.patch? with
    | none => rfl
    | some patch => exact (List.filterMap_eq_flatMap_toList _ _).trans (List.flatMap_singleton _ _)

theorem link_eq_error_iff {origin : UInt16} {names : List String} {records : List Record}
    {faults : List Fault} (hfits : ∀ r ∈ records, r.item.OperandFits) :
    link origin names records = .error faults ↔
      linkFaults names (counted origin.toNat records) ≠ [] ∧
        faults = Fault.sorted (linkFaults names (counted origin.toNat records)) := by
  simp only [link]
  rw [← allFaults_ofRecords hfits]
  split
  case h_1 hnone =>
    refine ⟨fun h => ?_, fun h => absurd hnone h.1⟩
    cases h
  case h_2 hsome =>
    rw [Except.error.injEq]
    exact ⟨fun h => ⟨hsome, h.symm⟩, fun h => h.2.symm⟩

theorem linkFaults_ne_nil_iff (names : List String) {placed : List Placed} :
    linkFaults names placed ≠ [] ↔
      (∃ p ∈ placed, p.overflows = true) ∨
        (∃ p ∈ fitting placed, p.NamesNoLabel (labelLocation? (fitting placed))) ∨
        ∃ p ∈ fitting placed, p.MissesLabel (labelLocation? (fitting placed)) := by
  rw [linkFaults, ne_eq, List.append_eq_nil_iff, List.map_eq_nil_iff, List.filterMap_eq_nil_iff,
    overflowing, List.filter_eq_nil_iff]
  simp only [Placed.operandFault?_eq_none_iff]
  constructor
  · intro h
    by_contra hnone
    simp only [not_or, not_exists, not_and] at hnone
    exact h ⟨hnone.1, fun p hp => ⟨hnone.2.1 p hp, hnone.2.2 p hp⟩⟩
  · rintro (⟨p, hp, hover⟩ | ⟨p, hp, hnames⟩ | ⟨p, hp, hmisses⟩) ⟨hfitting, hoperands⟩
    · exact hfitting p hp hover
    · exact (hoperands p hp).1 hnames
    · exact (hoperands p hp).2 hmisses

/-- A link fails exactly if a record overflows, a label operand names a label that no record within
memory places, or a displacement is out of reach. It then reports, in reading order, the overflow of
every record that does, and behind them the fault of every such operand. If all records have fewer
than `0x80000000` bytes, those that overflow are those that end beyond the end of memory, and the
labels there. -/
theorem link_fails_exactly (origin : UInt16) (names : List String) {records : List Record}
    (hfits : ∀ r ∈ records, r.item.OperandFits) :
    ((∃ faults, link origin names records = .error faults) ↔
      (∃ p ∈ counted origin.toNat records, p.overflows = true) ∨
        (∃ p ∈ fitting (counted origin.toNat records),
          p.NamesNoLabel (labelLocation? (fitting (counted origin.toNat records)))) ∨
        ∃ p ∈ fitting (counted origin.toNat records),
          p.MissesLabel (labelLocation? (fitting (counted origin.toNat records)))) ∧
      (∀ faults, link origin names records = .error faults →
        Fault.StablySorted (linkFaults names (counted origin.toNat records)) faults) ∧
      ((∀ r ∈ records, r.size < 0x80000000) → ∀ p ∈ counted origin.toNat records,
        p.stop % 0x100000000 = p.stop ∧
          (p.overflows = true ↔
            memorySize < p.stop ∨ (p.record.item.isLabel = true ∧ p.location = memorySize))) := by
  refine ⟨?_, ?_, ?_⟩
  · rw [← linkFaults_ne_nil_iff names]
    constructor
    · rintro ⟨faults, h⟩
      exact ((link_eq_error_iff hfits).1 h).1
    · intro h
      exact ⟨_, (link_eq_error_iff hfits).2 ⟨h, rfl⟩⟩
  · intro faults h
    obtain ⟨-, rfl⟩ := (link_eq_error_iff hfits).1 h
    exact Fault.stablySorted_sorted _
  · intro hsizes p hp
    have hstop := stop_mod_of_mem_counted (Nat.le_of_lt origin.toNat_lt) hsizes hp
    exact ⟨hstop, Placed.overflows_iff_of_stop_mod hstop⟩

/-- The number of these bytes is zero in 32 bits. They reach beyond the end of memory, but the link
succeeds. -/
theorem link_zeros_unreported :
    (∀ r ∈ zeros 0x100000000, r.item.OperandFits) ∧
      (∃ p ∈ counted 0x0600 (zeros 0x100000000), memorySize < p.location + p.record.size) ∧
      ∃ image, link 0x0600 [] (zeros 0x100000000) = .ok image := by
  -- For every number of zeros, so that the record itself is never written out.
  have hplaced : ∀ count, ∃ p ∈ counted 0x0600 (zeros count),
      p.location + p.record.size = 0x0600 + count := fun count =>
    ⟨_, List.mem_cons_self, by rw [Record.size, Item.size, List.length_replicate]⟩
  obtain ⟨p, hp, hstop⟩ := hplaced 0x100000000
  obtain ⟨image, himage, -⟩ := @link_zeros 0x100000000 (by decide) (by decide)
  exact ⟨operandFits_zeros _, ⟨p, hp, by rw [hstop]; decide⟩, image, himage⟩

/-- `BEQ far / JMP (no label) / * = $0700 / far: / * = $FFFF / .word $BEEF / .byte 1 / end:`. -/
def farAndBeyond : List Record :=
  [⟨⟨1, 1⟩, .operation ⟨.beq, .relative⟩ 0xF0 (.branch 0)⟩,
    ⟨⟨2, 1⟩, .operation ⟨.jmp, .absolute⟩ 0x4C (.label 5)⟩,
    ⟨⟨3, 1⟩, .origin 0x0700⟩,
    ⟨⟨4, 1⟩, .label 0⟩,
    ⟨⟨5, 1⟩, .origin 0xFFFF⟩,
    ⟨⟨6, 1⟩, .words [0xBEEF]⟩,
    ⟨⟨7, 1⟩, .bytes [1]⟩,
    ⟨⟨8, 1⟩, .label 1⟩]

/-- The faults of `farAndBeyond` in reading order. The words overflow and the byte behind them does
not; the label at the end of memory does. -/
def farAndBeyondFaults : List Fault :=
  [.unresolvedLabel 5, .inSource ⟨1, 1⟩ (.branchOutOfRange "far" 254),
    .inSource ⟨6, 1⟩ .addressOverflow, .inSource ⟨8, 1⟩ .addressOverflow]

theorem link_farAndBeyond :
    (∀ r ∈ farAndBeyond, r.item.OperandFits) ∧
      link 0x0600 ["far"] farAndBeyond = .error farAndBeyondFaults ∧
      Fault.StablySorted (linkFaults ["far"] (counted 0x0600 farAndBeyond)) farAndBeyondFaults := by
  have hfits : ∀ r ∈ farAndBeyond, r.item.OperandFits := by decide
  have hfaults : linkFaults ["far"] (counted 0x0600 farAndBeyond) =
      [.inSource ⟨6, 1⟩ .addressOverflow, .inSource ⟨8, 1⟩ .addressOverflow,
        .inSource ⟨1, 1⟩ (.branchOutOfRange "far" 254), .unresolvedLabel 5] := by
    decide +kernel
  have hsorted : Fault.sorted (linkFaults ["far"] (counted 0x0600 farAndBeyond)) =
      farAndBeyondFaults := by
    rw [hfaults]
    simp [Fault.sorted, List.mergeSort, List.MergeSort.Internal.splitInTwo, Fault.le,
      Fault.position?, Position.le, farAndBeyondFaults]
  have hlink : link 0x0600 ["far"] farAndBeyond = .error farAndBeyondFaults :=
    (link_eq_error_iff hfits).2 ⟨hfaults ▸ List.cons_ne_nil _ _, hsorted.symm⟩
  exact ⟨hfits, hlink, (link_fails_exactly 0x0600 ["far"] hfits).2.1 _ hlink⟩

end Assembler65
