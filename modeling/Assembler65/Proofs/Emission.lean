import Assembler65.Image.Linking
import Assembler65.Proofs.Layout
import Assembler65.Proofs.Memory

/-!
# What the first pass leaves behind

`Emission.admitted` are the records that the first pass lays out, with their locations, and
`Emission.rejected` those that overflow. Stores, patches, labels and faults after a run are read
off these two lists (`stores_foldl_place` and its companions). An admitted record ends within memory
unless it has so many bytes that 32 bits do not hold their number (`Placed.Admissible.stop_le`).
Without rejected records, and with operands that fit their modes, the admitted records are the
layout of the location counter (`admitted_eq_layout`).
-/

set_option autoImplicit false

namespace Assembler65

namespace Placed

/-- The stores of the first pass for a record. -/
def drafts (p : Placed) : List Store := Store.run p.location p.record.item.draft

/-- The patch of a record. -/
def patch? (p : Placed) : Option Patch := p.record.item.patch? p.location p.record.pos

/-- The span of a record. -/
def span (p : Placed) : Span :=
  ⟨p.record.pos.row, UInt16.ofNat p.location, p.record.size, p.record.item.isCode⟩

/-- What the check for the end of memory says about a record that it lets pass. -/
structure Admissible (p : Placed) : Prop where
  location_le : p.location ≤ memorySize + 2
  advance_le : advance p.location p.record.size ≤ memorySize
  label_lt : p.record.item.isLabel = true → p.location < memorySize

/-- The check adds in 32 bits, which is enough for all records but those of gigabytes. -/
theorem Admissible.stop_le {p : Placed} (h : p.Admissible) (hsize : p.record.size < 0x80000000) :
    p.stop ≤ memorySize := by
  rw [stop, ← advance_eq_add h.location_le hsize]
  exact h.advance_le

end Placed

/-- Only operations have patches, and they are short. -/
theorem Item.size_le_of_patch? {item : Item} {location : Nat} {pos : Position} {patch : Patch}
    (h : item.patch? location pos = some patch) : item.size ≤ 3 := by
  cases item with
  | operation instruction opcode operand =>
    have hmode := instruction.mode.operandLength_le
    rw [size]
    omega
  | _ => cases h

/-- A record with a patch ends within memory. -/
theorem Placed.Admissible.stop_le_of_patch? {p : Placed} (h : p.Admissible) {patch : Patch}
    (hpatch : p.patch? = some patch) : p.stop ≤ memorySize :=
  h.stop_le (Nat.lt_of_le_of_lt (Item.size_le_of_patch? hpatch) (by decide))

theorem LabelAddresses.lookup_set (labels : LabelAddresses) (label : Nat) (address : UInt16)
    (index : Nat) :
    (labels.set label address).lookup index =
      if label = index then some address else labels.lookup index := by
  by_cases hsame : label = index
  · subst hsame
    simp [set]
  · have hne : (index == label) = false := beq_eq_false_iff_ne.2 (Ne.symm hsame)
    -- Setting a label drops its older addresses, none of which is at `index`.
    rw [set, List.lookup_cons, hne, if_neg hsame]
    induction labels with
    | nil => rfl
    | cons entry rest ih =>
      obtain ⟨other, value⟩ := entry
      by_cases hother : other = label
      · subst hother
        simpa [List.lookup_cons, hne] using ih
      · simp only [List.filter_cons, bne_iff_ne, ne_eq, hother, not_false_eq_true, if_true,
          List.lookup_cons]
        cases index == other with
        | true => rfl
        | false => exact ih

theorem labelLocation?_cons (p : Placed) (rest : List Placed) (index : Nat) :
    labelLocation? (p :: rest) index =
      (labelLocation? rest index).or
        (if p.record.item = .label index then some p.location else none) := by
  have hsplit : p :: rest = [p] ++ rest := rfl
  rw [hsplit, labelLocation?, List.filter_append, List.getLast?_append, Option.map_or]
  congr 1
  by_cases hp : p.record.item = .label index <;> simp [hp]

/-- A label's location is that of a record which places the label. -/
theorem exists_of_labelLocation? {placed : List Placed} {index location : Nat}
    (h : labelLocation? placed index = some location) :
    ∃ p ∈ placed, p.record.item = .label index ∧ p.location = location := by
  obtain ⟨p, hp, hloc⟩ := Option.map_eq_some_iff.1 h
  have hmem := List.mem_of_getLast? hp
  rw [List.mem_filter, decide_eq_true_eq] at hmem
  exact ⟨p, hmem.1, hmem.2, hloc⟩

namespace Emission

/-- The records that are laid out, with their locations. -/
def admitted (e : Emission) : List Record → List Placed
  | [] => []
  | r :: rest =>
    if e.overflows r then (e.place r).admitted rest
    else ⟨e.location, r⟩ :: (e.place r).admitted rest

/-- The records that would reach beyond the end of memory. -/
def rejected (e : Emission) : List Record → List Record
  | [] => []
  | r :: rest =>
    if e.overflows r then r :: (e.place r).rejected rest else (e.place r).rejected rest

/-! ## One step -/

theorem place_of_overflows {e : Emission} {r : Record} (h : e.overflows r = true) :
    e.place r = { e with faults := e.faults.push (.inSource r.pos .addressOverflow) } := by
  rw [place, if_pos h]

theorem place_of_not_overflows {e : Emission} {r : Record} (h : e.overflows r = false) :
    e.place r =
      { e with
        location := e.nextLocation r
        stores := e.stores ++ Store.run e.location r.item.draft
        labels := e.nextLabels r
        patches := e.patches ++ (r.item.patch? e.location r.pos).toList
        spans := e.spans ++ (e.span? r).toList } := by
  rw [place, if_neg (by simp [h])]

theorem overflows_eq_false_iff {e : Emission} {r : Record} :
    e.overflows r = false ↔
      advance e.location r.size ≤ memorySize ∧
        (r.item.isLabel = true → e.location < memorySize) := by
  simp [overflows]

/-- A new location is no overflow as long as the location counter is within memory. -/
theorem overflows_origin {e : Emission} (h : e.location ≤ memorySize) {r : Record}
    {address : UInt16} (hitem : r.item = .origin address) : e.overflows r = false := by
  rw [overflows_eq_false_iff, Record.size, hitem, advance_eq_mod]
  exact ⟨(Nat.mod_le _ _).trans h, fun hlabel => absurd hlabel Bool.false_ne_true⟩

/-- The location counter of the first pass is the one of the layout, if the operand fits. -/
theorem nextLocation_eq_next {r : Record} (hfits : r.item.OperandFits) (e : Emission) :
    e.nextLocation r = r.next e.location := by
  -- The first pass moves on by the bytes laid down, the layout by the size of the record.
  have hlen : r.item.draft.length = r.size := r.item.length_draft.trans (Item.length_encoding hfits)
  cases hitem : r.item with
  | origin address => simp [nextLocation, Record.next, hitem]
  | _ =>
    rw [hitem] at hlen
    simp [nextLocation, Record.next, hitem, hlen, advance_eq_mod]

/-- A record that passes the check moves the location counter two bytes beyond the end of memory at
most. -/
theorem nextLocation_le {e : Emission} (h : e.location ≤ memorySize + 2) {r : Record}
    (hinside : advance e.location r.size ≤ memorySize) : e.nextLocation r ≤ memorySize + 2 := by
  by_cases hfits : r.item.OperandFits
  · rw [nextLocation_eq_next hfits, Record.next]
    split
    case h_1 address _ =>
      have haddress : address.toNat < memorySize := address.toNat_lt
      omega
    case h_2 =>
      rw [← advance_eq_mod]
      omega
  · cases hitem : r.item with
    | operation instruction opcode operand =>
      -- Neither the size of an operation nor the number of its bytes is enough to wrap around.
      have hmode := instruction.mode.operandLength_le
      have hoperand : operand.draft.length ≤ 2 := by
        cases operand <;> simp [Operand.draft, bytesOfWord]
      have hsize : advance e.location r.size = e.location + r.size :=
        advance_eq_add h (by rw [Record.size, hitem, Item.size]; omega)
      have hnext : e.nextLocation r = e.location + (operand.draft.length + 1) := by
        simp only [nextLocation, hitem, Item.draft, List.length_cons]
        exact advance_eq_add h (by omega)
      rw [hsize, Record.size, hitem, Item.size] at hinside
      omega
    | _ =>
      rw [hitem] at hfits
      exact absurd trivial hfits

theorem location_place_le {e : Emission} (h : e.location ≤ memorySize + 2) (r : Record) :
    (e.place r).location ≤ memorySize + 2 := by
  cases hover : e.overflows r with
  | true =>
    rw [place_of_overflows hover]
    exact h
  | false =>
    rw [place_of_not_overflows hover]
    exact nextLocation_le h (overflows_eq_false_iff.1 hover).1

/-! ## Whole runs -/

/-- What every record that is laid out adds to a list of the state, and no other record changes, is
added for all of them in order. -/
theorem foldl_place_eq_append {β : Type} (view : Emission → List β) {added : Placed → List β}
    (hskip : ∀ (e : Emission) (r : Record), e.overflows r = true → view (e.place r) = view e)
    (hadd : ∀ (e : Emission) (r : Record), e.overflows r = false →
      view (e.place r) = view e ++ added ⟨e.location, r⟩)
    (e : Emission) (records : List Record) :
    view (records.foldl place e) = view e ++ (e.admitted records).flatMap added := by
  induction records generalizing e with
  | nil => exact (List.append_nil _).symm
  | cons r rest ih =>
    rw [List.foldl_cons, ih, admitted]
    cases h : e.overflows r with
    | true => rw [if_pos rfl, hskip e r h]
    | false =>
      rw [if_neg Bool.false_ne_true, hadd e r h, List.flatMap_cons, List.append_assoc]

theorem stores_foldl_place (e : Emission) (records : List Record) :
    (records.foldl place e).stores.toList =
      e.stores.toList ++ (e.admitted records).flatMap Placed.drafts := by
  apply foldl_place_eq_append fun e => e.stores.toList
  · intro e r h
    rw [place_of_overflows h]
  · intro e r h
    simp [place_of_not_overflows h, Placed.drafts]

theorem patches_foldl_place (e : Emission) (records : List Record) :
    (records.foldl place e).patches.toList =
      e.patches.toList ++ (e.admitted records).flatMap fun p => p.patch?.toList := by
  apply foldl_place_eq_append fun e => e.patches.toList
  · intro e r h
    rw [place_of_overflows h]
  · intro e r h
    simp [place_of_not_overflows h, Placed.patch?]

/-- There is one span for each record with bytes. -/
theorem spans_foldl_place (e : Emission) (records : List Record) :
    (records.foldl place e).spans.toList =
      e.spans.toList ++
        ((e.admitted records).filter fun p => 0 < p.record.size).map Placed.span := by
  have hflat : ∀ placed : List Placed,
      (placed.flatMap fun p => if 0 < p.record.size then [p.span] else []) =
        (placed.filter fun p => 0 < p.record.size).map Placed.span := by
    intro placed
    induction placed with
    | nil => rfl
    | cons p rest ih =>
      rw [List.flatMap_cons, ih, List.filter_cons]
      by_cases hsize : 0 < p.record.size
      · simp [hsize]
      · simp [hsize]
  rw [← hflat]
  apply foldl_place_eq_append fun e => e.spans.toList
  · intro e r h
    rw [place_of_overflows h]
  · intro e r h
    by_cases hsize : 0 < r.size
    · simp [place_of_not_overflows h, span?, hsize, Placed.span]
    · simp [place_of_not_overflows h, span?, hsize]

theorem faults_foldl_place (e : Emission) (records : List Record) :
    (records.foldl place e).faults.toList =
      e.faults.toList ++ (e.rejected records).map fun r => .inSource r.pos .addressOverflow := by
  induction records generalizing e with
  | nil => simp [rejected]
  | cons r rest ih =>
    rw [List.foldl_cons, ih, rejected]
    cases h : e.overflows r with
    | true => simp [place_of_overflows h]
    | false => simp [place_of_not_overflows h]

theorem lookup_nextLabels (e : Emission) (r : Record) (index : Nat) :
    (e.nextLabels r).lookup index =
      if r.item = .label index then some (UInt16.ofNat e.location) else e.labels.lookup index := by
  rw [nextLabels]
  split
  · rename_i label hitem
    rw [LabelAddresses.lookup_set, hitem]
    by_cases hsame : label = index <;> simp [hsame]
  · rename_i hnot
    rw [if_neg (hnot index)]

/-- A label has the location of the last admitted record that places it. -/
theorem lookup_labels_foldl_place (e : Emission) (records : List Record) (index : Nat) :
    (records.foldl place e).labels.lookup index =
      ((labelLocation? (e.admitted records) index).map UInt16.ofNat).or
        (e.labels.lookup index) := by
  induction records generalizing e with
  | nil => rfl
  | cons r rest ih =>
    rw [List.foldl_cons, ih, admitted]
    cases h : e.overflows r with
    | true => simp [place_of_overflows h]
    | false =>
      -- A later record that places the label goes before this one.
      rw [if_neg Bool.false_ne_true, labelLocation?_cons, Option.map_or, Option.or_assoc]
      congr 1
      rw [place_of_not_overflows h, lookup_nextLabels]
      by_cases hitem : r.item = .label index <;> simp [hitem]

/-! ## From an origin on -/

theorem stores_ofRecords (origin : UInt16) (records : List Record) :
    (ofRecords origin records).stores.toList =
      (admitted { location := origin.toNat } records).flatMap Placed.drafts :=
  stores_foldl_place _ records

theorem patches_ofRecords (origin : UInt16) (records : List Record) :
    (ofRecords origin records).patches.toList =
      (admitted { location := origin.toNat } records).flatMap fun p => p.patch?.toList :=
  patches_foldl_place _ records

theorem lookup_labels_ofRecords (origin : UInt16) (records : List Record) (index : Nat) :
    (ofRecords origin records).labels.lookup index =
      (labelLocation? (admitted { location := origin.toNat } records) index).map UInt16.ofNat :=
  (lookup_labels_foldl_place _ records index).trans Option.or_none

/-! ## Bounds and the layout -/

theorem admissible_of_mem_admitted {e : Emission} (he : e.location ≤ memorySize + 2)
    {records : List Record} {p : Placed} (h : p ∈ e.admitted records) :
    p.record ∈ records ∧ p.Admissible := by
  induction records generalizing e with
  | nil => cases h
  | cons r rest ih =>
    have hrest : p ∈ (e.place r).admitted rest → p.record ∈ r :: rest ∧ p.Admissible := by
      intro hlater
      obtain ⟨hmem, hadmissible⟩ := ih (location_place_le he r) hlater
      exact ⟨List.mem_cons_of_mem r hmem, hadmissible⟩
    rw [admitted] at h
    cases hover : e.overflows r with
    | true =>
      rw [if_pos hover] at h
      exact hrest h
    | false =>
      rw [if_neg (by simp [hover]), List.mem_cons] at h
      rcases h with rfl | h
      · obtain ⟨hadvance, hlabel⟩ := overflows_eq_false_iff.1 hover
        exact ⟨List.mem_cons_self, he, hadvance, hlabel⟩
      · exact hrest h

theorem admissible_of_mem_admitted_origin {origin : UInt16} {records : List Record} {p : Placed}
    (h : p ∈ admitted { location := origin.toNat } records) :
    p.record ∈ records ∧ p.Admissible :=
  admissible_of_mem_admitted (Nat.le_add_right_of_le (Nat.le_of_lt origin.toNat_lt)) h

/-- Without overflow, the first pass follows the location counter of the layout. -/
theorem admitted_eq_layout {e : Emission} {records : List Record}
    (hfits : ∀ r ∈ records, r.item.OperandFits) (hnone : e.rejected records = []) :
    e.admitted records = layout e.location records := by
  induction records generalizing e with
  | nil => rfl
  | cons r rest ih =>
    rw [rejected] at hnone
    cases h : e.overflows r with
    | true => simp [h] at hnone
    | false =>
      rw [if_neg (by simp [h])] at hnone
      have hnext : (e.place r).location = r.next e.location := by
        rw [place_of_not_overflows h]
        exact nextLocation_eq_next (hfits r List.mem_cons_self) e
      rw [admitted, if_neg (by simp [h]), layout,
        ih (fun r' hr' => hfits r' (List.mem_cons_of_mem r hr')) hnone, hnext]

end Emission

end Assembler65
