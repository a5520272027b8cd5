import Assembler65.Proofs.Linking
import Assembler65.Proofs.LostLabels

/-!
# Linking literals

Records without labels and without jumps of the location counter are laid down one behind the other.
As far as they fit into memory, the image from their first location on holds their bytes in order
(`exists_link_of_literals`).
-/

set_option autoImplicit false

namespace Assembler65

theorem Store.run_append (location : Nat) (first second : List UInt8) :
    run location (first ++ second) =
      run location first ++ run (location + first.length) second := by
  induction first generalizing location with
  | nil => rfl
  | cons b first ih =>
    rw [List.cons_append, run, ih, run, List.length_cons, List.cons_append, Nat.add_assoc,
      Nat.add_comm 1]

/-- Bytes that are stored one behind the other from the origin on are the memory. -/
theorem Store.applyAll_run {origin : UInt16} (before bs : List UInt8)
    (h : origin.toNat + before.length + bs.length ≤ memorySize) :
    applyAll origin before.toArray (run (origin.toNat + before.length) bs) =
      (before ++ bs).toArray := by
  induction bs generalizing before with
  | nil => rw [List.append_nil]; rfl
  | cons b bs ih =>
    have haddress : (UInt16.ofNat (origin.toNat + before.length)).toNat =
        origin.toNat + before.length := by
      apply UInt16.toNat_ofNat_of_lt'
      show origin.toNat + before.length < memorySize
      rw [List.length_cons] at h
      omega
    have hstep : apply origin before.toArray ⟨UInt16.ofNat (origin.toNat + before.length), b⟩ =
        (before ++ [b]).toArray := by
      apply Array.ext_getElem?
      intro i
      rw [getElem?_apply _ _ _ (isBelow_eq_false_iff.2 (by
        rw [UInt16.le_iff_toNat_le, haddress]; omega)), haddress, Nat.add_sub_cancel_left,
        List.size_toArray, List.getElem?_toArray, List.getElem?_toArray]
      rcases Nat.lt_trichotomy i before.length with hlt | rfl | hgt
      · rw [if_neg (by omega), if_pos hlt, List.getElem?_append_left hlt]
      · rw [if_pos rfl, List.getElem?_concat_length]
      · rw [if_neg (by omega), if_neg (by omega), if_neg (by omega),
          List.getElem?_eq_none (by rw [List.length_append, List.length_singleton]; omega)]
    rw [run, applyAll_cons, hstep]
    have hrest := ih (before ++ [b]) (by simp at h ⊢; omega)
    rw [List.append_assoc, List.singleton_append, List.length_append, List.length_singleton,
      ← Nat.add_assoc] at hrest
    exact hrest

/-- A record that is laid down as literal bytes, which fill its size. -/
structure Record.IsLiteral (r : Record) : Prop where
  no_label : r.item.labelUse? = none
  isCode : r.item.isCode = true
  operandFits : r.item.OperandFits

section Literals

variable {records : List Record} {location : Nat}

theorem Record.IsLiteral.size_eq {r : Record} (h : r.IsLiteral) : r.size = r.item.draft.length := by
  rw [Item.length_draft, Item.length_encoding h.operandFits]
  rfl

theorem Record.IsLiteral.next_eq {r : Record} (h : r.IsLiteral)
    (hinside : location + r.item.draft.length ≤ memorySize) :
    r.next location = location + r.item.draft.length := by
  rw [← h.size_eq] at hinside ⊢
  have hmod : (location + r.size) % 0x100000000 = location + r.size :=
    Nat.mod_eq_of_lt (Nat.lt_of_le_of_lt hinside (by decide))
  rw [Record.next]
  have hcode := h.isCode
  cases hitem : r.item with
  | origin address => rw [hitem] at hcode; cases hcode
  | _ => exact hmod

/-- Literal records are laid down one behind the other. -/
theorem flatMap_drafts_layout (h : ∀ r ∈ records, r.IsLiteral)
    (hsize : location + (records.flatMap fun r => r.item.draft).length ≤ memorySize) :
    (layout location records).flatMap Placed.drafts =
      Store.run location (records.flatMap fun r => r.item.draft) := by
  induction records generalizing location with
  | nil => rfl
  | cons r records ih =>
    rw [List.forall_mem_cons] at h
    rw [List.flatMap_cons, List.length_append] at hsize
    have hnext : r.next location = location + r.item.draft.length := h.1.next_eq (by omega)
    rw [layout, List.flatMap_cons, List.flatMap_cons, hnext, ih h.2 (by omega), Store.run_append]
    rfl

/-- Literal records overflow only if there are too many bytes. -/
theorem overflows_counted (h : ∀ r ∈ records, r.IsLiteral)
    (hsize : location + (records.flatMap fun r => r.item.draft).length ≤ memorySize) :
    ∀ p ∈ counted location records, p.overflows = false := by
  induction records generalizing location with
  | nil => exact List.forall_mem_nil _
  | cons r records ih =>
    rw [List.forall_mem_cons] at h
    rw [List.flatMap_cons, List.length_append] at hsize
    have hlabel : r.item.isLabel = false := by
      have hcode := h.1.isCode
      cases hitem : r.item with
      | label index => rw [hitem] at hcode; cases hcode
      | _ => rfl
    have hinside : location + r.item.draft.length ≤ memorySize := by omega
    have hfits : Placed.overflows ⟨location, r⟩ = false := by
      rw [Placed.overflows, hlabel, Placed.stop, h.1.size_eq, Bool.false_and, Bool.or_false,
        decide_eq_false_iff_not, Nat.not_lt]
      exact (Nat.mod_le _ _).trans hinside
    have hnext : Placed.next ⟨location, r⟩ = location + r.item.draft.length := by
      rw [Placed.next, hfits, if_neg Bool.false_ne_true, h.1.next_eq hinside]
    rw [counted, List.forall_mem_cons, hnext]
    exact ⟨hfits, ih h.2 (by omega)⟩

/-- Literal records are linked to their bytes. -/
theorem exists_link_of_literals {origin : UInt16} {names : List String}
    (h : ∀ r ∈ records, r.IsLiteral)
    (hsize : origin.toNat + (records.flatMap fun r => r.item.draft).length ≤ memorySize) :
    ∃ image, link origin names records = .ok image ∧ image.origin = origin ∧
      image.bytes = (records.flatMap fun r => r.item.draft).toArray := by
  have hfits : ∀ r ∈ records, r.item.OperandFits := fun r hr => (h r hr).operandFits
  have hfaultless : ∀ faults, link origin names records ≠ .error faults := by
    intro faults hfaults
    have hrecord : ∀ p ∈ fitting (counted origin.toNat records),
        p.record.item.labelUse? = none := by
      intro p hp
      have hmem := List.mem_map_of_mem (f := Placed.record) (List.mem_of_mem_filter hp)
      rw [map_record_counted] at hmem
      exact (h _ hmem).no_label
    rcases (linkFaults_ne_nil_iff names).1 ((link_eq_error_iff hfits).1 hfaults).1 with
      ⟨p, hp, hover⟩ | ⟨p, hp, use, huse, -⟩ | ⟨p, hp, use, _, huse, -⟩
    · rw [overflows_counted h hsize p hp] at hover
      cases hover
    · rw [hrecord p hp] at huse
      cases huse
    · rw [hrecord p hp] at huse
      cases huse
  cases hlink : link origin names records with
  | error faults => exact absurd hlink (hfaultless faults)
  | ok image =>
    obtain ⟨addresses, hlinked⟩ := linked_of_link_eq_ok hfits hlink
    refine ⟨image, rfl, hlinked.origin_eq, ?_⟩
    have hcompletions : (layout origin.toNat records).flatMap
        (Placed.completions names addresses) = [] := by
      rw [List.flatMap_eq_nil_iff]
      intro p hp
      have hlabel := (h _ (record_mem_of_mem_layout hp)).no_label
      rw [Item.labelUse?_eq _ p.location p.record.pos, Option.map_eq_none_iff] at hlabel
      rw [Placed.completions, Placed.patch?, hlabel]
      rfl
    rw [hlinked.bytes_eq, hcompletions, List.append_nil, flatMap_drafts_layout h hsize]
    exact Store.applyAll_run [] _ (by simpa using hsize)

end Literals

end Assembler65
