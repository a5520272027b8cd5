import Assembler65.Proofs.Encoding
import Assembler65.Proofs.LinkFaults
import Assembler65.Proofs.LocatedFaults

/-!
# Labels lost beyond the end of memory

An operand whose label has no location is an internal fault: it has no place in the source. Every
label of an accepted program is declared once, so a location can be missing for one reason only,
that the declaration itself overflows. Main statement: `internal_fault_iff_label_lost`, these labels
are exactly the internal faults of assembling, and each comes with the located overflow of its
declaration.
-/

set_option autoImplicit false

namespace Assembler65

/-- The records that a source is resolved to. -/
def Source.ResolvesTo (s : Source) (records : List Record) : Prop :=
  ∃ lexemes, s.lexemes = .ok lexemes ∧ (Program.resolve {} lexemes).outcome = .ok records

theorem Source.ResolvesTo.unique {s : Source} {records other : List Record}
    (h : s.ResolvesTo records) (hother : s.ResolvesTo other) : records = other := by
  obtain ⟨lexemes, hlexemes, houtcome⟩ := h
  obtain ⟨lexemes', hlexemes', houtcome'⟩ := hother
  cases hlexemes.symm.trans hlexemes'
  exact Except.ok.inj (houtcome.symm.trans houtcome')

/-- The record that places a label overflows, and one within memory refers to the label. -/
def LabelLost (placed : List Placed) (index : Nat) : Prop :=
  (∃ label ∈ overflowing placed, label.record.item = .label index) ∧
    ∃ user ∈ fitting placed, index ∈ user.record.item.references

/-! ## Labels of accepted programs -/

theorem Record.label?_eq_some_iff {r : Record} {index : Nat} :
    r.label? = some index ↔ r.item = .label index := by
  rw [label?]
  cases r.item with
  | label other => simp
  | _ => simp

section Labels

variable {lexemes : List Lexeme} {records : List Record}

/-- An accepted program places each label once, and all labels that it refers to. -/
theorem labels_of_outcome (h : (Program.resolve {} lexemes).outcome = .ok records) :
    (records.filterMap Record.label?).Nodup ∧
      ∀ r ∈ records, ∀ index ∈ r.item.references, ∃ label ∈ records, label.item = .label index := by
  have hresolved := resolved_wordRows h
  refine ⟨by rw [hresolved.labels]; exact List.nodup_range, ?_⟩
  intro r hr index hindex
  -- The declarations are numbered in order, so that every index below their number is placed.
  have hlt := hresolved.closed r hr index hindex
  rw [← List.mem_range, ← hresolved.labels] at hlt
  obtain ⟨label, hlabel, hplaces⟩ := List.mem_filterMap.1 hlt
  exact ⟨label, hlabel, Record.label?_eq_some_iff.1 hplaces⟩

theorem operandFits_of_outcome (h : (Program.resolve {} lexemes).outcome = .ok records) :
    ∀ r ∈ records, r.item.OperandFits := by
  obtain ⟨-, -, chunks, hchunks, rfl⟩ := wellFormed_and_exists_chunks h
  intro r hr
  obtain ⟨chunk, hchunk, hr⟩ := List.mem_flatten.1 hr
  obtain ⟨row, -, hrow⟩ := exists_of_mem_left hchunks.flip hchunk
  exact (RowRecords.wellEncoded hrow r hr).operandFits

end Labels

/-! ## Locations of labels -/

theorem map_record_counted (location : Nat) (records : List Record) :
    (counted location records).map Placed.record = records := by
  induction records generalizing location with
  | nil => rfl
  | cons r rest ih => rw [counted, List.map_cons, ih]

theorem labelLocation?_eq_none_iff {placed : List Placed} {index : Nat} :
    labelLocation? placed index = none ↔ ∀ p ∈ placed, p.record.item ≠ .label index := by
  rw [labelLocation?, Option.map_eq_none_iff, List.getLast?_eq_none_iff, List.filter_eq_nil_iff]
  simp only [decide_eq_true_eq, ne_eq]

/-- Two records that place one label are the same, where all labels are placed once. -/
theorem eq_of_label {placed : List Placed} {p q : Placed} {index : Nat}
    (hnodup : (placed.filterMap fun p => p.record.label?).Nodup) (hp : p ∈ placed)
    (hq : q ∈ placed) (hlabel : p.record.item = .label index)
    (hlabel' : q.record.item = .label index) : p = q := by
  by_contra hne
  have hdiffer : placed.Pairwise fun p q =>
      ∀ index, p.record.label? = some index → q.record.label? ≠ some index :=
    (List.pairwise_filterMap.1 hnodup).imp fun h index hp hq => h index hp index hq rfl
  have hsymm : Std.Symm fun p q : Placed =>
      ∀ index, p.record.label? = some index → q.record.label? ≠ some index :=
    ⟨fun p q h index hq hp => h index hp hq⟩
  exact hdiffer.forall hp hq hne index (Record.label?_eq_some_iff.2 hlabel)
    (Record.label?_eq_some_iff.2 hlabel')

/-- Where all labels are placed once, those without a location overflow. -/
theorem labelLocation?_fitting_eq_none_iff {placed : List Placed} {index : Nat}
    (hnodup : (placed.filterMap fun p => p.record.label?).Nodup)
    (hplaced : ∃ p ∈ placed, p.record.item = .label index) :
    labelLocation? (fitting placed) index = none ↔
      ∃ label ∈ overflowing placed, label.record.item = .label index := by
  rw [labelLocation?_eq_none_iff]
  constructor
  · intro hnone
    obtain ⟨p, hp, hitem⟩ := hplaced
    refine ⟨p, List.mem_filter.2 ⟨hp, ?_⟩, hitem⟩
    by_contra hover
    exact hnone p (List.mem_filter.2 ⟨hp, by simp [hover]⟩) hitem
  · rintro ⟨label, hlabel, hitem⟩ p hp hitem'
    obtain ⟨hlabel, hover⟩ := List.mem_filter.1 hlabel
    obtain ⟨hp, hfits⟩ := List.mem_filter.1 hp
    -- The one record of the label cannot be both within memory and beyond its end.
    cases eq_of_label hnodup hlabel hp hitem hitem'
    simp [hover] at hfits

/-! ## Faults of a link -/

theorem Item.mem_references_iff {item : Item} {index : Nat} :
    index ∈ item.references ↔ ∃ use, item.labelUse? = some use ∧ use.index = index := by
  cases item with
  | operation instruction opcode operand =>
    cases operand <;> simp [references, Operand.labels, labelUse?, eq_comm]
  | _ => simp [references, labelUse?]

theorem Placed.operandFault?_eq_unresolvedLabel_iff {labels : Nat → Option Nat} {p : Placed}
    {names : List String} {index : Nat} :
    p.operandFault? labels names = some (.unresolvedLabel index) ↔
      labels index = none ∧ index ∈ p.record.item.references := by
  rw [operandFault?, Item.mem_references_iff]
  cases p.record.item.labelUse? with
  | none => simp
  | some use =>
    rw [Option.bind_some]
    constructor
    · intro h
      cases hlabel : labels use.index with
      | none =>
        rw [hlabel] at h
        cases h
        exact ⟨hlabel, use, rfl, rfl⟩
      | some location =>
        rw [hlabel, Option.ite_none_right_eq_some] at h
        cases h.2
    · rintro ⟨hlabel, _, ⟨rfl⟩, rfl⟩
      rw [hlabel]

theorem unresolvedLabel_mem_linkFaults_iff {names : List String} {placed : List Placed}
    {index : Nat} :
    .unresolvedLabel index ∈ linkFaults names placed ↔
      labelLocation? (fitting placed) index = none ∧
        ∃ user ∈ fitting placed, index ∈ user.record.item.references := by
  rw [linkFaults, List.mem_append, List.mem_filterMap]
  simp only [Placed.operandFault?_eq_unresolvedLabel_iff]
  constructor
  · rintro (hover | ⟨user, huser, hnone, hindex⟩)
    · obtain ⟨p, -, hp⟩ := List.mem_map.1 hover
      cases hp
    · exact ⟨hnone, user, huser, hindex⟩
  · rintro ⟨hnone, user, huser, hindex⟩
    exact .inr ⟨user, huser, hnone, hindex⟩

/-- What can be wrong where a record stands. -/
inductive Placed.Blamed : Cause → Prop
  | overflow : Blamed .addressOverflow
  | reach (label : String) (displacement : Int) : Blamed (.branchOutOfRange label displacement)

/-- Link faults are found at records but for labels without a location. -/
theorem blamed_or_unresolvedLabel {names : List String} {placed : List Placed} {f : Fault}
    (h : f ∈ linkFaults names placed) :
    (∃ p ∈ placed, ∃ cause, Placed.Blamed cause ∧ f = .inSource p.record.pos cause) ∨
      ∃ index, f = .unresolvedLabel index := by
  rcases List.mem_append.1 h with h | h
  · obtain ⟨p, hp, rfl⟩ := List.mem_map.1 h
    exact .inl ⟨p, List.mem_of_mem_filter hp, _, .overflow, rfl⟩
  · obtain ⟨p, hp, hfault⟩ := List.mem_filterMap.1 h
    obtain ⟨use, -, hfault⟩ := Option.bind_eq_some_iff.1 hfault
    split at hfault
    case h_1 =>
      cases hfault
      exact .inr ⟨use.index, rfl⟩
    case h_2 =>
      rw [Option.ite_none_right_eq_some] at hfault
      cases hfault.2
      exact .inl ⟨p, List.mem_of_mem_filter hp, _, .reach _ _, rfl⟩

theorem located_or_unresolvedLabel {names : List String} {placed : List Placed} {f : Fault}
    (h : f ∈ linkFaults names placed) : f.Located ∨ ∃ index, f = .unresolvedLabel index := by
  rcases blamed_or_unresolvedLabel h with ⟨p, -, cause, -, rfl⟩ | hindex
  · exact .inl (Fault.located_inSource _ _)
  · exact .inr hindex

/-- In an accepted program, the labels without a location that are used are the lost ones. -/
theorem unresolvedLabel_mem_iff_labelLost {lexemes : List Lexeme} {records : List Record}
    (h : (Program.resolve {} lexemes).outcome = .ok records) {names : List String}
    {location index : Nat} :
    .unresolvedLabel index ∈ linkFaults names (counted location records) ↔
      LabelLost (counted location records) index := by
  obtain ⟨hnodup, hclosed⟩ := labels_of_outcome h
  rw [unresolvedLabel_mem_linkFaults_iff, LabelLost]
  refine and_congr_left ?_
  rintro ⟨user, huser, hindex⟩
  have hrecords := map_record_counted location records
  apply labelLocation?_fitting_eq_none_iff
  · rw [← hrecords, List.filterMap_map] at hnodup
    exact hnodup
  · have huser : user.record ∈ records := by
      rw [← hrecords]
      exact List.mem_map_of_mem (List.mem_of_mem_filter huser)
    obtain ⟨label, hlabel, hitem⟩ := hclosed _ huser index hindex
    rw [← hrecords] at hlabel
    obtain ⟨p, hp, rfl⟩ := List.mem_map.1 hlabel
    exact ⟨p, hp, hitem⟩

/-! ## Internal faults -/

theorem Fault.Located.category_ne {f : Fault} (h : f.Located) : f.category ≠ .internal := by
  obtain ⟨pos, cause, rfl⟩ := h
  cases cause <;> nofun

/-- A source that resolves is linked. -/
theorem assemble_eq_link {s : Source} (origin : UInt16) {lexemes : List Lexeme}
    {records : List Record} (hlexemes : s.lexemes = .ok lexemes)
    (houtcome : (Program.resolve {} lexemes).outcome = .ok records) :
    assemble s origin =
      link origin (Program.resolve {} lexemes).symbols.labels.names records := by
  simp [assemble, hlexemes, houtcome, bind, Except.bind]

/-- A source that does not resolve has the faults of resolving it. -/
theorem assemble_eq_error {s : Source} (origin : UInt16) {lexemes : List Lexeme}
    {faults : List Fault} (hlexemes : s.lexemes = .ok lexemes)
    (houtcome : (Program.resolve {} lexemes).outcome = .error faults) :
    assemble s origin = .error faults := by
  simp [assemble, hlexemes, houtcome, bind, Except.bind]

/-- The stage that a failed assembly stops at. -/
theorem stage_of_assemble_eq_error {s : Source} {origin : UInt16} {faults : List Fault}
    (h : assemble s origin = .error faults) :
    s.lexemes = .error faults ∨ ∃ lexemes, s.lexemes = .ok lexemes ∧
      ((Program.resolve {} lexemes).outcome = .error faults ∨
        ∃ records, (Program.resolve {} lexemes).outcome = .ok records ∧
          link origin (Program.resolve {} lexemes).symbols.labels.names records =
            .error faults) := by
  cases hlexemes : s.lexemes with
  | error lexical =>
    have heq : assemble s origin = .error lexical := by simp [assemble, hlexemes, bind, Except.bind]
    cases heq.symm.trans h
    exact .inl rfl
  | ok lexemes =>
    refine .inr ⟨lexemes, rfl, ?_⟩
    cases houtcome : (Program.resolve {} lexemes).outcome with
    | error semantic =>
      cases (assemble_eq_error origin hlexemes houtcome).symm.trans h
      exact .inl rfl
    | ok records =>
      exact .inr ⟨records, rfl, (assemble_eq_link origin hlexemes houtcome).symm.trans h⟩

/-- A failed assembly has located faults only, or the faults of a link. -/
theorem cases_of_assemble_eq_error {s : Source} {origin : UInt16} {faults : List Fault}
    (h : assemble s origin = .error faults) :
    ((∀ f ∈ faults, f.Located) ∧ ∀ records, ¬ s.ResolvesTo records) ∨
      ∃ lexemes records, s.lexemes = .ok lexemes ∧
        (Program.resolve {} lexemes).outcome = .ok records ∧
        link origin (Program.resolve {} lexemes).symbols.labels.names records = .error faults := by
  rcases stage_of_assemble_eq_error h with
    hlexical | ⟨lexemes, hlexemes, hsemantic | ⟨records, houtcome, hlink⟩⟩
  · refine .inl ⟨Source.located_of_lexemes hlexical, ?_⟩
    rintro records ⟨lexemes, hok, -⟩
    cases hlexical.symm.trans hok
  · refine .inl ⟨Program.located_of_outcome hsemantic, ?_⟩
    rintro records ⟨lexemes', hok, hrecords⟩
    cases hlexemes.symm.trans hok
    cases hsemantic.symm.trans hrecords
  · exact .inr ⟨lexemes, records, hlexemes, houtcome, hlink⟩

/-- The internal faults of a failed assembly are the labels whose declarations overflow although a
record within memory refers to them. The overflow of each declaration is reported in its place. -/
theorem internal_fault_iff_label_lost (s : Source) (origin : UInt16) {faults : List Fault}
    (h : assemble s origin = .error faults) :
    (∀ fault, fault ∈ faults ∧ fault.category = .internal ↔
      ∃ records index, s.ResolvesTo records ∧ LabelLost (counted origin.toNat records) index ∧
        fault = .unresolvedLabel index) ∧
      ∀ records, s.ResolvesTo records → ∀ label ∈ overflowing (counted origin.toNat records),
        .inSource label.record.pos .addressOverflow ∈ faults := by
  rcases cases_of_assemble_eq_error h with
    ⟨hlocated, hnone⟩ | ⟨lexemes, records, hlexemes, houtcome, hlink⟩
  · -- Nothing was linked.
    refine ⟨?_, fun records hrecords => absurd hrecords (hnone records)⟩
    intro fault
    constructor
    · rintro ⟨hmem, hcategory⟩
      exact absurd hcategory (hlocated fault hmem).category_ne
    · rintro ⟨records, index, hrecords, -⟩
      exact absurd hrecords (hnone records)
  · have hrecords : s.ResolvesTo records := ⟨lexemes, hlexemes, houtcome⟩
    obtain ⟨-, rfl⟩ := (link_eq_error_iff (operandFits_of_outcome houtcome)).1 hlink
    simp only [(Fault.sorted_perm _).mem_iff]
    refine ⟨?_, ?_⟩
    · intro fault
      constructor
      · rintro ⟨hmem, hcategory⟩
        rcases located_or_unresolvedLabel hmem with hlocated | ⟨index, rfl⟩
        · exact absurd hcategory hlocated.category_ne
        · exact ⟨records, index, hrecords,
            (unresolvedLabel_mem_iff_labelLost houtcome).1 hmem, rfl⟩
      · rintro ⟨other, index, hother, hlost, rfl⟩
        rw [hother.unique hrecords] at hlost
        exact ⟨(unresolvedLabel_mem_iff_labelLost houtcome).2 hlost, rfl⟩
    · intro other hother label hlabel
      rw [hother.unique hrecords] at hlabel
      exact List.mem_append_left _ (List.mem_map_of_mem hlabel)

/-- A jump to a label that is declared behind the last address. -/
def jumpPastEnd : Source where
  name := "end.s"
  rows := ["JMP end", "* = $FFFF", ".byte 1", "end:"]

/-- The records of `jumpPastEnd`. The byte fills memory up. -/
def jumpPastEndRecords : List Record :=
  [⟨⟨1, 1⟩, .operation ⟨.jmp, .absolute⟩ 0x4C (.label 0)⟩, ⟨⟨2, 1⟩, .origin 0xFFFF⟩,
    ⟨⟨3, 1⟩, .bytes [1]⟩, ⟨⟨4, 1⟩, .label 0⟩]

/-- The faults of `jumpPastEnd`. The label has no address, and only then its overflow follows. -/
def jumpPastEndFaults : List Fault :=
  [.unresolvedLabel 0, .inSource ⟨4, 1⟩ .addressOverflow]

theorem lexemes_jumpPastEnd : jumpPastEnd.lexemes = .ok (Lexeme.ofSource jumpPastEnd) := by
  decide +kernel

theorem outcome_jumpPastEnd :
    (Program.resolve {} (Lexeme.ofSource jumpPastEnd)).outcome = .ok jumpPastEndRecords := by
  decide +kernel

theorem assemble_jumpPastEnd : assemble jumpPastEnd 0x0600 = .error jumpPastEndFaults := by
  have hfaults : linkFaults ["end"] (counted 0x0600 jumpPastEndRecords) =
      [.inSource ⟨4, 1⟩ .addressOverflow, .unresolvedLabel 0] := by
    decide +kernel
  have hsorted : Fault.sorted (linkFaults ["end"] (counted 0x0600 jumpPastEndRecords)) =
      jumpPastEndFaults := by
    rw [hfaults]
    simp [Fault.sorted, List.mergeSort, List.MergeSort.Internal.splitInTwo, Fault.le,
      Fault.position?, jumpPastEndFaults]
  have hnames : (Program.resolve {} (Lexeme.ofSource jumpPastEnd)).symbols.labels.names =
      ["end"] := by
    decide +kernel
  rw [assemble_eq_link 0x0600 lexemes_jumpPastEnd outcome_jumpPastEnd, hnames]
  exact (link_eq_error_iff (by decide)).2 ⟨hfaults ▸ List.cons_ne_nil _ _, hsorted.symm⟩

/-- A program can have a fault that is internal and has no place in the source. -/
theorem jumpPastEnd_reports_internal :
    ∃ faults, assemble jumpPastEnd 0x0600 = .error faults ∧
      ∃ fault ∈ faults, fault.category = .internal ∧ fault.position? = none :=
  ⟨jumpPastEndFaults, assemble_jumpPastEnd, .unresolvedLabel 0, List.mem_cons_self, rfl, rfl⟩

theorem label_lost_in_jumpPastEnd :
    assemble jumpPastEnd 0x0600 = .error jumpPastEndFaults ∧
      ∃ records index, jumpPastEnd.ResolvesTo records ∧
        LabelLost (counted 0x0600 records) index ∧
        Fault.unresolvedLabel 0 = .unresolvedLabel index := by
  refine ⟨assemble_jumpPastEnd, ?_⟩
  exact ((internal_fault_iff_label_lost jumpPastEnd 0x0600 assemble_jumpPastEnd).1 _).1
    ⟨List.mem_cons_self, rfl⟩

end Assembler65
