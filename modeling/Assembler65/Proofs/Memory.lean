import Assembler65.Image.Basic
import Mathlib.Data.List.Induction
import Mathlib.Order.MinMax

/-!
# What stores leave in memory

`Store.last?` is the value of the last store to an address. After some stores, memory reads the
last value stored at each address from the origin on, and zero where nothing was stored
(`getElem?_applyAll`). It reaches exactly up to the highest address stored to
(`lt_size_applyAll_iff`).
-/

set_option autoImplicit false

namespace Assembler65.Store

/-- The value of the last store to an address. -/
def last? (stores : List Store) (address : UInt16) : Option UInt8 :=
  (stores.filter fun s => s.address == address).getLast?.map Store.value

@[simp] theorem last?_nil (address : UInt16) : last? [] address = none := rfl

@[simp] theorem last?_append (first second : List Store) (address : UInt16) :
    last? (first ++ second) address = (last? second address).or (last? first address) := by
  unfold last?
  rw [List.filter_append, List.getLast?_append, Option.map_or]

theorem last?_cons (s : Store) (rest : List Store) (address : UInt16) :
    last? (s :: rest) address =
      (last? rest address).or (if s.address = address then some s.value else none) := by
  have hsplit : s :: rest = [s] ++ rest := rfl
  rw [hsplit, last?_append]
  congr 1
  by_cases hs : s.address = address <;> simp [last?, hs]

/-- The last store among the stores of several sources comes from the last source that has one. -/
theorem last?_flatMap {α : Type} (sources : List α) (stores : α → List Store) (address : UInt16) :
    last? (sources.flatMap stores) address =
      (sources.filter fun x => (last? (stores x) address).isSome).getLast?.bind
        fun x => last? (stores x) address := by
  -- From the end of the sources, where the last store is found.
  induction sources using List.reverseRecOn with
  | nil => rfl
  | append_singleton front x ih =>
    rw [List.flatMap_append, last?_append, List.flatMap_singleton, List.filter_append,
      List.getLast?_append, ih]
    cases hx : last? (stores x) address with
    | none => simp [hx]
    | some b => simp [hx]

theorem isBelow_eq_false_iff {origin : UInt16} {s : Store} :
    s.isBelow origin = false ↔ origin ≤ s.address := by
  simp [isBelow]

/-- One store as memory reads it from the origin on. -/
theorem getD_apply {origin : UInt16} {address : UInt16} (h : origin ≤ address)
    (bytes : Array UInt8) (s : Store) :
    (apply origin bytes s)[address.toNat - origin.toNat]?.getD 0 =
      if s.address = address then s.value
      else bytes[address.toNat - origin.toNat]?.getD 0 := by
  have hle : origin.toNat ≤ address.toNat := UInt16.le_iff_toNat_le.1 h
  cases hs : s.isBelow origin with
  | true =>
    -- A store below the origin changes nothing and is not at an address from the origin on.
    have hne : s.address ≠ address := by
      rintro rfl
      rw [isBelow_eq_false_iff.2 h] at hs
      cases hs
    simp [apply, hs, hne]
  | false =>
    have hsle : origin.toNat ≤ s.address.toNat :=
      UInt16.le_iff_toNat_le.1 (isBelow_eq_false_iff.1 hs)
    rw [getElem?_apply origin bytes s hs]
    by_cases hsame : s.address = address
    · subst hsame
      simp
    · have hne : address.toNat - origin.toNat ≠ s.address.toNat - origin.toNat := by
        intro heq
        exact hsame (UInt16.toNat.inj (by omega))
      rw [if_neg hne, if_neg hsame]
      -- Growing the memory fills in zeros, which is also how it reads beyond its end.
      split
      · rfl
      · rename_i hge
        rw [Array.getElem?_eq_none (by omega)]
        split <;> rfl

/-- Memory reads the last value stored at each address, or what was there before. -/
theorem getElem?_applyAll {origin address : UInt16} (h : origin ≤ address)
    (bytes : Array UInt8) (stores : List Store)
    (hlt : address.toNat - origin.toNat < (applyAll origin bytes stores).size) :
    (applyAll origin bytes stores)[address.toNat - origin.toNat]? =
      some ((last? stores address).getD (bytes[address.toNat - origin.toNat]?.getD 0)) := by
  induction stores generalizing bytes with
  | nil =>
    rw [applyAll_nil] at hlt ⊢
    rw [Array.getElem?_eq_getElem hlt]
    rfl
  | cons s rest ih =>
    rw [applyAll_cons] at hlt ⊢
    rw [ih _ hlt, getD_apply h, last?_cons]
    cases last? rest address with
    | none => by_cases hs : s.address = address <;> simp [hs]
    | some b => rfl

/-- Memory reaches exactly as far as it did before and as far as something was stored. -/
theorem lt_size_applyAll_iff {origin : UInt16} (bytes : Array UInt8) (stores : List Store)
    (i : Nat) :
    i < (applyAll origin bytes stores).size ↔
      i < bytes.size ∨ ∃ s ∈ stores, origin ≤ s.address ∧
        i ≤ s.address.toNat - origin.toNat := by
  induction stores generalizing bytes with
  | nil => simp
  | cons s rest ih =>
    rw [applyAll_cons, ih, size_apply]
    cases hs : s.isBelow origin with
    | true =>
      have hlow : ¬ origin ≤ s.address := fun hle => by
        rw [isBelow_eq_false_iff.2 hle] at hs
        cases hs
      simp [hlow]
    | false =>
      have hle : origin ≤ s.address := isBelow_eq_false_iff.1 hs
      simp only [Bool.false_eq_true, if_false, List.mem_cons, exists_eq_or_imp, hle, true_and,
        lt_max_iff, Nat.lt_succ_iff, or_assoc]

end Assembler65.Store
