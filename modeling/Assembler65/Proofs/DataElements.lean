import Assembler65.Proofs.Statements

/-!
# The elements of data lists

The list behind a data directive is a sequence of numbers and strings with one comma between each
two. Main statement: `dataList_flattens_elements`, a list has values exactly if it is such a
sequence with all values within the limit; its values are then those of its elements, one behind
the other; and a list without values is reported, by the list itself or by the check that all
numbers of the line fit into words.
-/

set_option autoImplicit false

namespace Assembler65

/-- An element of a data list. -/
inductive DataElement where
  | number (value : Nat)
  | string (text : String)
  deriving DecidableEq, Repr

namespace DataElement

/-- The token that an element is written as. -/
def kind : DataElement → TokenKind
  | number value => .number value
  | string text => .string text

/-- The values of an element: a number itself, and the codes of the characters of a string. -/
def values : DataElement → List Nat
  | number value => [value]
  | string text => text.toList.map Char.toNat

end DataElement

/-- Tokens are elements with one comma between each two, and nothing else. -/
def ListsElements (tokens : List Token) (elements : List DataElement) : Prop :=
  elements ≠ [] ∧ tokens.map Token.kind = (elements.map DataElement.kind).intersperse .comma

theorem TokenKind.dataValues?_eq_some_iff {kind : TokenKind} {values : List Nat} :
    kind.dataValues? = some values ↔
      ∃ element : DataElement, element.kind = kind ∧ element.values = values := by
  constructor
  · intro h
    cases kind with
    | number value => exact ⟨.number value, rfl, Option.some.inj h⟩
    | string text => exact ⟨.string text, rfl, Option.some.inj h⟩
    | _ => cases h
  · rintro ⟨element, rfl, rfl⟩
    cases element with
    | number value => rfl
    | string text => rfl

namespace ListsElements

variable {tokens : List Token} {element : DataElement} {elements : List DataElement}

theorem singleton_iff :
    ListsElements tokens [element] ↔ ∃ t, tokens = [t] ∧ t.kind = element.kind := by
  simp [ListsElements, List.map_eq_singleton_iff]

/-- More than one element: the first, a comma and the list of the others. -/
theorem cons_iff (hne : elements ≠ []) :
    ListsElements tokens (element :: elements) ↔
      ∃ t comma rest, tokens = t :: comma :: rest ∧ t.kind = element.kind ∧
        comma.kind = .comma ∧ ListsElements rest elements := by
  obtain ⟨second, others, rfl⟩ := List.exists_cons_of_ne_nil hne
  rw [ListsElements, List.map_cons, List.map_cons, List.intersperse_cons_cons]
  constructor
  · rintro ⟨-, hkinds⟩
    obtain ⟨t, behind, rfl, ht, hbehind⟩ := List.map_eq_cons_iff.1 hkinds
    obtain ⟨comma, rest, rfl, hcomma, hrest⟩ := List.map_eq_cons_iff.1 hbehind
    exact ⟨t, comma, rest, rfl, ht, hcomma, hne, hrest⟩
  · rintro ⟨t, comma, rest, rfl, ht, hcomma, -, hrest⟩
    refine ⟨List.cons_ne_nil _ _, ?_⟩
    rw [List.map_cons, List.map_cons, ht, hcomma, hrest, List.map_cons]

end ListsElements

/-- The grammar of data lists describes sequences of elements, with the values of all elements. -/
theorem dataTokens_iff_listsElements {tokens : List Token} {values : List Nat} :
    DataTokens tokens values ↔
      ∃ elements, ListsElements tokens elements ∧
        values = elements.flatMap DataElement.values := by
  constructor
  · intro h
    induction h with
    | @last t values hvalues =>
      obtain ⟨element, hkind, rfl⟩ := TokenKind.dataValues?_eq_some_iff.1 hvalues
      refine ⟨[element], ?_, (List.flatMap_singleton _ _).symm⟩
      exact ListsElements.singleton_iff.2 ⟨t, rfl, hkind.symm⟩
    | @more t comma rest values others hvalues hcomma _ ih =>
      obtain ⟨element, hkind, rfl⟩ := TokenKind.dataValues?_eq_some_iff.1 hvalues
      obtain ⟨elements, hlists, rfl⟩ := ih
      refine ⟨element :: elements, ?_, rfl⟩
      apply (ListsElements.cons_iff hlists.1).2
      exact ⟨t, comma, rest, rfl, hkind.symm, hcomma, hlists⟩
  · rintro ⟨elements, hlists, rfl⟩
    -- Over the elements: the last one stands alone, all others have a comma behind them.
    induction elements generalizing tokens with
    | nil => exact absurd rfl hlists.1
    | cons element others ih =>
      have hvalues : element.kind.dataValues? = some element.values :=
        TokenKind.dataValues?_eq_some_iff.2 ⟨element, rfl, rfl⟩
      by_cases hothers : others = []
      · subst hothers
        obtain ⟨t, rfl, hkind⟩ := ListsElements.singleton_iff.1 hlists
        rw [List.flatMap_singleton]
        exact .last (hkind ▸ hvalues)
      · obtain ⟨t, comma, rest, rfl, hkind, hcomma, hrest⟩ :=
          (ListsElements.cons_iff hothers).1 hlists
        rw [List.flatMap_cons]
        exact .more (hkind ▸ hvalues) hcomma (ih hrest)

/-- The list from some token of a line on has values exactly if it is a sequence of numbers and
strings with one comma between each two and nothing behind the last one, and all values are within
the limit. They are then the values of its elements, one behind the other. Where a list has no
values, the check of all numbers of the line or the list itself has a fault. -/
theorem dataList_flattens_elements (limit : Nat) (l : Line) (start : Nat) :
    (∀ values, (dataList limit l.finish (l.tokens.drop start)).1 = some values ↔
      ∃ elements, ListsElements (l.tokens.drop start) elements ∧
        (∀ element ∈ elements, ∀ v ∈ element.values, v ≤ limit) ∧
        values = elements.flatMap DataElement.values) ∧
      ((dataList limit l.finish (l.tokens.drop start)).1 = none →
        l.rangeFaults ++ (dataList limit l.finish (l.tokens.drop start)).2 ≠ []) := by
  constructor
  · intro values
    rw [dataList_eq_some_iff, dataTokens_iff_listsElements]
    constructor
    · rintro ⟨⟨elements, hlists, rfl⟩, hfits⟩
      refine ⟨elements, hlists, ?_, rfl⟩
      intro element helement v hv
      exact hfits v (List.mem_flatMap.2 ⟨element, helement, hv⟩)
    · rintro ⟨elements, hlists, hfits, rfl⟩
      refine ⟨⟨elements, hlists, rfl⟩, ?_⟩
      intro v hv
      obtain ⟨element, helement, hv⟩ := List.mem_flatMap.1 hv
      exact hfits element helement v hv
  · intro hnone hfaults
    obtain ⟨hrange, hlist⟩ := List.append_eq_nil_iff.1 hfaults
    -- Without any fault the list would have been read.
    obtain ⟨values, hvalues⟩ := exists_dataList_eq_some hlist fun t ht =>
      Line.rangeFaults_eq_nil_iff.1 hrange t (List.mem_of_mem_drop ht)
    rw [hnone] at hvalues
    cases hvalues

/-- `.byte "AB", 67`. -/
def textAndNumber : Line where
  row := 1
  tokens := [⟨.directive .bytes, "byte", ⟨1, 1⟩⟩, ⟨.string "AB", "AB", ⟨1, 7⟩⟩,
    ⟨.comma, ",", ⟨1, 11⟩⟩, ⟨.number 67, "67", ⟨1, 13⟩⟩]
  finish := ⟨1, 15⟩

/-- `.byte 1, 70000`. -/
def beyondWords : Line where
  row := 1
  tokens := [⟨.directive .bytes, "byte", ⟨1, 1⟩⟩, ⟨.number 1, "1", ⟨1, 7⟩⟩,
    ⟨.comma, ",", ⟨1, 8⟩⟩, ⟨.number 70000, "70000", ⟨1, 10⟩⟩]
  finish := ⟨1, 15⟩

/-- A string and a number are read as three values. The list with a number beyond a word has no
values and no fault of its own, so that the fault is that of the line. -/
theorem dataList_textAndNumber_beyondWords :
    (dataList Numeral.byteLimit textAndNumber.finish (textAndNumber.tokens.drop 1)).1 =
        some [65, 66, 67] ∧
      dataList Numeral.byteLimit beyondWords.finish (beyondWords.tokens.drop 1) = (none, []) ∧
      beyondWords.rangeFaults ≠ [] := by
  have hnone : dataList Numeral.byteLimit beyondWords.finish (beyondWords.tokens.drop 1) =
      (none, []) := by rfl
  refine ⟨?_, hnone, ?_⟩
  · apply ((dataList_flattens_elements Numeral.byteLimit textAndNumber 1).1 _).2
    exact ⟨[.string "AB", .number 67], ⟨by decide, by decide⟩, by decide, by decide⟩
  · have hfaults := (dataList_flattens_elements Numeral.byteLimit beyondWords 1).2
      (congrArg Prod.fst hnone)
    rw [hnone, List.append_nil] at hfaults
    exact hfaults

end Assembler65
