import Assembler65.Statement.Directive

/-!
# Data lists

`DataTokens` is the grammar of data lists with their values: numbers and strings with one comma
between each two. `dataList` reads exactly these lists, as far as all values are within the limit
(`dataList_eq_some_iff`), and what it does not read is a fault of the list or has a number beyond a
word (`exists_dataList_eq_some`).
-/

set_option autoImplicit false

namespace Assembler65

/-- A data list with its values, the values of its elements one behind the other. -/
inductive DataTokens : List Token → List Nat → Prop
  | last {t : Token} {values : List Nat} (hvalues : t.kind.dataValues? = some values) :
      DataTokens [t] values
  | more {t comma : Token} {rest : List Token} {values others : List Nat}
      (hvalues : t.kind.dataValues? = some values) (hcomma : comma.kind = .comma)
      (hrest : DataTokens rest others) :
      DataTokens (t :: comma :: rest) (values ++ others)

/-! ## One element -/

/-- An element whose values are all within the limit has no fault. -/
theorem Token.dataFaults_eq_nil {limit : Nat} {t : Token} {values : List Nat}
    (hvalues : t.kind.dataValues? = some values) (hfits : ∀ v ∈ values, v ≤ limit) :
    t.dataFaults limit = [] := by
  rw [dataFaults]
  cases hkind : t.kind with
  | number n =>
    rw [hkind, TokenKind.dataValues?, Option.some.injEq] at hvalues
    have hn : n ≤ limit := hfits n (by simp [← hvalues])
    simp [Nat.not_lt.2 hn]
  | string text =>
    rw [hkind, TokenKind.dataValues?, Option.some.injEq] at hvalues
    simp only [List.map_eq_nil_iff, List.filter_eq_nil_iff, decide_eq_true_eq]
    intro c hc
    have hcode := hfits c.toNat (by rw [← hvalues]; exact List.mem_map_of_mem hc)
    omega
  | _ => rfl

/-- Only a number beyond a word is above the limit and no fault here. -/
theorem Token.values_le_of_dataFaults {limit : Nat} {t : Token} {values : List Nat}
    (hvalues : t.kind.dataValues? = some values) (hfaults : t.dataFaults limit = [])
    (hrange : ∀ n, t.kind = .number n → n ≤ Numeral.wordLimit) : ∀ v ∈ values, v ≤ limit := by
  intro v hv
  rw [dataFaults] at hfaults
  cases hkind : t.kind with
  | number n =>
    rw [hkind, TokenKind.dataValues?, Option.some.injEq] at hvalues
    rw [← hvalues, List.mem_singleton] at hv
    -- The limit of bytes is checked here only for numbers that fit into a word.
    have hn := hrange n hkind
    simp only [hkind, gt_iff_lt, Bool.and_eq_true, decide_eq_true_eq, ite_eq_right_iff,
      List.cons_ne_nil, imp_false, not_and] at hfaults
    omega
  | string text =>
    rw [hkind, TokenKind.dataValues?, Option.some.injEq] at hvalues
    rw [← hvalues] at hv
    obtain ⟨c, hc, rfl⟩ := List.mem_map.1 hv
    simp only [hkind, List.map_eq_nil_iff, List.filter_eq_nil_iff, gt_iff_lt,
      decide_eq_true_eq] at hfaults
    have hcode := hfaults c hc
    omega
  | _ =>
    rw [hkind] at hvalues
    cases hvalues

/-! ## The whole list -/

theorem fitting_eq_some_iff {limit : Nat} {own values : List Nat} :
    (if own.all (· ≤ limit) then some own else none) = some values ↔
      own = values ∧ ∀ v ∈ own, v ≤ limit := by
  rw [Option.ite_none_right_eq_some, and_comm]
  simp

/-- The values read are those of a data list, all of them within the limit. -/
theorem dataTokens_of_dataList {limit : Nat} {finish : Position} {tokens : List Token}
    {values : List Nat} (h : (dataList limit finish tokens).1 = some values) :
    DataTokens tokens values ∧ ∀ v ∈ values, v ≤ limit := by
  fun_induction dataList limit finish tokens generalizing values with
  | case1 => cases h
  | case2 t rest hvalues => cases h
  | case3 t own hown =>
    obtain ⟨rfl, hfits⟩ := fitting_eq_some_iff.1 h
    exact ⟨.last hown, hfits⟩
  | case4 t own hown _ _ text pos rest others more hrest =>
    rename_i ih
    obtain ⟨own', hfitting, h⟩ := Option.bind_eq_some_iff.1 h
    obtain ⟨values', rfl, rfl⟩ := Option.map_eq_some_iff.1 h
    obtain ⟨rfl, hfits⟩ := fitting_eq_some_iff.1 hfitting
    obtain ⟨htokens, hothers⟩ := ih (by rw [hrest])
    refine ⟨.more hown rfl htokens, ?_⟩
    intro v hv
    rcases List.mem_append.1 hv with hv | hv
    · exact hfits v hv
    · exact hothers v hv
  | case5 t own hown => cases h

/-- A data list with all values within the limit is read without a fault. -/
theorem dataList_of_dataTokens {limit : Nat} {finish : Position} {tokens : List Token}
    {values : List Nat} (h : DataTokens tokens values) (hfits : ∀ v ∈ values, v ≤ limit) :
    dataList limit finish tokens = (some values, []) := by
  induction h with
  | last hvalues =>
    simp only [dataList, hvalues, fitting_eq_some_iff.2 ⟨rfl, hfits⟩,
      Token.dataFaults_eq_nil hvalues hfits]
  | @more t comma rest own others hvalues hcomma _ ih =>
    have hown : ∀ v ∈ own, v ≤ limit := fun v hv => hfits v (List.mem_append_left _ hv)
    have hrest := ih fun v hv => hfits v (List.mem_append_right _ hv)
    obtain ⟨kind, text, pos⟩ := comma
    cases hcomma
    simp only [dataList, hvalues, hrest, fitting_eq_some_iff.2 ⟨rfl, hown⟩,
      Token.dataFaults_eq_nil hvalues hown, Option.bind_some, Option.map_some, List.nil_append]

theorem dataList_eq_some_iff {limit : Nat} {finish : Position} {tokens : List Token}
    {values : List Nat} :
    (dataList limit finish tokens).1 = some values ↔
      DataTokens tokens values ∧ ∀ v ∈ values, v ≤ limit := by
  constructor
  · exact dataTokens_of_dataList
  · rintro ⟨htokens, hfits⟩
    rw [dataList_of_dataTokens htokens hfits]

/-- Without a fault and without a number beyond a word, the values of a list are read. -/
theorem exists_dataList_eq_some {limit : Nat} {finish : Position} {tokens : List Token}
    (hfaults : (dataList limit finish tokens).2 = [])
    (hrange : ∀ t ∈ tokens, ∀ n, t.kind = .number n → n ≤ Numeral.wordLimit) :
    ∃ values, (dataList limit finish tokens).1 = some values := by
  fun_induction dataList limit finish tokens with
  | case1 => cases hfaults
  | case2 t rest hvalues => cases hfaults
  | case3 t own hown =>
    have hfits := Token.values_le_of_dataFaults hown hfaults (hrange t List.mem_cons_self)
    exact ⟨own, fitting_eq_some_iff.2 ⟨rfl, hfits⟩⟩
  | case4 t own hown _ _ text pos rest others more hrest ih =>
    obtain ⟨htoken, hmore⟩ := List.append_eq_nil_iff.1 hfaults
    have hfits := Token.values_le_of_dataFaults hown htoken (hrange t List.mem_cons_self)
    rw [hrest] at ih
    obtain ⟨values, rfl⟩ := ih hmore fun t' ht' =>
      hrange t' (List.mem_cons_of_mem _ (List.mem_cons_of_mem _ ht'))
    refine ⟨own ++ values, Option.bind_eq_some_iff.2 ⟨own, ?_, rfl⟩⟩
    exact fitting_eq_some_iff.2 ⟨rfl, hfits⟩
  | case5 t own hown =>
    -- An element without a comma behind it, and more tokens.
    obtain ⟨-, hexpected⟩ := List.append_eq_nil_iff.1 hfaults
    cases hexpected

end Assembler65
