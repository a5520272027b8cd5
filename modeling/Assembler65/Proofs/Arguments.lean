import Assembler65.CommandLine.Request
import Mathlib.Data.List.Basic
import Mathlib.Tactic.MkIffOfInductiveProp

/-!
# The arguments that are accepted

`Written` gives the forms of single arguments, and `Asks` what a list of arguments asks for:
inputs, options with their values, and behind a mark inputs only. `Describes` says which request is
asked for, each thing at most once and the input for certain. Main statement:
`parse?_eq_some_iff`, the arguments that are read as a request are those that describe it.
-/

set_option autoImplicit false

namespace Assembler65.Request

/-- The long name of an option that takes a value. -/
def ValueOption.name : ValueOption → String
  | output => "output"
  | origin => "origin"

/-- An argument that is no option: it starts with no hyphen, or is a lone one. -/
def IsPlain (argument : String) : Prop := argument.toList.head? ≠ some '-' ∨ argument = "-"

/-- A hyphen and flags that ask for a listing. -/
def flags (n : Nat) : String := "-" ++ String.ofList (List.replicate n 'd')

/-- The forms of an argument. An option has its value behind an equal sign or awaits it, and a short
one may have it without the sign. -/
inductive Written : Argument → String → Prop
  | input {argument : String} (hplain : IsPlain argument) : Written .input argument
  | separator : Written .separator "--"
  | dump : Written (.complete 1 none) "--dump"
  | long (option : ValueOption) : Written (.awaiting 0 option) ("--" ++ option.name)
  | longValue (option : ValueOption) (value : String) :
      Written (.complete 0 (some (option, value))) ("--" ++ option.name ++ "=" ++ value)
  | flags (n : Nat) : Written (.complete (n + 1) none) (flags (n + 1))
  | short (n : Nat) : Written (.awaiting n .output) (Request.flags n ++ "o")
  | shortValue (n : Nat) (path : String) :
      Written (.complete n (some (.output, path))) (Request.flags n ++ "o=" ++ path)
  | shortJoined (n : Nat) {path : String} (hne : path ≠ "")
      (hequal : path.toList.head? ≠ some '=') :
      Written (.complete n (some (.output, path))) (Request.flags n ++ "o" ++ path)

/-- One thing that arguments ask for. -/
inductive Setting where
  | input (path : String)
  | value (option : ValueOption) (text : String)
  | listing
  deriving DecidableEq, Repr

namespace Setting

def input? : Setting → Option String
  | input path => some path
  | _ => none

def value? : ValueOption → Setting → Option String
  | .output, value .output text => some text
  | .origin, value .origin text => some text
  | _, _ => none

/-- What an argument with its value asks for. -/
def ofArgument (listings : Nat) (value : Option (ValueOption × String)) : List Setting :=
  List.replicate listings listing ++ value.toList.map fun v => .value v.1 v.2

end Setting

/-- Arguments and what they ask for, in order. A value that an option awaits is plain. -/
inductive Asks : List String → List Setting → Prop
  | nil : Asks [] []
  | input {argument : String} {rest : List String} {settings : List Setting}
      (hplain : IsPlain argument) (hrest : Asks rest settings) :
      Asks (argument :: rest) (.input argument :: settings)
  | separator (inputs : List String) : Asks ("--" :: inputs) (inputs.map .input)
  | complete {argument : String} {n : Nat} {value : Option (ValueOption × String)}
      {rest : List String} {settings : List Setting}
      (hwritten : Written (.complete n value) argument) (hrest : Asks rest settings) :
      Asks (argument :: rest) (Setting.ofArgument n value ++ settings)
  | awaiting {argument value : String} {n : Nat} {option : ValueOption} {rest : List String}
      {settings : List Setting} (hwritten : Written (.awaiting n option) argument)
      (hplain : IsPlain value) (hrest : Asks rest settings) :
      Asks (argument :: value :: rest) (Setting.ofArgument n (some (option, value)) ++ settings)

/-- What is asked for makes up a request: one input, and all else at most once. -/
structure Describes (settings : List Setting) (r : Request) : Prop where
  input : settings.filterMap Setting.input? = [r.input]
  output : settings.filterMap (Setting.value? .output) = r.output.toList
  origin : (settings.filterMap (Setting.value? .origin) = [] ∧ r.origin = defaultOrigin) ∨
    ∃ numeral, settings.filterMap (Setting.value? .origin) = [numeral] ∧
      originOfText numeral = .ok r.origin
  listing : settings.count .listing = r.listing.toNat

/-! ## Single arguments -/

section Classify

variable {argument : String}

theorem toList_flags_append (n : Nat) (s : String) :
    (flags n ++ s).toList = '-' :: (List.replicate n 'd' ++ s.toList) := by
  simp [flags]

theorem classify_of_isPlain (h : IsPlain argument) : classify argument = .input := by
  rcases h with hhead | rfl
  · rw [classify]
    split
    case h_1 hlist => rw [hlist] at hhead; exact absurd rfl hhead
    case h_2 hlist => rw [hlist] at hhead; exact absurd rfl hhead
    case h_3 hlist => rw [hlist] at hhead; exact absurd rfl hhead
    case h_4 => rfl
  · rfl

theorem classify_of_short {c : Char} {rest : List Char} (h : argument.toList = '-' :: c :: rest)
    (hc : c ≠ '-') : classify argument = shortOptions 0 (c :: rest) := by
  rw [classify, h]
  split
  case h_1 heq => cases heq; exact absurd rfl hc
  case h_2 heq => cases heq; exact absurd rfl hc
  case h_3 heq => cases heq; rfl
  case h_4 hnone => exact absurd rfl (hnone c rest)

/-- The part of a long option that holds its value. -/
def assignment : Option (List Char) → List Char
  | none => []
  | some value => '=' :: value

theorem classify_of_long {name : List Char} {value : Option (List Char)}
    (h : argument.toList = '-' :: '-' :: (name ++ assignment value))
    (hne : name ++ assignment value ≠ []) (hequal : '=' ∉ name) :
    classify argument = longOption name value := by
  have hname : ∀ c ∈ name, (c != '=') = true := by
    intro c hc
    exact bne_iff_ne.2 fun heq => hequal (heq ▸ hc)
  rw [classify, h]
  split
  case h_1 heq => exact absurd (List.cons.inj (List.cons.inj heq).2).2 hne
  case h_2 heq =>
    cases heq
    rw [List.takeWhile_append_of_pos hname, List.dropWhile_append_of_pos hname]
    cases value with
    | none => simp [assignment]
    | some value => simp [assignment]
  case h_3 hlong heq =>
    cases heq
    exact (hlong rfl).elim
  case h_4 hlong _ => exact absurd rfl (hlong _)

theorem exists_assignment (cs : List Char) :
    ∃ name value, '=' ∉ name ∧ cs = name ++ assignment value := by
  induction cs with
  | nil => exact ⟨[], none, List.not_mem_nil, rfl⟩
  | cons c rest ih =>
    by_cases hc : c = '='
    · exact ⟨[], some rest, List.not_mem_nil, by rw [hc]; rfl⟩
    · obtain ⟨name, value, hequal, rfl⟩ := ih
      refine ⟨c :: name, value, ?_, rfl⟩
      rw [List.mem_cons, not_or]
      exact ⟨fun heq => hc heq.symm, hequal⟩

end Classify

theorem shortOptions_replicate (k n : Nat) (cs : List Char) :
    shortOptions k (List.replicate n 'd' ++ cs) = shortOptions (k + n) cs := by
  induction n generalizing k with
  | zero => rfl
  | succ n ih =>
    rw [List.replicate_succ, List.cons_append, shortOptions, ih, Nat.add_right_comm, Nat.add_assoc]

theorem exists_flags (cs : List Char) :
    ∃ n rest, cs = List.replicate n 'd' ++ rest ∧ rest.head? ≠ some 'd' := by
  induction cs with
  | nil => exact ⟨0, [], rfl, nofun⟩
  | cons c cs ih =>
    by_cases hc : c = 'd'
    · obtain ⟨n, rest, heq, hhead⟩ := ih
      exact ⟨n + 1, rest, by rw [hc, heq]; rfl, hhead⟩
    · exact ⟨0, c :: cs, rfl, by simpa using hc⟩

theorem shortOptions_joined {path : String} (hne : path ≠ "")
    (hequal : path.toList.head? ≠ some '=') (n : Nat) :
    shortOptions n ('o' :: path.toList) = .complete n (some (.output, path)) := by
  rw [ne_eq, ← String.toList_eq_nil_iff] at hne
  unfold shortOptions
  split
  case h_1 heq => cases heq
  case h_2 heq => cases heq
  case h_3 heq => exact absurd (List.cons.inj heq).2 hne
  case h_4 heq =>
    rw [(List.cons.inj heq).2] at hequal
    exact absurd rfl hequal
  case h_5 heq =>
    rw [← (List.cons.inj heq).2, String.ofList_toList]
  case h_6 hnone => exact absurd rfl (hnone path.toList)

theorem classify_flags_append {n : Nat} {s : String} (h : 0 < n ∨ ∃ rest, s.toList = 'o' :: rest) :
    classify (flags n ++ s) = shortOptions n s.toList := by
  have hlist := toList_flags_append n s
  have hshort : ∃ c rest, c ≠ '-' ∧ List.replicate n 'd' ++ s.toList = c :: rest := by
    cases n with
    | zero =>
      obtain ⟨rest, hs⟩ := h.resolve_left (Nat.lt_irrefl 0)
      exact ⟨'o', rest, by decide, hs⟩
    | succ n => exact ⟨'d', List.replicate n 'd' ++ s.toList, by decide, rfl⟩
  obtain ⟨c, rest, hc, heq⟩ := hshort
  rw [heq] at hlist
  rw [classify_of_short hlist hc, ← heq, shortOptions_replicate, Nat.zero_add]

/-- Every form is recognized. -/
theorem Written.classify_eq {kind : Argument} {argument : String} (h : Written kind argument) :
    classify argument = kind := by
  cases h with
  | input hplain => exact classify_of_isPlain hplain
  | separator => rfl
  | dump => rfl
  | long option =>
    cases option with
    | output => rfl
    | origin => rfl
  | longValue option value =>
    have hlist : ("--" ++ option.name ++ "=" ++ value).toList =
        '-' :: '-' :: (option.name.toList ++ assignment (some value.toList)) := by
      simp [assignment]
    have hequal : '=' ∉ option.name.toList := by
      cases option with
      | output => decide
      | origin => decide
    rw [classify_of_long hlist (by simp [assignment]) hequal]
    cases option with
    | output => simp [longOption, ValueOption.name]
    | origin => simp [longOption, ValueOption.name]
  | flags n =>
    have hflags := classify_flags_append (s := "") (.inl (Nat.succ_pos n))
    rw [String.append_empty] at hflags
    exact hflags
  | short n => exact classify_flags_append (.inr ⟨[], rfl⟩)
  | shortValue n path =>
    have hlist : ("o=" ++ path).toList = 'o' :: '=' :: path.toList := by simp
    rw [String.append_assoc, classify_flags_append (.inr ⟨_, hlist⟩), hlist, shortOptions,
      String.ofList_toList]
  | @shortJoined n path hne hequal =>
    have hlist : ("o" ++ path).toList = 'o' :: path.toList := by simp
    rw [String.append_assoc, classify_flags_append (.inr ⟨_, hlist⟩), hlist]
    exact shortOptions_joined hne hequal n

theorem written_longOption (name : List Char) (value : Option (List Char)) :
    longOption name value = .unknown ∨
      Written (longOption name value) ("--" ++ String.ofList (name ++ assignment value)) := by
  have hvalue : ∀ v, String.ofList (name ++ assignment (some v)) =
      String.ofList name ++ "=" ++ String.ofList v := by
    intro v
    apply String.toList_inj.1
    simp [assignment]
  unfold longOption
  split
  case h_1 heq =>
    rw [assignment, List.append_nil, heq]
    exact .inr .dump
  case h_2 heq =>
    rw [assignment, List.append_nil, heq]
    exact .inr (.long .output)
  case h_3 heq =>
    rw [assignment, List.append_nil, heq]
    exact .inr (.long .origin)
  case h_4 v heq =>
    rw [hvalue, heq]
    exact .inr (.longValue .output (String.ofList v))
  case h_5 v heq =>
    rw [hvalue, heq]
    exact .inr (.longValue .origin (String.ofList v))
  case h_6 => exact .inl rfl

theorem written_shortOptions {n : Nat} {rest : List Char} (hflag : rest.head? ≠ some 'd')
    (hsome : 0 < n ∨ rest ≠ []) :
    shortOptions n rest = .unknown ∨
      Written (shortOptions n rest) (flags n ++ String.ofList rest) := by
  unfold shortOptions
  split
  case h_1 =>
    obtain ⟨m, rfl⟩ := Nat.exists_eq_add_one.2 (hsome.resolve_right fun h => h rfl)
    rw [String.ofList_nil, String.append_empty]
    exact .inr (.flags m)
  case h_2 => exact absurd rfl hflag
  case h_3 => exact .inr (.short n)
  case h_4 value =>
    have hlist : String.ofList ('o' :: '=' :: value) = "o=" ++ String.ofList value := by
      apply String.toList_inj.1
      simp
    rw [hlist, ← String.append_assoc]
    exact .inr (.shortValue n _)
  case h_5 value hne hequal =>
    have hlist : String.ofList ('o' :: value) = "o" ++ String.ofList value := by
      apply String.toList_inj.1
      simp
    rw [hlist, ← String.append_assoc]
    refine .inr (.shortJoined n ?_ ?_)
    · intro hempty
      rw [← String.toList_eq_nil_iff, String.toList_ofList] at hempty
      exact hne hempty
    · rw [String.toList_ofList]
      intro hhead
      obtain ⟨more, rfl⟩ := List.head?_eq_some_iff.1 hhead
      exact hequal more rfl
  case h_6 => exact .inl rfl

/-- What is recognized has one of the forms. -/
theorem written_classify (argument : String) :
    classify argument = .unknown ∨ Written (classify argument) argument := by
  have hplain : IsPlain argument → Written (classify argument) argument := by
    intro hplain
    rw [classify_of_isPlain hplain]
    exact .input hplain
  cases hlist : argument.toList with
  | nil => exact .inr (hplain (.inl (by rw [hlist]; nofun)))
  | cons first rest =>
    by_cases hfirst : first = '-'
    case neg => exact .inr (hplain (.inl (by rw [hlist]; simpa using hfirst)))
    subst hfirst
    cases rest with
    | nil => exact .inr (hplain (.inr (String.toList_inj.1 hlist)))
    | cons c rest =>
      by_cases hc : c = '-'
      · -- Two hyphens: a name follows, and a value if there is an equal sign.
        subst hc
        have hargument : argument = "--" ++ String.ofList rest := by
          apply String.toList_inj.1
          simp [hlist]
        cases rest with
        | nil =>
          rw [hargument]
          exact .inr .separator
        | cons d rest =>
          obtain ⟨name, value, hequal, heq⟩ := exists_assignment (d :: rest)
          rw [heq] at hlist hargument
          rw [classify_of_long hlist (heq ▸ List.cons_ne_nil d rest) hequal, hargument]
          exact written_longOption name value
      · -- One hyphen: the flags come first, and what follows them settles the form.
        obtain ⟨n, more, heq, hflag⟩ := exists_flags (c :: rest)
        have hargument : argument = flags n ++ String.ofList more := by
          apply String.toList_inj.1
          rw [hlist, heq, toList_flags_append, String.toList_ofList]
        rw [classify_of_short hlist hc, heq, shortOptions_replicate, Nat.zero_add, hargument]
        apply written_shortOptions hflag
        cases n with
        | zero =>
          rw [List.replicate_zero, List.nil_append] at heq
          exact .inr (heq ▸ List.cons_ne_nil c rest)
        | succ n => exact .inl (Nat.succ_pos n)

theorem written_of_classify {kind : Argument} {argument : String}
    (h : classify argument = kind) (hknown : kind ≠ .unknown) : Written kind argument := by
  have hwritten := written_classify argument
  rw [h] at hwritten
  exact hwritten.resolve_left hknown

theorem isPlain_of_classify {argument : String} (h : classify argument = .input) :
    IsPlain argument := by
  cases written_of_classify h nofun with
  | input hplain => exact hplain

/-! ## Lists of arguments -/

namespace Draft

/-- Enter one thing that is asked for, if it may be. -/
def enter (d : Draft) : Setting → Option Draft
  | .input path => d.setInput path
  | .value option text => d.setValue option text
  | .listing => d.setListing

end Draft

theorem setListings_eq (d : Draft) (n : Nat) :
    setListings d n = (List.replicate n Setting.listing).foldlM Draft.enter d := by
  induction n generalizing d with
  | zero => rfl
  | succ n ih =>
    rw [setListings, List.replicate_succ, List.foldlM_cons]
    apply Option.bind_congr
    intro e _
    exact ih e

theorem foldlM_ofArgument (d : Draft) (n : Nat) (value : Option (ValueOption × String)) :
    (Setting.ofArgument n value).foldlM Draft.enter d =
      (setListings d n).bind fun d => value.elim (some d) fun v => d.setValue v.1 v.2 := by
  rw [Setting.ofArgument, List.foldlM_append, setListings_eq]
  apply Option.bind_congr
  intro e _
  cases value with
  | none => rfl
  | some v => simp [Draft.enter]

section Read

variable {argument : String} {n : Nat}

theorem read_of_complete {value : Option (ValueOption × String)}
    (h : classify argument = .complete n value) (d : Draft) (rest : List String) :
    read d (argument :: rest) =
      ((Setting.ofArgument n value).foldlM Draft.enter d).bind fun d => read d rest := by
  rw [foldlM_ofArgument, read, h]
  cases value with
  | none => simp
  | some v => rfl

theorem read_of_awaiting {option : ValueOption} (h : classify argument = .awaiting n option)
    {value : String} (hvalue : classify value = .input) (d : Draft) (rest : List String) :
    read d (argument :: value :: rest) =
      ((Setting.ofArgument n (some (option, value))).foldlM Draft.enter d).bind
        fun d => read d rest := by
  rw [foldlM_ofArgument, read, h]
  simp [hvalue]

/-- What has been read asks for what was entered. -/
theorem exists_asks_of_read {d e : Draft} {arguments : List String}
    (h : read d arguments = some e) :
    ∃ settings, Asks arguments settings ∧ settings.foldlM Draft.enter d = some e := by
  -- An option may take two arguments, so the recursion is on their number.
  match arguments with
  | [] => exact ⟨[], .nil, h⟩
  | argument :: rest =>
    cases hkind : classify argument with
    | unknown =>
      rw [read, hkind] at h
      cases h
    | input =>
      rw [read, hkind] at h
      obtain ⟨d', hinput, h⟩ := Option.bind_eq_some_iff.1 h
      obtain ⟨settings, hasks, henter⟩ := exists_asks_of_read h
      refine ⟨_, .input (isPlain_of_classify hkind) hasks, ?_⟩
      rw [List.foldlM_cons]
      exact Option.bind_eq_some_iff.2 ⟨d', hinput, henter⟩
    | separator =>
      cases written_of_classify hkind nofun
      refine ⟨_, .separator rest, ?_⟩
      rw [List.foldlM_map]
      rw [read, hkind] at h
      exact h
    | complete n value =>
      rw [read_of_complete hkind] at h
      obtain ⟨d', hown, h⟩ := Option.bind_eq_some_iff.1 h
      obtain ⟨settings, hasks, henter⟩ := exists_asks_of_read h
      refine ⟨_, .complete (written_of_classify hkind nofun) hasks, ?_⟩
      rw [List.foldlM_append]
      exact Option.bind_eq_some_iff.2 ⟨d', hown, henter⟩
    | awaiting n option =>
      cases rest with
      | nil =>
        rw [read, hkind] at h
        cases h
      | cons value rest =>
        -- An option as the next argument is no value.
        have hvalue : classify value = .input := by
          rw [read, hkind] at h
          exact eq_of_beq (Option.ite_none_right_eq_some.1 h).1
        rw [read_of_awaiting hkind hvalue] at h
        obtain ⟨d', hown, h⟩ := Option.bind_eq_some_iff.1 h
        obtain ⟨settings, hasks, henter⟩ := exists_asks_of_read h
        refine ⟨_, .awaiting (written_of_classify hkind nofun) (isPlain_of_classify hvalue) hasks,
          ?_⟩
        rw [List.foldlM_append]
        exact Option.bind_eq_some_iff.2 ⟨d', hown, henter⟩
termination_by arguments.length

end Read

/-- Reading arguments enters what they ask for, in order. -/
theorem read_eq_some_iff {d e : Draft} {arguments : List String} :
    read d arguments = some e ↔
      ∃ settings, Asks arguments settings ∧ settings.foldlM Draft.enter d = some e := by
  refine ⟨exists_asks_of_read, ?_⟩
  rintro ⟨settings, hasks, henter⟩
  induction hasks generalizing d with
  | nil => exact henter
  | input hplain hrest ih =>
    rw [read, classify_of_isPlain hplain]
    rw [List.foldlM_cons] at henter
    obtain ⟨d', hinput, henter⟩ := Option.bind_eq_some_iff.1 henter
    exact Option.bind_eq_some_iff.2 ⟨d', hinput, ih henter⟩
  | separator inputs =>
    rw [List.foldlM_map] at henter
    rw [read]
    exact henter
  | complete hwritten hrest ih =>
    rw [List.foldlM_append] at henter
    obtain ⟨d', hown, henter⟩ := Option.bind_eq_some_iff.1 henter
    rw [read_of_complete hwritten.classify_eq]
    exact Option.bind_eq_some_iff.2 ⟨d', hown, ih henter⟩
  | awaiting hwritten hplain hrest ih =>
    rw [List.foldlM_append] at henter
    obtain ⟨d', hown, henter⟩ := Option.bind_eq_some_iff.1 henter
    rw [read_of_awaiting hwritten.classify_eq (classify_of_isPlain hplain)]
    exact Option.bind_eq_some_iff.2 ⟨d', hown, ih henter⟩

/-! ## Requests -/

/-- A draft after some things were entered, each at most once in all. -/
@[mk_iff]
structure Draft.Extends (d : Draft) (settings : List Setting) (e : Draft) : Prop where
  input : e.input.toList = d.input.toList ++ settings.filterMap Setting.input?
  output : e.output.toList = d.output.toList ++ settings.filterMap (Setting.value? .output)
  origin : e.origin.toList.map Except.ok =
    d.origin.toList.map Except.ok ++ (settings.filterMap (Setting.value? .origin)).map originOfText
  listing : e.listing.toNat = d.listing.toNat + settings.count .listing

/-- A value can be put in a place that is free. -/
theorem toList_eq_append_cons_iff {α : Type} {before after : Option α} {value : α}
    {more : List α} :
    after.toList = before.toList ++ value :: more ↔
      before = none ∧ after.toList = (some value).toList ++ more := by
  cases before with
  | none => simp
  | some other => cases after <;> simp

theorem toList_eq_toList_iff {α : Type} {before after : Option α} :
    after.toList = before.toList ↔ before = after := by
  cases before <;> cases after <;> simp [eq_comm]

namespace Draft

variable {d e : Draft} {rest : List Setting}

theorem extends_nil_iff : d.Extends [] e ↔ d = e := by
  obtain ⟨input, output, origin, listing⟩ := d
  obtain ⟨input', output', origin', listing'⟩ := e
  have hlisting : listing'.toNat = listing.toNat ↔ listing = listing' := by
    cases listing <;> cases listing' <;> decide
  have horigin : (origin'.toList.map Except.ok : List (Except Fault UInt16)) =
      origin.toList.map Except.ok ↔ origin = origin' := by
    cases origin <;> cases origin' <;> simp [eq_comm]
  simp [extends_iff, toList_eq_toList_iff, horigin, hlisting]

theorem extends_input_iff {path : String} :
    d.Extends (.input path :: rest) e ↔
      d.input = none ∧ Extends { d with input := some path } rest e := by
  simp [extends_iff, List.filterMap_cons, Setting.input?, Setting.value?,
    toList_eq_append_cons_iff, and_assoc]

theorem extends_output_iff {path : String} :
    d.Extends (.value .output path :: rest) e ↔
      d.output = none ∧ Extends { d with output := some path } rest e := by
  simp [extends_iff, List.filterMap_cons, Setting.input?, Setting.value?,
    toList_eq_append_cons_iff, and_assoc, and_left_comm]

theorem extends_origin_iff {numeral : String} :
    d.Extends (.value .origin numeral :: rest) e ↔
      d.origin = none ∧ ∃ origin, originOfText numeral = .ok origin ∧
        Extends { d with origin := some origin } rest e := by
  have horigin : ∀ more : List (Except Fault UInt16),
      e.origin.toList.map Except.ok =
          d.origin.toList.map Except.ok ++ originOfText numeral :: more ↔
        d.origin = none ∧ ∃ origin, originOfText numeral = .ok origin ∧
          e.origin.toList.map Except.ok = Except.ok origin :: more := by
    intro more
    cases d.origin <;> cases e.origin <;> simp [eq_comm]
  have hcount : (Setting.value .origin numeral :: rest).count .listing = rest.count .listing := by
    simp
  constructor
  · intro h
    obtain ⟨hfree, origin, hread, heq⟩ := (horigin _).1 h.origin
    exact ⟨hfree, origin, hread, h.input, h.output, heq, hcount ▸ h.listing⟩
  · rintro ⟨hfree, origin, hread, h⟩
    exact ⟨h.input, h.output, (horigin _).2 ⟨hfree, origin, hread, h.origin⟩,
      hcount.symm ▸ h.listing⟩

theorem extends_listing_iff :
    d.Extends (.listing :: rest) e ↔
      d.listing = false ∧ Extends { d with listing := true } rest e := by
  have hlisting : e.listing.toNat = d.listing.toNat + (rest.count .listing + 1) ↔
      d.listing = false ∧ e.listing.toNat = true.toNat + rest.count .listing := by
    cases d.listing <;> cases e.listing <;> simp; omega
  simp [extends_iff, List.filterMap_cons, Setting.input?, Setting.value?, hlisting, and_left_comm]

end Draft

theorem Draft.foldlM_enter_eq_some_iff {d e : Draft} {settings : List Setting} :
    settings.foldlM enter d = some e ↔ d.Extends settings e := by
  induction settings generalizing d with
  | nil => exact Option.some_inj.trans extends_nil_iff.symm
  | cons setting rest ih =>
    rw [List.foldlM_cons]
    cases setting with
    | input path =>
      rw [extends_input_iff, ← ih]
      cases hinput : d.input <;> simp [enter, setInput, hinput]
    | value option text =>
      cases option with
      | output =>
        rw [extends_output_iff, ← ih]
        cases houtput : d.output <;> simp [enter, setValue, houtput]
      | origin =>
        simp only [extends_origin_iff, ← ih]
        cases horigin : d.origin <;> cases hread : originOfText text <;>
          simp [enter, setValue, horigin, hread]
    | listing =>
      rw [extends_listing_iff, ← ih]
      cases hlisting : d.listing <;> simp [enter, setListing, hlisting]

theorem exists_extends_iff_describes {settings : List Setting} {r : Request} :
    (∃ d, Draft.Extends {} settings d ∧ d.finish = some r) ↔ Describes settings r := by
  constructor
  · rintro ⟨⟨input, output, origin, listing⟩, hextends, hfinish⟩
    obtain ⟨path, rfl, rfl⟩ := Option.map_eq_some_iff.1 hfinish
    refine ⟨hextends.input.symm, hextends.output.symm, ?_, ?_⟩
    · -- An origin that was entered is the value of the only numeral.
      have horigin := hextends.origin
      cases origin with
      | none =>
        exact .inl ⟨List.map_eq_nil_iff.1 horigin.symm, rfl⟩
      | some origin =>
        obtain ⟨numeral, hnumerals, hread⟩ := List.map_eq_singleton_iff.1 horigin.symm
        exact .inr ⟨numeral, hnumerals, hread⟩
    · exact (hextends.listing.trans (Nat.zero_add _)).symm
  · rintro ⟨hinput, houtput, horigin, hlisting⟩
    rcases horigin with ⟨hnone, hdefault⟩ | ⟨numeral, hnumeral, hread⟩
    · refine ⟨⟨some r.input, r.output, none, r.listing⟩, ⟨hinput.symm, houtput.symm, ?_, ?_⟩, ?_⟩
      · rw [hnone]
        rfl
      · rw [hlisting]
        exact (Nat.zero_add _).symm
      · exact congrArg some (by rw [Option.getD_none, ← hdefault])
    · refine ⟨⟨some r.input, r.output, some r.origin, r.listing⟩,
        ⟨hinput.symm, houtput.symm, ?_, ?_⟩, rfl⟩
      · rw [hnumeral, List.map_singleton, hread]
        rfl
      · rw [hlisting]
        exact (Nat.zero_add _).symm

/-- The arguments that are read as a request are those that describe it. -/
theorem parse?_eq_some_iff {arguments : List String} {r : Request} :
    parse? arguments = some r ↔
      ∃ settings, Asks arguments settings ∧ Describes settings r := by
  simp only [parse?, Option.bind_eq_some_iff, read_eq_some_iff, Draft.foldlM_enter_eq_some_iff,
    ← exists_extends_iff_describes]
  constructor
  · rintro ⟨d, ⟨settings, hasks, hextends⟩, hfinish⟩
    exact ⟨settings, hasks, d, hextends, hfinish⟩
  · rintro ⟨settings, hasks, d, hextends, hfinish⟩
    exact ⟨d, ⟨settings, hasks, hextends⟩, hfinish⟩

end Assembler65.Request
