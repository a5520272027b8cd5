import Assembler65.Proofs.CharacterClasses
import Mathlib.Data.List.TakeWhile

/-!
# The forms of lexemes

`LexemeForm` says which texts a kind of lexeme has, and `LexemeKind.endsBefore` what may stand
behind it. `Lexeme.read?` reads a lexeme exactly if a row goes on with the spelling of such a text
and may end there (`Lexeme.read?_eq_some_iff`), and scanning a row then goes on behind the spelling
(`Lexeme.scan_spelling_append`).
-/

set_option autoImplicit false

namespace Assembler65

open Text

/-- The texts of a kind of lexeme. -/
inductive LexemeForm : LexemeKind → List Char → Prop
  | mark {c : Char} {kind : LexemeKind} (hmark : LexemeKind.ofMark? c = some kind) :
      LexemeForm kind [c]
  | identifier {c : Char} {rest : List Char} (hstart : Lexeme.startsName c = true)
      (hname : ∀ d ∈ c :: rest, Lexeme.inName d = true) (hletter : ∃ d ∈ c :: rest, d ≠ '_') :
      LexemeForm .identifier (c :: rest)
  | declaration {c : Char} {rest : List Char} (hstart : Lexeme.startsName c = true)
      (hname : ∀ d ∈ c :: rest, Lexeme.inName d = true) (hletter : ∃ d ∈ c :: rest, d ≠ '_') :
      LexemeForm .declaration (c :: rest)
  | directive {name : List Char} (hname : ∀ d ∈ name, Lexeme.inName d = true)
      (hletter : ∃ d ∈ name, d ≠ '_') :
      LexemeForm .directive name
  | octal {digits : List Char} (hdigits : ∀ d ∈ digits, Lexeme.isOctal d = true) :
      LexemeForm .octal ('0' :: digits)
  | decimal {c : Char} {digits : List Char} (hzero : c ≠ '0')
      (hdigits : ∀ d ∈ c :: digits, d.isDigit = true) :
      LexemeForm .decimal (c :: digits)
  | hexadecimal {digits : List Char} (hne : digits ≠ [])
      (hdigits : ∀ d ∈ digits, Lexeme.isHexadecimal d = true) :
      LexemeForm .hexadecimal ('$' :: digits)
  | binary {digits : List Char} (hne : digits ≠ [])
      (hdigits : ∀ d ∈ digits, Lexeme.isBinary d = true) :
      LexemeForm .binary ('%' :: digits)
  | string {text : List Char} (hquote : ∀ d ∈ text, d ≠ '"')
      (hcontent : ∃ d ∈ text, d ≠ ' ' ∧ d ≠ '_') :
      LexemeForm .string text
  | comment (text : List Char) : LexemeForm .comment text

namespace LexemeKind

/-- Whether a lexeme of a kind may end before the rest of a row: a mark anywhere, a comment at the
end of the row only, and all others before a blank, a comment or a closing character. -/
def endsBefore (kind : LexemeKind) (rest : List Char) : Bool :=
  match kind with
  | identifier | hexadecimal | binary | octal | decimal =>
    Lexeme.endsBefore Lexeme.operandClosing rest
  | string => Lexeme.endsBefore [','] rest
  | declaration | directive => Lexeme.endsBefore [] rest
  | comment => rest.isEmpty
  | _ => true

theorem endsBefore_of_ofMark? {c : Char} {kind : LexemeKind} (h : ofMark? c = some kind)
    (rest : List Char) : kind.endsBefore rest = true := by
  unfold ofMark? at h
  split at h <;> cases h <;> rfl

theorem spelling_of_ofMark? {c : Char} {kind : LexemeKind} (h : ofMark? c = some kind)
    (text : List Char) : kind.spelling text = text := by
  unfold ofMark? at h
  split at h <;> cases h <;> rfl

theorem ofMark?_eq_none_of_inName {c : Char} (h : Lexeme.inName c = true) : ofMark? c = none := by
  unfold ofMark?
  split <;> first | rfl | cases h

end LexemeKind

namespace Lexeme

/-! ## Runs of characters -/

theorem inName_of_startsName {c : Char} (h : startsName c = true) : inName c = true := by
  rw [startsName_iff] at h
  rw [inName_iff]
  tauto

theorem inName_of_isDigit {c : Char} (h : c.isDigit = true) : inName c = true :=
  inName_iff.2 (.inr (.inr (.inl (isDigit_iff.1 h))))

theorem isDigit_of_isOctal {c : Char} (h : isOctal c = true) : c.isDigit = true := by
  rw [isOctal_iff] at h
  exact isDigit_iff.2 ⟨h.1, by omega⟩

theorem isDigit_of_isBinary {c : Char} (h : isBinary c = true) : c.isDigit = true := by
  rw [isBinary, Bool.or_eq_true, beq_iff_eq, beq_iff_eq] at h
  rcases h with rfl | rfl
  · rfl
  · rfl

theorem inName_of_isHexadecimal {c : Char} (h : isHexadecimal c = true) : inName c = true := by
  rw [isHexadecimal_iff] at h
  rw [inName_iff]
  omega

/-- No character of a name can end a lexeme. -/
theorem inName_eq_false_of_endsBefore {c : Char} {rest : List Char}
    (h : endsBefore operandClosing (c :: rest) = true) : inName c = false := by
  simp only [endsBefore, operandClosing, List.contains_cons, List.contains_nil, Bool.or_eq_true,
    beq_iff_eq, Bool.or_false] at h
  rcases h with (hblank | rfl) | rfl | rfl
  · rw [isBlank_iff] at hblank
    rw [← Bool.not_eq_true, inName_iff]
    rintro (hcapital | hsmall | hdigit | rfl)
    · omega
    · omega
    · omega
    · revert hblank; decide
  · rfl
  · rfl
  · rfl

theorem endsBefore_operandClosing {rest : List Char} (h : endsBefore [] rest = true) :
    endsBefore operandClosing rest = true := by
  cases rest with
  | nil => rfl
  | cons c rest =>
    simp only [endsBefore, List.contains_nil, Bool.or_false] at h
    simp only [endsBefore, h, Bool.true_or]

/-- A run of characters ends where a lexeme may end, if all its characters may be in names. -/
theorem takeWhile_and_dropWhile {p : Char → Bool} {run rest : List Char}
    (hp : ∀ c, p c = true → inName c = true) (hrun : ∀ c ∈ run, p c = true)
    (h : endsBefore operandClosing rest = true) :
    (run ++ rest).takeWhile p = run ∧ (run ++ rest).dropWhile p = rest := by
  rw [List.takeWhile_append_of_pos hrun, List.dropWhile_append_of_pos hrun]
  cases rest with
  | nil => exact ⟨List.append_nil _, rfl⟩
  | cons c rest =>
    have hstop : ¬ p c = true := fun hc =>
      absurd (hp c hc) (by rw [inName_eq_false_of_endsBefore h]; decide)
    rw [List.takeWhile_cons_of_neg hstop, List.dropWhile_cons_of_neg hstop]
    exact ⟨List.append_nil _, rfl⟩

/-- Not all characters are underscores. -/
theorem exists_ne_underscore_iff {name : List Char} :
    name.all (· == '_') = false ↔ ∃ d ∈ name, d ≠ '_' := by
  simp

/-! ## One rule at a time -/

section Rules

variable {cs text : List Char} {kind : LexemeKind}

theorem digits?_eq_some_iff {isDigit : Char → Bool}
    (hdigit : ∀ c, isDigit c = true → inName c = true) {kind' : LexemeKind} :
    digits? kind isDigit cs = some (kind', text) ↔
      kind' = kind ∧ (∀ d ∈ text, isDigit d = true) ∧
        ∃ rest, cs = text ++ rest ∧ endsBefore operandClosing rest = true := by
  rw [digits?, Option.ite_none_right_eq_some, Option.some.injEq, Prod.mk.injEq]
  constructor
  · rintro ⟨hends, rfl, rfl⟩
    exact ⟨rfl, fun _ => List.mem_takeWhile_imp, _, List.takeWhile_append_dropWhile.symm, hends⟩
  · rintro ⟨rfl, htext, rest, rfl, hends⟩
    obtain ⟨htake, hdrop⟩ := takeWhile_and_dropWhile hdigit htext hends
    rw [htake, hdrop]
    exact ⟨hends, rfl, rfl⟩

theorem marked?_eq_some_iff {isDigit : Char → Bool}
    (hdigit : ∀ c, isDigit c = true → inName c = true) {mark : Char} {kind' : LexemeKind} :
    marked? kind mark isDigit cs = some (kind', text) ↔
      kind' = kind ∧ ∃ digits, text = mark :: digits ∧ digits ≠ [] ∧
        (∀ d ∈ digits, isDigit d = true) ∧
        ∃ rest, cs = digits ++ rest ∧ endsBefore operandClosing rest = true := by
  simp only [marked?, Option.ite_none_left_eq_some, Option.ite_none_right_eq_some,
    Option.some.injEq, Prod.mk.injEq, List.isEmpty_iff]
  constructor
  · rintro ⟨hne, hends, rfl, rfl⟩
    exact ⟨rfl, _, rfl, hne, fun _ => List.mem_takeWhile_imp, _,
      List.takeWhile_append_dropWhile.symm, hends⟩
  · rintro ⟨rfl, digits, rfl, hne, hdigits, rest, rfl, hends⟩
    obtain ⟨htake, hdrop⟩ := takeWhile_and_dropWhile hdigit hdigits hends
    rw [htake, hdrop]
    exact ⟨hne, hends, rfl, rfl⟩

theorem directive?_eq_some_iff :
    directive? cs = some (kind, text) ↔
      kind = .directive ∧ (∀ d ∈ text, inName d = true) ∧ (∃ d ∈ text, d ≠ '_') ∧
        ∃ rest, cs = text ++ rest ∧ endsBefore [] rest = true := by
  simp only [directive?, Option.ite_none_left_eq_some, Option.ite_none_right_eq_some,
    Option.some.injEq, Prod.mk.injEq, Bool.not_eq_true, exists_ne_underscore_iff]
  constructor
  · rintro ⟨hletter, hends, rfl, rfl⟩
    exact ⟨rfl, fun _ => List.mem_takeWhile_imp, hletter, _,
      List.takeWhile_append_dropWhile.symm, hends⟩
  · rintro ⟨rfl, hname, hletter, rest, rfl, hends⟩
    obtain ⟨htake, hdrop⟩ :=
      takeWhile_and_dropWhile (fun _ => id) hname (endsBefore_operandClosing hends)
    rw [htake, hdrop]
    exact ⟨hletter, hends, rfl, rfl⟩

/-- A name that a colon follows is a declaration, and an identifier otherwise. -/
theorem name?_eq_some_iff :
    name? cs = some (kind, text) ↔
      (∀ d ∈ text, inName d = true) ∧ (∃ d ∈ text, d ≠ '_') ∧
        ∃ rest, kind = .declaration ∧ cs = text ++ ':' :: rest ∧ endsBefore [] rest = true ∨
          kind = .identifier ∧ cs = text ++ rest ∧ endsBefore operandClosing rest = true := by
  rw [name?]
  simp only [Option.ite_none_left_eq_some, Bool.not_eq_true, exists_ne_underscore_iff]
  constructor
  · rintro ⟨hletter, h⟩
    have hsplit : cs = cs.takeWhile inName ++ cs.dropWhile inName :=
      List.takeWhile_append_dropWhile.symm
    split at h
    case h_1 rest hdrop =>
      rw [Option.ite_none_right_eq_some, Option.some.injEq, Prod.mk.injEq] at h
      obtain ⟨hends, rfl, rfl⟩ := h
      rw [hdrop] at hsplit
      exact ⟨fun _ => List.mem_takeWhile_imp, hletter, rest, .inl ⟨rfl, hsplit, hends⟩⟩
    case h_2 =>
      rw [Option.ite_none_right_eq_some, Option.some.injEq, Prod.mk.injEq] at h
      obtain ⟨hends, rfl, rfl⟩ := h
      exact ⟨fun _ => List.mem_takeWhile_imp, hletter, _, .inr ⟨rfl, hsplit, hends⟩⟩
  · rintro ⟨hname, hletter, rest, ⟨rfl, rfl, hends⟩ | ⟨rfl, rfl, hends⟩⟩
    · have htake : (text ++ ':' :: rest).takeWhile inName = text := by
        rw [List.takeWhile_append_of_pos hname, List.takeWhile_cons_of_neg (by decide),
          List.append_nil]
      have hdrop : (text ++ ':' :: rest).dropWhile inName = ':' :: rest := by
        rw [List.dropWhile_append_of_pos hname, List.dropWhile_cons_of_neg (by decide)]
      rw [htake, hdrop]
      exact ⟨hletter, if_pos hends⟩
    · obtain ⟨htake, hdrop⟩ := takeWhile_and_dropWhile (fun _ => id) hname hends
      rw [htake, hdrop]
      refine ⟨hletter, ?_⟩
      split
      case h_1 => cases hends
      case h_2 => exact if_pos hends

theorem string?_eq_some_iff :
    string? cs = some (kind, text) ↔
      kind = .string ∧ (∀ d ∈ text, d ≠ '"') ∧ (∃ d ∈ text, d ≠ ' ' ∧ d ≠ '_') ∧
        ∃ rest, cs = text ++ '"' :: rest ∧ endsBefore [','] rest = true := by
  have hcontent : ∀ {t : List Char}, t.all (fun c => c == ' ' || c == '_') = false ↔
      ∃ d ∈ t, d ≠ ' ' ∧ d ≠ '_' := by
    intro t
    simp
  have hquotes : ∀ {c : Char}, (c != '"') = true ↔ c ≠ '"' := bne_iff_ne
  rw [string?]
  constructor
  · intro h
    have hsplit : cs = cs.takeWhile (· != '"') ++ cs.dropWhile (· != '"') :=
      List.takeWhile_append_dropWhile.symm
    split at h
    case h_1 => cases h
    case h_2 c rest hdrop =>
      simp only [Option.ite_none_left_eq_some, Option.ite_none_right_eq_some, Option.some.injEq,
        Prod.mk.injEq, Bool.not_eq_true] at h
      obtain ⟨hall, hends, rfl, rfl⟩ := h
      -- The run stops at a quotation mark and at nothing else.
      have hc : c = '"' := by
        have hstop := List.head?_dropWhile_not (· != '"') cs
        rw [hdrop] at hstop
        simpa using hstop
      rw [hdrop, hc] at hsplit
      have hrun : ∀ d ∈ cs.takeWhile (· != '"'), (d != '"') = true :=
        fun _ => List.mem_takeWhile_imp
      exact ⟨rfl, fun d hd => hquotes.1 (hrun d hd), hcontent.1 hall, rest, hsplit, hends⟩
  · rintro ⟨rfl, hquote, hsome, rest, rfl, hends⟩
    have hrun : ∀ d ∈ text, (d != '"') = true := fun d hd => hquotes.2 (hquote d hd)
    have htake : (text ++ '"' :: rest).takeWhile (· != '"') = text := by
      rw [List.takeWhile_append_of_pos hrun, List.takeWhile_cons_of_neg (by decide),
        List.append_nil]
    have hdrop : (text ++ '"' :: rest).dropWhile (· != '"') = '"' :: rest := by
      rw [List.dropWhile_append_of_pos hrun, List.dropWhile_cons_of_neg (by decide)]
    simp only [htake, hdrop, hcontent.2 hsome, hends, Bool.false_eq_true, if_false, if_true]

end Rules

/-! ## All rules together -/

section First

variable {c : Char} {cs : List Char}

theorem read?_cons_of_startsName (h : startsName c = true) : read? (c :: cs) = name? (c :: cs) := by
  rw [read?, LexemeKind.ofMark?_eq_none_of_inName (inName_of_startsName h)]
  exact if_pos h

theorem read?_zero : read? ('0' :: cs) = digits? .octal isOctal ('0' :: cs) := rfl

theorem read?_cons_of_isDigit (hzero : c ≠ '0') (h : c.isDigit = true) :
    read? (c :: cs) = digits? .decimal Char.isDigit (c :: cs) := by
  have hstart : ¬ startsName c = true := by
    rw [isDigit_iff] at h
    rw [startsName_iff]
    rintro (hcapital | hsmall | rfl)
    · omega
    · omega
    · exact absurd h (by decide)
  have hzero' : ¬ (c == '0') = true := fun heq => hzero (beq_iff_eq.1 heq)
  rw [read?, LexemeKind.ofMark?_eq_none_of_inName (inName_of_isDigit h)]
  simp only [if_neg hstart, if_neg hzero', if_pos h]

end First

/-- What reading a lexeme gives has the form of its kind, and stands at the start of the row. -/
theorem form_of_read? {cs text : List Char} {kind : LexemeKind}
    (h : read? cs = some (kind, text)) :
    LexemeForm kind text ∧
      ∃ rest, cs = kind.spelling text ++ rest ∧ kind.endsBefore rest = true := by
  cases cs with
  | nil => cases h
  | cons c cs =>
    rw [read?] at h
    split at h
    case h_1 mark hmark =>
      cases h
      exact ⟨.mark hmark, cs, by rw [LexemeKind.spelling_of_ofMark? hmark]; rfl,
        LexemeKind.endsBefore_of_ofMark? hmark cs⟩
    case h_2 =>
      split_ifs at h with hstart hzero hdigit hcomment hpoint hquote hhex hbin
      · obtain ⟨hname, ⟨d, hd, hletter⟩, rest, ⟨rfl, hcs, hends⟩ | ⟨rfl, hcs, hends⟩⟩ :=
          name?_eq_some_iff.1 h
        · obtain _ | ⟨e, text⟩ := text
          · cases hd
          obtain rfl : c = e := (List.cons.inj hcs).1
          exact ⟨.declaration hstart hname ⟨d, hd, hletter⟩, rest,
            by rw [hcs]; exact (List.append_assoc (c :: text) [':'] rest).symm, hends⟩
        · obtain _ | ⟨e, text⟩ := text
          · cases hd
          obtain rfl : c = e := (List.cons.inj hcs).1
          exact ⟨.identifier hstart hname ⟨d, hd, hletter⟩, rest, hcs, hends⟩
      · obtain rfl := beq_iff_eq.1 hzero
        obtain ⟨rfl, hdigits, rest, hcs, hends⟩ :=
          (digits?_eq_some_iff fun _ hc => inName_of_isDigit (isDigit_of_isOctal hc)).1 h
        obtain _ | ⟨e, text⟩ := text
        · rw [List.nil_append] at hcs
          rw [← hcs] at hends
          cases hends
        obtain rfl : '0' = e := (List.cons.inj hcs).1
        exact ⟨.octal fun d hd => hdigits d (List.mem_cons_of_mem _ hd), rest, hcs, hends⟩
      · obtain ⟨rfl, hdigits, rest, hcs, hends⟩ :=
          (digits?_eq_some_iff fun _ hc => inName_of_isDigit hc).1 h
        obtain _ | ⟨e, text⟩ := text
        · rw [List.nil_append] at hcs
          rw [← hcs] at hends
          have hname := inName_eq_false_of_endsBefore hends
          rw [inName_of_isDigit hdigit] at hname
          cases hname
        obtain rfl : c = e := (List.cons.inj hcs).1
        exact ⟨.decimal (fun heq => hzero (beq_iff_eq.2 heq)) hdigits, rest, hcs, hends⟩
      · obtain rfl := beq_iff_eq.1 hcomment
        cases h
        exact ⟨.comment text, [], (List.append_nil _).symm, rfl⟩
      · obtain rfl := beq_iff_eq.1 hpoint
        obtain ⟨rfl, hname, hletter, rest, rfl, hends⟩ := directive?_eq_some_iff.1 h
        exact ⟨.directive hname hletter, rest, rfl, hends⟩
      · obtain rfl := beq_iff_eq.1 hquote
        obtain ⟨rfl, hquote, hcontent, rest, rfl, hends⟩ := string?_eq_some_iff.1 h
        exact ⟨.string hquote hcontent, rest,
          (List.append_assoc ('"' :: text) ['"'] rest).symm, hends⟩
      · obtain rfl := beq_iff_eq.1 hhex
        obtain ⟨rfl, digits, rfl, hne, hdigits, rest, rfl, hends⟩ :=
          (marked?_eq_some_iff fun _ => inName_of_isHexadecimal).1 h
        exact ⟨.hexadecimal hne hdigits, rest, rfl, hends⟩
      · obtain rfl := beq_iff_eq.1 hbin
        obtain ⟨rfl, digits, rfl, hne, hdigits, rest, rfl, hends⟩ :=
          (marked?_eq_some_iff fun _ hc => inName_of_isDigit (isDigit_of_isBinary hc)).1 h
        exact ⟨.binary hne hdigits, rest, rfl, hends⟩

/-- A text in the form of its kind is read back where it may end. -/
theorem read?_spelling_append {kind : LexemeKind} {text rest : List Char}
    (hform : LexemeForm kind text) (hends : kind.endsBefore rest = true) :
    read? (kind.spelling text ++ rest) = some (kind, text) := by
  cases hform with
  | @mark c kind hmark =>
    rw [LexemeKind.spelling_of_ofMark? hmark, List.singleton_append, read?, hmark]
  | identifier hstart hname hletter =>
    refine (read?_cons_of_startsName hstart).trans ?_
    exact name?_eq_some_iff.2 ⟨hname, hletter, rest, .inr ⟨rfl, rfl, hends⟩⟩
  | @declaration c tail hstart hname hletter =>
    refine (read?_cons_of_startsName hstart).trans ?_
    exact name?_eq_some_iff.2 ⟨hname, hletter, rest,
      .inl ⟨rfl, List.append_assoc (c :: tail) [':'] rest, hends⟩⟩
  | directive hname hletter =>
    exact directive?_eq_some_iff.2 ⟨rfl, hname, hletter, rest, rfl, hends⟩
  | @octal digits hdigits =>
    refine read?_zero.trans ?_
    refine (digits?_eq_some_iff fun _ hc => inName_of_isDigit (isDigit_of_isOctal hc)).2
      ⟨rfl, ?_, rest, rfl, hends⟩
    exact List.forall_mem_cons.2 ⟨rfl, hdigits⟩
  | @decimal c digits hzero hdigits =>
    refine (read?_cons_of_isDigit hzero (hdigits c List.mem_cons_self)).trans ?_
    exact (digits?_eq_some_iff fun _ hc => inName_of_isDigit hc).2 ⟨rfl, hdigits, rest, rfl, hends⟩
  | @hexadecimal digits hne hdigits =>
    exact (marked?_eq_some_iff fun _ => inName_of_isHexadecimal).2
      ⟨rfl, digits, rfl, hne, hdigits, rest, rfl, hends⟩
  | @binary digits hne hdigits =>
    exact (marked?_eq_some_iff fun _ hc => inName_of_isDigit (isDigit_of_isBinary hc)).2
      ⟨rfl, digits, rfl, hne, hdigits, rest, rfl, hends⟩
  | @string text hquote hcontent =>
    exact string?_eq_some_iff.2
      ⟨rfl, hquote, hcontent, rest, List.append_assoc text ['"'] rest, hends⟩
  | comment text =>
    rw [List.isEmpty_iff.1 hends, List.append_nil]
    rfl

/-- A lexeme is read exactly where its spelling stands and may end. -/
theorem read?_eq_some_iff {cs text : List Char} {kind : LexemeKind} :
    read? cs = some (kind, text) ↔
      LexemeForm kind text ∧
        ∃ rest, cs = kind.spelling text ++ rest ∧ kind.endsBefore rest = true := by
  constructor
  · exact form_of_read?
  · rintro ⟨hform, rest, rfl, hends⟩
    exact read?_spelling_append hform hends

/-! ## Scanning -/

/-- The characters of a lexeme read before are passed over. -/
theorem scan_skip (row column : Nat) (skipped rest : List Char) :
    scan row skipped.length column (skipped ++ rest) =
      scan row 0 (column + skipped.length) rest := by
  induction skipped generalizing column with
  | nil => rfl
  | cons c skipped ih =>
    rw [List.length_cons, List.cons_append, scan, ih, Nat.add_right_comm, Nat.add_assoc]

theorem scan_blank {row column : Nat} {c : Char} {cs : List Char} (h : isBlank c = true) :
    scan row 0 column (c :: cs) = scan row 0 (column + 1) cs := by
  rw [scan, if_pos h]

/-- The spelling of a lexeme does not start with a blank. -/
theorem spelling_eq_cons {kind : LexemeKind} {text : List Char} (h : LexemeForm kind text) :
    ∃ c spelling, kind.spelling text = c :: spelling ∧ isBlank c = false := by
  have hblank : ∀ {c : Char}, inName c = true → isBlank c = false := by
    intro c hc
    rw [← Bool.not_eq_true, isBlank_iff]
    rw [inName_iff] at hc
    rcases hc with hcapital | hsmall | hdigit | rfl
    · omega
    · omega
    · omega
    · decide
  cases h with
  | @mark c kind hmark =>
    refine ⟨c, [], LexemeKind.spelling_of_ofMark? hmark [c], ?_⟩
    unfold LexemeKind.ofMark? at hmark
    split at hmark <;> first | rfl | cases hmark
  | identifier hstart => exact ⟨_, _, rfl, hblank (inName_of_startsName hstart)⟩
  | declaration hstart => exact ⟨_, _, rfl, hblank (inName_of_startsName hstart)⟩
  | @decimal c _ _ hdigits =>
    exact ⟨_, _, rfl, hblank (inName_of_isDigit (hdigits c List.mem_cons_self))⟩
  | _ => exact ⟨_, _, rfl, rfl⟩

/-- Apart from the end of a row and what cannot be read, a row has lexemes in the form of their
kinds. -/
theorem form_of_mem_scan {row skip column : Nat} {cs : List Char} {l : Lexeme}
    (h : l ∈ scan row skip column cs) (hend : l.kind ≠ .lineEnd) (hread : l.kind ≠ .unexpected) :
    LexemeForm l.kind l.text.toList := by
  induction cs generalizing skip column with
  | nil =>
    obtain rfl := List.mem_singleton.1 h
    exact absurd rfl hend
  | cons c rest ih =>
    cases skip with
    | succ skip => exact ih h
    | zero =>
      rw [scan] at h
      split at h
      · exact ih h
      · obtain ⟨⟨kind, text⟩, hlexeme⟩ : ∃ lexeme, read (c :: rest) = lexeme := ⟨_, rfl⟩
        rw [hlexeme] at h
        rcases List.mem_cons.1 h with rfl | h
        · rw [read] at hlexeme
          rw [String.toList_ofList]
          cases hrule : read? (c :: rest) with
          | none =>
            rw [hrule] at hlexeme
            cases hlexeme
            exact absurd rfl hread
          | some lexeme =>
            rw [hrule] at hlexeme
            cases hlexeme
            exact (read?_eq_some_iff.1 hrule).1
        · exact ih h

/-- What is read at the start of a row comes first, and scanning goes on behind its spelling. -/
theorem scan_read_append {row column : Nat} {kind : LexemeKind} {c : Char}
    {text spelling rest : List Char} (hspelling : kind.spelling text = c :: spelling)
    (hblank : isBlank c = false) (hread : read (kind.spelling text ++ rest) = (kind, text)) :
    scan row 0 column (kind.spelling text ++ rest) =
      ⟨kind, String.ofList text, ⟨row, column⟩⟩ ::
        scan row 0 (column + (kind.spelling text).length) rest := by
  rw [hspelling, List.cons_append] at hread ⊢
  rw [scan, if_neg (by rw [hblank]; decide), hread]
  simp only [hspelling, List.length_cons, Nat.add_sub_cancel]
  rw [scan_skip, Nat.add_right_comm, Nat.add_assoc]

/-- A lexeme is scanned off the start of a row, and scanning goes on behind its spelling. -/
theorem scan_spelling_append {row column : Nat} {kind : LexemeKind} {text rest : List Char}
    (hform : LexemeForm kind text) (hends : kind.endsBefore rest = true) :
    scan row 0 column (kind.spelling text ++ rest) =
      ⟨kind, String.ofList text, ⟨row, column⟩⟩ ::
        scan row 0 (column + (kind.spelling text).length) rest := by
  obtain ⟨c, spelling, hspelling, hblank⟩ := spelling_eq_cons hform
  apply scan_read_append hspelling hblank
  rw [read, read?_spelling_append hform hends, Option.getD_some]

end Lexeme

end Assembler65
