import Assembler65.Assembly

/-!
# Command-line arguments

What a run of the assembler is asked for. Options may stand before or behind the input, may hold
their value in one argument or take the next one, and may be given once. After `--` every argument
is an input.
-/

set_option autoImplicit false

namespace Assembler65

/-- What a run of the assembler is asked for. -/
structure Request where
  input : String
  output : Option String := none
  origin : UInt16 := defaultOrigin
  listing : Bool := false
  deriving DecidableEq, Repr

namespace Request

/-- The arguments read so far. -/
structure Draft where
  input : Option String := none
  output : Option String := none
  origin : Option UInt16 := none
  listing : Bool := false
  deriving DecidableEq, Repr

/-- An option that takes a value. -/
inductive ValueOption where
  | output | origin
  deriving DecidableEq, Repr

namespace Draft

/-- Set the input, once. -/
def setInput (d : Draft) (path : String) : Option Draft :=
  if d.input.isSome then none else some { d with input := some path }

/-- Ask for a listing, once. -/
def setListing (d : Draft) : Option Draft :=
  if d.listing then none else some { d with listing := true }

/-- Set the value of an option, once. -/
def setValue (d : Draft) (option : ValueOption) (value : String) : Option Draft :=
  match option with
  | .output => if d.output.isSome then none else some { d with output := some value }
  | .origin =>
    if d.origin.isSome then none
    else
      match originOfText value with
      | .ok origin => some { d with origin := some origin }
      | .error _ => none

/-- The request of all arguments. The input has to be there. -/
def finish (d : Draft) : Option Request :=
  d.input.map fun input => ⟨input, d.output, d.origin.getD defaultOrigin, d.listing⟩

end Draft

/-- One argument as an option, before its value is known. -/
inductive Argument where
  /-- The input. -/
  | input
  /-- The mark after which every argument is an input. -/
  | separator
  /-- Changes to the draft that need no further argument. -/
  | complete (listings : Nat) (value : Option (ValueOption × String))
  /-- An option that takes the next argument. -/
  | awaiting (listings : Nat) (option : ValueOption)
  | unknown
  deriving DecidableEq, Repr

/-- Short options in one argument, behind the hyphen. An output option takes the rest of the
argument, with or without an equal sign, or else the next argument. -/
def shortOptions (listings : Nat) : List Char → Argument
  | [] => .complete listings none
  | 'd' :: rest => shortOptions (listings + 1) rest
  | ['o'] => .awaiting listings .output
  | 'o' :: '=' :: value => .complete listings (some (.output, String.ofList value))
  | 'o' :: value => .complete listings (some (.output, String.ofList value))
  | _ => .unknown

/-- A long option, behind the hyphens, with the value behind its equal sign. -/
def longOption (name : List Char) (value : Option (List Char)) : Argument :=
  match String.ofList name, value with
  | "dump", none => .complete 1 none
  | "output", none => .awaiting 0 .output
  | "origin", none => .awaiting 0 .origin
  | "output", some v => .complete 0 (some (.output, String.ofList v))
  | "origin", some v => .complete 0 (some (.origin, String.ofList v))
  | _, _ => .unknown

/-- What an argument is. A lone hyphen is no option. -/
def classify (argument : String) : Argument :=
  match argument.toList with
  | ['-', '-'] => .separator
  | '-' :: '-' :: rest =>
    longOption (rest.takeWhile (· != '='))
      (match rest.dropWhile (· != '=') with
        | [] => none
        | _ :: value => some value)
  | '-' :: c :: rest => shortOptions 0 (c :: rest)
  | _ => .input

/-- Ask for a listing a number of times. -/
def setListings (d : Draft) : Nat → Option Draft
  | 0 => some d
  | n + 1 => (d.setListing).bind fun d => setListings d n

/-- Read arguments in order. An option that awaits a value takes the next argument, which must
not be an option itself. -/
def read (d : Draft) : List String → Option Draft
  | [] => some d
  | argument :: rest =>
    match classify argument with
    | .input => (d.setInput argument).bind fun d => read d rest
    | .separator => rest.foldlM Draft.setInput d
    | .complete listings none => (setListings d listings).bind fun d => read d rest
    | .complete listings (some (option, value)) =>
      ((setListings d listings).bind fun d => d.setValue option value).bind fun d => read d rest
    | .awaiting listings option =>
      match rest with
      | [] => none
      | value :: rest =>
        if classify value == .input then
          ((setListings d listings).bind fun d => d.setValue option value).bind
            fun d => read d rest
        else none
    | .unknown => none

/-- The request of an argument list, unless the list is misused. -/
def parse? (arguments : List String) : Option Request :=
  (read {} arguments).bind Draft.finish

end Request

end Assembler65
