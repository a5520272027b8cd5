/-!
# Symbol tables

Names with values in the order of their definition. A table does not tell letters of different
case apart: it folds every name that it keeps and looks names up the same way. The place of a name
in the table is its number. How letters are folded is a parameter of all that uses tables.
-/

set_option autoImplicit false

namespace Assembler65

/-- How names are folded: those with the same folded text are one name. -/
class Folding where
  fold : String → String

/-- Capitals of ASCII become small letters. Names that a text is read into have no other letters. -/
instance Folding.ascii : Folding := ⟨fun name => String.ofList (name.toList.map Char.toLower)⟩

/-- Names with values, in the order of their definition. -/
structure SymbolTable (α : Type) where
  entries : List (String × α) := []
  deriving Repr

namespace SymbolTable

variable {α : Type} [Folding]

/-- A name as a table keeps it. -/
def key (name : String) : String := Folding.fold name

/-- The value of a name. -/
def find? (t : SymbolTable α) (name : String) : Option α := t.entries.lookup (key name)

/-- Whether a name is defined. -/
def contains (t : SymbolTable α) (name : String) : Bool := (t.find? name).isSome

/-- The number of a name. -/
def index? (t : SymbolTable α) (name : String) : Option Nat :=
  t.entries.findIdx? fun entry => entry.1 == key name

/-- A table with one more name at its end. -/
def insert (t : SymbolTable α) (name : String) (value : α) : SymbolTable α :=
  ⟨t.entries ++ [(key name, value)]⟩

/-- The number of names. -/
def size (t : SymbolTable α) : Nat := t.entries.length

/-- The names in the order of their numbers. -/
def names (t : SymbolTable α) : List String := t.entries.map Prod.fst

@[simp] theorem find?_insert (t : SymbolTable α) (name other : String) (value : α) :
    (t.insert name value).find? other =
      (t.find? other).or (if key other = key name then some value else none) := by
  simp only [find?, insert, List.lookup_append, List.lookup_cons, List.lookup_nil]
  by_cases same : key other = key name
  · simp [same]
  · simp [same, beq_eq_false_iff_ne.2 same]

end SymbolTable

end Assembler65
