/-!
# Errors of the table store

What can go wrong when tables are read and written: a table that is missing, a row that breaks a
constraint, a cell that does not hold what a reader expects.
-/

namespace Pacing.Store

/-- The kinds of value that a cell can hold. -/
inductive CellKind where
  | null
  | integer
  | real
  | text
  | blob
deriving DecidableEq, Repr

/-- The name of a kind of value. -/
def CellKind.name : CellKind → String
  | null => "Null"
  | integer => "Integer"
  | real => "Real"
  | text => "Text"
  | blob => "Blob"

/-- A failed access to a table. -/
inductive Error where
  /-- There is no place for the database. -/
  | cannotOpen
  /-- The table does not exist. -/
  | noSuchTable (table : String)
  /-- A column that must have a value was given none. -/
  | notNull (column : String)
  /-- A row breaks the condition of its table. -/
  | check (condition : String)
  /-- A row repeats the key of another. -/
  | unique (columns : List String)
  /-- A cell holds a value of a kind that its reader cannot take. -/
  | cellKind (kind : CellKind) (index : Nat) (column : String)
  /-- An integer is too large or too small for its reader. -/
  | outOfRange (value : Int) (index : Nat)
deriving DecidableEq, Repr

/-- The wording of a failed access. -/
def Error.message : Error → String
  | cannotOpen => "unable to open database file"
  | noSuchTable table => s!"no such table: {table}"
  | notNull column => s!"NOT NULL constraint failed: {column}"
  | check condition => s!"CHECK constraint failed: {condition}"
  | unique columns => "UNIQUE constraint failed: " ++ ", ".intercalate columns
  | cellKind kind index column =>
    s!"Invalid column type {kind.name} at index: {index}, name: {column}"
  | outOfRange value index => s!"Integer {value} out of range at index {index}"

end Pacing.Store
