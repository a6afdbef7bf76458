import Pacing.Store.Cell

/-!
# Columns

A column of a table may have to hold a value. A reader of a result wants each column to be of one
kind; what it does not want it refuses, and says which column it was.
-/

namespace Pacing.Store

/-- The first column that must have a value and has none. -/
def missing? (cells : List (String × Cell)) : Option Error :=
  (cells.find? fun (_, cell) => cell = .null).map fun (column, _) => .notNull column

/-- A column of a result. -/
structure Column where
  /-- Its place in the row, counted from zero. -/
  index : Nat
  /-- Its name. -/
  name : String
deriving DecidableEq, Repr

namespace Column

variable (c : Column)

/-- The error of a cell of an unwanted kind. -/
def refusal (cell : Cell) : Error := .cellKind cell.kind c.index c.name

/-- Reads a whole number. -/
def integer : Cell → Except Error Int
  | .integer n => .ok n
  | cell => .error (c.refusal cell)

/-- Reads a whole number or null. -/
def integer? : Cell → Except Error (Option Int)
  | .null => .ok none
  | cell => (c.integer cell).map some

/-- Reads a signed number of 64 bits. -/
def int64 (cell : Cell) : Except Error Int64 := (c.integer cell).map Int64.ofInt

/-- Reads an unsigned number of 32 bits. -/
def uint32 (cell : Cell) : Except Error UInt32 :=
  (c.integer cell).bind fun n =>
    if 0 ≤ n ∧ n < UInt32.size then .ok (UInt32.ofNat n.toNat) else .error (.outOfRange n c.index)

/-- Reads a truth value; every number but zero is true. -/
def truth (cell : Cell) : Except Error Bool := (c.integer cell).map (· != 0)

/-- Reads a number as a double. -/
def double : Cell → Except Error Float
  | .integer n => .ok (.ofInt n)
  | .real x => .ok x
  | cell => .error (c.refusal cell)

/-- Reads a text. -/
def text : Cell → Except Error String
  | .text s => .ok s
  | cell => .error (c.refusal cell)

end Column

end Pacing.Store
