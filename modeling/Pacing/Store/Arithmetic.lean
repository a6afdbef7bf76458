import Pacing.Store.Numeral

/-!
# Arithmetic on cells

Sums and products of cells, the least and the greatest of several cells, and sums of many doubles.
-/

namespace Pacing.Store

-- Sums are those of the core library, whatever else is in scope.
attribute [local instance (high)] Zero.ofOfNat0

namespace Cell

/-- Combines two cells as numbers. Whole numbers stay whole while the result fits 64 bits; the
rest is done with doubles, and null with anything is null. -/
def combine (onInt : Int → Int → Int) (onFloat : Float → Float → Float) (a b : Cell) : Cell :=
  match a.number, b.number with
  | null, _ => null
  | _, null => null
  | integer m, integer n =>
    if FitsWord (onInt m n) then integer (onInt m n) else ofFloat (onFloat (.ofInt m) (.ofInt n))
  | x, y => ofFloat (onFloat x.toFloat y.toFloat)

/-- The sum of two cells. -/
def add : Cell → Cell → Cell := combine (· + ·) (· + ·)

/-- The product of two cells. -/
def mul : Cell → Cell → Cell := combine (· * ·) (· * ·)

/-- Of two cells the one that comes first in an order, or the earlier where neither does. Null
gives way to anything. -/
def prefer (order : Ordering) (a b : Cell) : Cell :=
  if b = null then a else if a = null ∨ compare b a = order then b else a

/-- The least of some cells; null when there is none. -/
def least (cells : List Cell) : Cell := cells.foldl (prefer .lt) null

/-- The greatest of some cells; null when there is none. -/
def greatest (cells : List Cell) : Cell := cells.foldl (prefer .gt) null

end Cell

/-- A sum in progress that keeps track of what rounding has taken from it. -/
structure CompensatedSum where
  /-- The sum as rounded after each step. -/
  total : Float := 0
  /-- What the rounding has taken. -/
  lost : Float := 0
deriving DecidableEq, Repr

namespace CompensatedSum

/-- Adds a number. What rounding takes is found by undoing the addition, the larger of the two
numbers first. -/
def add (s : CompensatedSum) (x : Float) : CompensatedSum :=
  let total := s.total + x
  let taken := if s.total.abs > x.abs then s.total - total + x else x - total + s.total
  ⟨total, s.lost + taken⟩

/-- The sum with what rounding has taken, if that can be told. -/
def value (s : CompensatedSum) : Float :=
  if s.lost.isFinite then s.total + s.lost else s.total

end CompensatedSum

/-- The sum of some numbers in order. -/
def compensatedSum (xs : List Float) : Float := (xs.foldl .add ({} : CompensatedSum)).value

/-- The sum of some cells in order, none of them null; null when there is none, or when the sum is
not a number. Whole numbers alone have a whole sum. -/
def Cell.sum (cells : List Cell) : Cell :=
  if cells = [] then null
  else if ∀ cell ∈ cells, cell.kind = .integer then integer (cells.map whole).sum
  else ofFloat (compensatedSum (cells.map toFloat))

end Pacing.Store
