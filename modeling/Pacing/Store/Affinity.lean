import Pacing.Store.Numeral

/-!
# Affinities

A column has an affinity for one kind of value. A value that can be turned into that kind without
loss is stored as that kind; any other value is stored as it is.
-/

namespace Pacing.Store

/-- The kind of value that a column prefers. -/
inductive Affinity where
  /-- Whole numbers, and doubles where they are not whole. -/
  | integer
  /-- Doubles. -/
  | real
  | text
deriving DecidableEq, Repr

namespace Cell

/-- Turns a double into a whole number when it is one. The least and the greatest whole number of
64 bits are left to doubles. -/
def settleReal (x : Float) : Cell :=
  let n := (real x).whole
  if (real x).part = 0 ∧ Int64.minValue.toInt < n ∧ n < Int64.maxValue.toInt then integer n
  else real x

/-- Turns a text into a number when all of it is one, and doubles into whole numbers where they
are. -/
def settle : Cell → Cell
  | text s =>
    let n := LeadingNumber.read s.toList
    if n.IsAll then
      match n.value with
      | real x => settleReal x
      | cell => cell
    else text s
  | real x => settleReal x
  | cell => cell

end Cell

/-- What a column stores for a value. A column of doubles stores whole numbers as doubles, among
them zero, which so loses its sign. -/
def Affinity.store : Affinity → Cell → Cell
  | integer, cell => cell.settle
  | real, cell =>
    match cell.settle with
    | .integer n => .real (.ofInt n)
    | cell => cell
  | text, .integer n => .text (String.ofList (Numeral.ofInt n))
  | text, .real x => .text (realText x)
  | text, cell => cell

end Pacing.Store
