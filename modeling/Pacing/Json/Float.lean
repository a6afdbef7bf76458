import Pacing.Json

/-!
# Reading a number as a double

Numbers are read quickly and not always exactly. The digits are taken as one number of 64 bits for
as long as they fit, that number is rounded to a double, and the double is scaled by a power of ten
in one multiplication or division. The result can lie one unit off the nearest double.
-/

namespace Pacing.Json.Number

-- Powers are those of the core library, whatever else is in scope.
attribute [local instance (high)] instPowNat instNatPowNat

/-- Appends digits to a number for as long as it keeps to 64 bits. Gives the number, how many digits
were appended, and the digits left over. -/
def absorb (significand taken : Nat) : List Char → Nat × Nat × List Char
  | [] => (significand, taken, [])
  | c :: rest =>
    let next := significand * 10 + (c.toNat - '0'.toNat)
    if next < 2 ^ (64 : Nat) then absorb next (taken + 1) rest else (significand, taken, c :: rest)

/-- Multiplies a double by a power of ten; none when the product is infinite. Powers of ten end at
308, so a lesser power is reached in steps, and a greater one not at all. -/
def scale? (x : Float) (e : Int) : Option Float :=
  if e = 0 then some x
  else if 0 ≤ e then
    if e ≤ 308 then
      let product := x * Float.ofScientific 1 false e.toNat
      if product.isInf then none else some product
    else if x == 0 then some x
    else none
  else if h : -308 ≤ e then some (x / Float.ofScientific 1 false (-e).toNat)
  else if x == 0 then some x
  else scale? (x / Float.ofScientific 1 false 308) (e + 308)
termination_by e.natAbs
decreasing_by omega

/-- The double that a number is read as; none when it is too large. -/
def toFloat? (n : Number) : Option Float :=
  let (whole, _, beyond) := absorb 0 0 n.integer
  let (significand, places, _) := absorb whole 0 n.fraction
  let e : Int := beyond.length - places + n.exponent.getD 0
  (scale? (UInt64.ofNat significand).toFloat e).map fun x => if n.negative then -x else x

end Pacing.Json.Number
