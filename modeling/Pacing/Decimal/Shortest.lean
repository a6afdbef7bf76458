/-!
# Shortest decimals

The fewest decimal digits that read back as a given double, and among those of that length the
ones nearest to it. A positive double is `m * 2 ^ q`; the reals that round to it form an interval
whose ends belong to it when `m` is even. For each number of digits in turn the two neighbours of
the double on the decimal grid are tested for membership, in exact arithmetic.
-/

namespace Pacing.Decimal

-- Powers are those of the core library, whatever else is in scope.
attribute [local instance (high)] instPowNat instNatPowNat

/-- A positive double as a fraction, with the interval of reals that round to it. All three values
are over the denominator `den`. -/
structure Rounding where
  /-- The numerator of the double. -/
  value : Nat
  /-- The numerator of the lower end of the interval. -/
  low : Nat
  /-- The numerator of the upper end of the interval. -/
  high : Nat
  /-- The common denominator. -/
  den : Nat
  /-- Whether the ends belong to the interval. -/
  closed : Bool
deriving Repr

/-- Takes a positive finite double apart. Below a power of two the gap to the next double is half
as wide as above it. -/
def Rounding.ofFloat (x : Float) : Rounding :=
  let bits := x.toBits.toNat % 2 ^ (63 : Nat)
  let exponent := bits / 2 ^ (52 : Nat)
  let fraction := bits % 2 ^ (52 : Nat)
  let m := if exponent = 0 then fraction else fraction + 2 ^ (52 : Nat)
  let q : Int := (max exponent 1 : Nat) - 1075 - 2
  let up := 2 ^ q.toNat
  { value := 4 * m * up
    low := (if fraction = 0 ∧ 1 < exponent then 4 * m - 1 else 4 * m - 2) * up
    high := (4 * m + 2) * up
    den := 2 ^ (-q).toNat
    closed := m % 2 = 0 }

namespace Rounding

/-- Whether `c` grid steps lie in the interval, where a step is `num / den` of a unit. -/
def Holds (r : Rounding) (num den c : Nat) : Prop :=
  if r.closed then r.low * den ≤ c * num * r.den ∧ c * num * r.den ≤ r.high * den
  else r.low * den < c * num * r.den ∧ c * num * r.den < r.high * den

instance (r : Rounding) (num den c : Nat) : Decidable (r.Holds num den c) := by
  unfold Holds
  infer_instance

/-- The point of the decimal grid with step `10 ^ p` that reads back, if there is one; of two the
nearer, and of two as near the even one. -/
def onGrid? (r : Rounding) (p : Int) : Option Nat :=
  let num := 10 ^ p.toNat
  let den := 10 ^ (-p).toNat
  let below := r.value * den / (num * r.den)
  let above := below + 1
  let toBelow := r.value * den - below * num * r.den
  let toAbove := above * num * r.den - r.value * den
  if r.Holds num den below then
    if r.Holds num den above ∧ (toAbove < toBelow ∨ toAbove = toBelow ∧ above % 2 = 0) then
      some above
    else some below
  else if r.Holds num den above then some above
  else none

/-- The number of digits before the point; zero or less for a value below one. The factor lifts the
least positive double above one. -/
def magnitude (r : Rounding) : Int :=
  (Nat.toDigits 10 (r.value * 10 ^ (400 : Nat) / r.den)).length - 400

end Rounding

/-- A decimal `coefficient * 10 ^ power`. -/
structure Scaled where
  /-- The digits, as a number. -/
  coefficient : Nat
  /-- The power of ten. -/
  power : Int
deriving DecidableEq, Repr

/-- The shortest decimal that reads back as a positive finite double; 17 digits are always
enough. -/
def shortest (x : Float) : Scaled :=
  let r := Rounding.ofFloat x
  let k := r.magnitude
  let found := (List.range 17).findSome? fun i =>
    let p := k - (i + 1 : Nat)
    (r.onGrid? p).map fun c => Scaled.mk c p
  match found with
  | some ⟨10, p⟩ => ⟨1, p + 1⟩
  | some s => s
  | none => ⟨0, 0⟩

end Pacing.Decimal
