import Pacing.Decimal.Extended

/-!
# Decimals by scaling

A decimal is read as a double, and a double is taken apart into decimal digits, by multiplying with
powers of ten in numbers of 64 significant bits. A hundred, ten and one are the powers that a step
can have. Each step rounds, so the double that is read is mostly, and not always, the nearest one.
-/

namespace Pacing.Decimal

-- Powers are those of the core library, whatever else is in scope.
attribute [local instance (high)] instPowNat instNatPowNat

namespace Extended

/-- Multiplies by `10 ^ p` in steps, the largest first. -/
def scale (x : Extended) (p : Int) : Extended :=
  let times (step count : Nat) (y : Extended) :=
    Nat.repeat (fun z => z.mul (powerOfTen (p.sign * step))) count y
  let n := p.natAbs
  times 1 (n % 10) (times 10 (n / 10 % 10) (times 100 (n / 100) x))

end Extended

namespace Scaled

/-- The coefficient below which any other digit is sure to fit 64 bits. -/
def digitBound : Nat := (2 ^ (64 : Nat) - 10) / 10

/-- Takes zeros from a positive power into the coefficient for as long as they are sure to fit. -/
def takeZeros (c : Nat) : Nat → Scaled
  | 0 => ⟨c, 0⟩
  | p + 1 => if c < digitBound then takeZeros (c * 10) p else ⟨c, (p + 1 : Nat)⟩

/-- Gives zeros from the end of the coefficient to a negative power; the power is given without its
sign. -/
def giveZeros (c : Nat) : Nat → Scaled
  | 0 => ⟨c, 0⟩
  | p + 1 => if c % 10 = 0 then giveZeros (c / 10) p else ⟨c, -(p + 1 : Nat)⟩

/-- The same decimal with a power as near to zero as the coefficient allows. -/
def settle (s : Scaled) : Scaled :=
  if 0 ≤ s.power then takeZeros s.coefficient s.power.toNat
  else giveZeros s.coefficient s.power.natAbs

/-- The double that a decimal is read as. -/
def toFloat (s : Scaled) : Float :=
  if s.coefficient = 0 then 0
  else
    let t := s.settle
    ((Extended.ofNat t.coefficient).scale t.power).toFloat

end Scaled

/-- A number that powers of ten are taken out of, and the power of ten that was taken. -/
structure Shifted where
  /-- The number that is left. -/
  value : Extended
  /-- The power of ten that belongs to it. -/
  power : Int
deriving DecidableEq, Repr

namespace Shifted

/-- Takes a power of ten out of the number. -/
def take (p : Int) (s : Shifted) : Shifted := ⟨s.value.mul (.powerOfTen (-p)), s.power + p⟩

/-- No double needs more steps of one size than this. -/
def greatestSteps : Nat := 12

/-- Takes `10 ^ p` out for as long as the number is not below `10 ^ bound`. -/
def lower (bound p : Int) : Shifted → Shifted :=
  let limit := Extended.powerOfTen bound
  Nat.repeat (fun s => if s.value < limit then s else s.take p) greatestSteps

/-- Puts `10 ^ p` in for as long as the number is below `10 ^ bound`. -/
def raise (bound p : Int) : Shifted → Shifted :=
  let limit := Extended.powerOfTen bound
  Nat.repeat (fun s => if s.value < limit then s.take (-p) else s) greatestSteps

/-- Brings the number to 18 or 19 digits before the point. A number from `10 ^ 19` on stays above
`10 ^ 17` on its way down, so only one of the two directions takes effect. -/
def toWhole (s : Shifted) : Shifted :=
  let down := lower 19 1 (lower 29 10 (lower 119 100 s))
  raise 17 1 (raise 7 10 (raise (-97) 100 down))

end Shifted

/-- A positive finite double to `n` significant digits, of which 18 are known; a half is rounded
up. -/
def Scaled.ofFloat (n : Nat) (x : Float) : Scaled :=
  let s := (Shifted.mk (.ofFloat x) 0).toWhole
  let whole := s.value.floor
  let unit := 10 ^ ((Nat.toDigits 10 whole).length - n)
  ⟨(whole + unit / 2) / unit, s.power + ((Nat.toDigits 10 whole).length - n : Nat)⟩

end Pacing.Decimal
