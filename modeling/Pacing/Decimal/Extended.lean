import Pacing.Decimal.Shortest

/-!
# Numbers of 64 significant bits

Positive numbers with a binary significand of 64 bits, eleven more than a double has, and with an
exponent of any size. A quotient or a product is the nearest such number to the exact one, and of
two as near the one with the even significand.
-/

namespace Pacing.Decimal

-- Powers are those of the core library, whatever else is in scope.
attribute [local instance (high)] instPowNat instNatPowNat

/-- The number `significand * 2 ^ exponent`. The significand is zero or has 64 bits. -/
structure Extended where
  /-- The significant bits, as a number. -/
  significand : Nat
  /-- The power of two. -/
  exponent : Int
deriving DecidableEq, Repr

/-- A quotient rounded to the nearest whole number; a half goes to the even one. -/
def roundQuotient (num den : Nat) : Nat :=
  let below := num / den
  let twice := 2 * (num % den)
  if den < twice ∨ den = twice ∧ below % 2 = 1 then below + 1 else below

namespace Extended

/-- The nearest number to `num / den * 2 ^ e`. The logarithms place the quotient up to one bit, and
a comparison settles that bit. Rounding can reach `2 ^ 64`, which has one bit too many. -/
def ofRatio (num den : Nat) (e : Int) : Extended :=
  if num = 0 then ⟨0, 0⟩
  else
    let least : Int := 63 + den.log2 - num.log2
    let shift :=
      if num * 2 ^ least.toNat < 2 ^ (63 : Nat) * den * 2 ^ (-least).toNat then least + 1 else least
    let s := roundQuotient (num * 2 ^ shift.toNat) (den * 2 ^ (-shift).toNat)
    if s = 2 ^ (64 : Nat) then ⟨2 ^ (63 : Nat), e - shift + 1⟩ else ⟨s, e - shift⟩

/-- The nearest number to a natural number. -/
def ofNat (n : Nat) : Extended := ofRatio n 1 0

/-- The nearest number to a power of ten. -/
def powerOfTen (p : Int) : Extended := ofRatio (10 ^ p.toNat) (10 ^ (-p).toNat) 0

/-- The nearest number to a product. -/
def mul (x y : Extended) : Extended :=
  ofRatio (x.significand * y.significand) 1 (x.exponent + y.exponent)

/-- Numbers are in order when their significands are, over the same power of two. -/
def Lt (x y : Extended) : Prop :=
  x.significand * 2 ^ (x.exponent - y.exponent).toNat <
    y.significand * 2 ^ (y.exponent - x.exponent).toNat

instance : LT Extended := ⟨Lt⟩

instance (x y : Extended) : Decidable (x < y) := by
  change Decidable (Lt x y)
  unfold Lt
  infer_instance

/-- The whole part of a number. -/
def floor (x : Extended) : Nat :=
  x.significand * 2 ^ x.exponent.toNat / 2 ^ (-x.exponent).toNat

/-- A positive finite double; it has few enough bits to be kept as it is. -/
def ofFloat (x : Float) : Extended :=
  let r := Rounding.ofFloat x
  ofRatio r.value r.den 0

/-- The greatest finite double. -/
def greatestFloat : Extended := ⟨(2 ^ (53 : Nat) - 1) * 2 ^ (11 : Nat), 960⟩

/-- The nearest double. It has 53 significant bits, or fewer above the least power of two that a
double can hold; all that is greater than the greatest finite double is infinite. -/
def toFloat (x : Extended) : Float :=
  if greatestFloat < x then 1 / 0
  else
    let q := max (x.exponent + 11) (-1074)
    let m := roundQuotient x.significand (2 ^ (q - x.exponent).toNat)
    .ofBits (.ofNat ((q + 1074).toNat * 2 ^ (52 : Nat) + m))

end Extended

end Pacing.Decimal
