import Pacing.Decimal.Shortest
import Pacing.Numeral

/-!
# JSON values

Values as their text gives them: numbers keep their digits, objects keep the order and repetition
of their members, and a string that escapes half of a surrogate pair is kept as unreadable.
-/

namespace Pacing

-- Powers are those of the core library, whatever else is in scope.
attribute [local instance (high)] instPowNat instNatPowNat

/-- A number as it is written. -/
structure Json.Number where
  /-- Whether a minus sign comes first. -/
  negative : Bool := false
  /-- The digits before the point. -/
  integer : List Char
  /-- The digits after the point; none when there is no point. -/
  fraction : List Char := []
  /-- The exponent, if one is written. -/
  exponent : Option Int := none
deriving DecidableEq, Repr

/-- A JSON value. -/
inductive Json where
  | null
  | bool (b : Bool)
  | number (n : Json.Number)
  /-- A string; `none` when it escapes half of a surrogate pair. -/
  | string (text : Option String)
  | array (items : List Json)
  /-- The members in the order written, each with its key. -/
  | object (members : List (Option String × Json))

namespace Json

/-- A string that can be read. -/
def text (s : String) : Json := .string (some s)

/-- An object with keys that can be read. -/
def record (members : List (String × Json)) : Json :=
  .object (members.map fun (key, value) => (some key, value))

namespace Number

/-- The number of an integer. -/
def ofInt (n : Int) : Number := { negative := n < 0, integer := Numeral.ofNat n.natAbs }

/-- Whether a double of scientific exponent `e` is written without an exponent. -/
def isPositional (e : Int) : Bool := -5 ≤ e && e < 16

/-- The digits of a decimal laid out around the point, where `e` is the power of ten of the first
digit. A number without a fraction still gets one zero after the point. -/
def layOut (digits : List Char) (e : Int) : Number :=
  if isPositional e then
    if e < 0 then
      { integer := ['0'], fraction := List.replicate (-e - 1).toNat '0' ++ digits }
    else
      let places := e.toNat + 1
      let fraction := digits.drop places
      { integer := digits.take places ++ List.replicate (places - digits.length) '0'
        fraction := if fraction.isEmpty then ['0'] else fraction }
  else { integer := digits.take 1, fraction := digits.drop 1, exponent := some e }

/-- The number of a double: the shortest digits that read back, written without an exponent from
`1e-5` up to `1e16`. Infinities and NaN have no number. -/
def ofFloat? (x : Float) : Option Number :=
  if x.isFinite then
    let negative := x.toBits.toNat / 2 ^ (63 : Nat) = 1
    if x == 0 then some { negative, integer := ['0'], fraction := ['0'] }
    else
      let s := Decimal.shortest x
      let digits := Numeral.ofNat s.coefficient
      some { layOut digits (s.power + digits.length - 1) with negative }
  else none

end Number

/-- The value of an integer. -/
def int (n : Int) : Json := .number (.ofInt n)

/-- The value of a double; infinities and NaN are null. -/
def float (x : Float) : Json := (Number.ofFloat? x).elim .null .number

end Json

end Pacing
