import Pacing.Decimal.Scaling
import Pacing.Numeral
import Pacing.Store.Cell

/-!
# Numbers as text in cells

A text can begin with a number: blanks, a sign, digits, a point with more digits, an exponent. When
only blanks follow, all of the text is a number, and a column of numbers takes it as that number.
Arithmetic takes any text for the number that it begins with, and for zero when there is none.
Only as many digits count as fit a coefficient of 64 bits. The other way round, a double is written
with 15 significant digits.
-/

namespace Pacing.Store

/-- The number that a text begins with. -/
structure LeadingNumber where
  /-- Whether a minus sign comes first. -/
  negative : Bool
  /-- The digits before the point. -/
  whole : List Char
  /-- The digits after the point, if there is a point. -/
  fraction : Option (List Char)
  /-- The exponent, if there is one. -/
  exponent : Option Int
  /-- What follows the number. -/
  rest : List Char
deriving DecidableEq, Repr

namespace LeadingNumber

/-- The blanks that may stand before and after a number. -/
def isBlank (c : Char) : Bool := c == ' ' || ('\t' ≤ c && c ≤ '\r')

/-- Takes a sign off a text and tells whether it was a minus. -/
def splitSign : List Char → Bool × List Char
  | '-' :: cs => (true, cs)
  | '+' :: cs => (false, cs)
  | cs => (false, cs)

/-- Takes a point and the digits after it off a text. -/
def splitFraction : List Char → Option (List Char) × List Char
  | '.' :: cs => (some (cs.takeWhile Char.isDigit), cs.dropWhile Char.isDigit)
  | cs => (none, cs)

/-- The number that a digit stands for. -/
def digitValue (c : Char) : Nat := c.toNat - '0'.toNat

/-- The size from which an exponent no longer grows; a double is infinite or zero long before. -/
def greatestExponent : Nat := 10000

/-- The size of an exponent. A digit after one that no longer grows leaves the greatest size. -/
def exponentSize (digits : List Char) : Nat :=
  digits.foldl
    (fun e c => if e < greatestExponent then 10 * e + digitValue c else greatestExponent) 0

/-- Takes an exponent off a text; one without digits is none. -/
def splitExponent : List Char → Option Int × List Char
  | [] => (none, [])
  | c :: cs =>
    let (negative, after) := splitSign cs
    let digits := after.takeWhile Char.isDigit
    if (c = 'e' ∨ c = 'E') ∧ digits ≠ [] then
      let size : Int := exponentSize digits
      (some (if negative then -size else size), after.dropWhile Char.isDigit)
    else (none, c :: cs)

/-- Finds the number that a text begins with. -/
def read (text : List Char) : LeadingNumber :=
  let (negative, cs) := splitSign (text.dropWhile isBlank)
  let (fraction, cs') := splitFraction (cs.dropWhile Char.isDigit)
  let (exponent, rest) := splitExponent cs'
  { negative, whole := cs.takeWhile Char.isDigit, fraction, exponent, rest }

/-- The digits of the number without the point. -/
def digits (n : LeadingNumber) : List Char := n.whole ++ n.fraction.getD []

/-- Whether there is a number and nothing else. -/
def IsAll (n : LeadingNumber) : Prop := n.digits ≠ [] ∧ n.rest.all isBlank = true

instance (n : LeadingNumber) : Decidable n.IsAll := by unfold IsAll; infer_instance

/-- Adds a digit to a decimal. It counts if it is sure to fit. A digit that counts changes the power
by `counted`, and one that does not by `skipped`. -/
def addDigit (counted skipped : Int) (s : Decimal.Scaled) (c : Char) : Decimal.Scaled :=
  if s.coefficient < Decimal.Scaled.digitBound then
    ⟨10 * s.coefficient + digitValue c, s.power + counted⟩
  else ⟨s.coefficient, s.power + skipped⟩

/-- The number without its sign, as a decimal. Of the digits that do not count, those before the
point are taken for zeros and those after it are left out. -/
def size (n : LeadingNumber) : Decimal.Scaled :=
  let whole := n.whole.foldl (addDigit 0 1) ⟨0, 0⟩
  let all := (n.fraction.getD []).foldl (addDigit (-1) 0) whole
  ⟨all.coefficient, all.power + n.exponent.getD 0⟩

/-- The number as a double. -/
def toFloat (n : LeadingNumber) : Float := if n.negative then -n.size.toFloat else n.size.toFloat

/-- The number as an integer, of any size, where it has neither point nor exponent. -/
def toInt (n : LeadingNumber) : Int :=
  let size := Nat.ofDigitChars 10 n.digits 0
  if n.negative then -size else size

/-- The value of the number: an integer when it has neither point nor exponent and fits 64 bits,
and otherwise a double. Without digits it is zero. -/
def value (n : LeadingNumber) : Cell :=
  if n.digits = [] then .integer 0
  else if n.fraction = none ∧ n.exponent = none ∧ FitsWord n.toInt then .integer n.toInt
  else .real n.toFloat

end LeadingNumber

namespace Cell

/-- What arithmetic takes a cell for: a number or null. -/
def number : Cell → Cell
  | text s => (LeadingNumber.read s.toList).value
  | blob bytes => (LeadingNumber.read (bytes.map fun b => Char.ofNat b.toNat)).value
  | cell => cell

/-- What arithmetic on doubles takes a cell for. -/
def toFloat (cell : Cell) : Float :=
  match cell.number with
  | integer n => .ofInt n
  | real x => x
  | _ => 0

end Cell

/-- The number of significant digits in the text of a double. -/
def textDigits : Nat := 15

/-- Lays out digits around the point, where `e` is the power of ten of the first digit. The point
has a digit on both sides. Powers below -4, and powers past the digits that a text has, are
written as an exponent of at least two digits. -/
def layOutReal (digits : List Char) (e : Int) : List Char :=
  let orZero (cs : List Char) := if cs = [] then ['0'] else cs
  if e < -4 ∨ textDigits ≤ e then
    digits.take 1 ++ '.' :: orZero (digits.drop 1) ++ 'e' :: (if e < 0 then '-' else '+') ::
      Numeral.pad 2 (Numeral.ofNat e.natAbs)
  else if e < 0 then '0' :: '.' :: List.replicate (-e - 1).toNat '0' ++ digits
  else
    let places := e.toNat + 1
    digits.take places ++ List.replicate (places - digits.length) '0' ++
      '.' :: orZero (digits.drop places)

/-- The text of a double other than NaN. Zeros at the end are left out, and zero has no sign. -/
def realText (x : Float) : String :=
  if x == 0 then "0.0"
  else
    let size :=
      if x.isInf then "Inf".toList
      else
        let s := Decimal.Scaled.ofFloat textDigits x.abs
        let all := Numeral.ofNat s.coefficient
        let digits := (all.reverse.dropWhile (· == '0')).reverse
        layOutReal digits (s.power + all.length - 1)
    String.ofList (if x < 0 then '-' :: size else size)

end Pacing.Store
