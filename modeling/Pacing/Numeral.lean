/-!
# Decimal numerals

Whole numbers as decimal text, over lists of characters. Writing gives the canonical numeral;
reading also takes a `+` and leading zeros, and refuses what does not fit the wanted width.
-/

namespace Pacing.Numeral

/-- The canonical numeral of a natural number. -/
def ofNat (n : Nat) : List Char := Nat.toDigits 10 n

/-- The canonical numeral of an integer: a minus sign, if needed, before the digits. -/
def ofInt (n : Int) : List Char := if n < 0 then '-' :: ofNat n.natAbs else ofNat n.natAbs

/-- Fills a numeral with zeros on the left. -/
def pad (width : Nat) (digits : List Char) : List Char :=
  List.replicate (width - digits.length) '0' ++ digits

/-- The number that one or more ASCII digits stand for. -/
def natural? (cs : List Char) : Option Nat :=
  if cs ≠ [] ∧ cs.all Char.isDigit then some (Nat.ofDigitChars 10 cs 0) else none

/-- The number that digits after an optional `+` stand for. -/
def unsigned? : List Char → Option Nat
  | '+' :: cs => natural? cs
  | cs => natural? cs

/-- The number that digits after an optional sign stand for. -/
def signed? : List Char → Option Int
  | '-' :: cs => (natural? cs).map fun n => -(n : Int)
  | '+' :: cs => (natural? cs).map fun n => (n : Int)
  | cs => (natural? cs).map fun n => (n : Int)

/-- Reads a signed number of 64 bits. -/
def int64? (cs : List Char) : Option Int64 :=
  (signed? cs).bind fun n =>
    if Int64.minValue.toInt ≤ n ∧ n ≤ Int64.maxValue.toInt then some (Int64.ofInt n) else none

/-- Reads an unsigned number of 32 bits. -/
def uint32? (cs : List Char) : Option UInt32 :=
  (unsigned? cs).bind fun n => if n < UInt32.size then some (UInt32.ofNat n) else none

/-- Reads an unsigned number of 64 bits. -/
def uint64? (cs : List Char) : Option UInt64 :=
  (unsigned? cs).bind fun n => if n < UInt64.size then some (UInt64.ofNat n) else none

/-- A canonical numeral has at least one digit. -/
theorem ofNat_ne_nil (n : Nat) : ofNat n ≠ [] := Nat.toDigits_ne_nil

/-- A canonical numeral holds digits only. -/
theorem all_isDigit_ofNat (n : Nat) : (ofNat n).all Char.isDigit = true :=
  List.all_eq_true.mpr fun _ hc => Nat.isDigit_of_mem_toDigits (by decide) (by decide) hc

/-- What is written is read back. -/
theorem natural?_ofNat (n : Nat) : natural? (ofNat n) = some n := by
  simp only [natural?, ofNat_ne_nil, all_isDigit_ofNat, ne_eq, not_false_eq_true, and_self,
    ↓reduceIte, Option.some.injEq]
  exact Nat.ofDigitChars_ten_toDigits

end Pacing.Numeral
