import Pacing.Store.Error

/-!
# Cells

A table holds cells, and a cell holds a value of any kind, whatever its column is for. All cells
stand in one order: null first, then the numbers by value, then the texts by code point, then the
blobs by byte.
-/

namespace Pacing.Store

-- Powers are those of the core library, whatever else is in scope.
attribute [local instance (high)] instPowNat instNatPowNat

/-- What one place of a table holds. -/
inductive Cell where
  | null
  /-- A whole number of 64 bits. -/
  | integer (n : Int)
  /-- A double other than NaN. -/
  | real (x : Float)
  | text (s : String)
  | blob (bytes : List UInt8)
deriving DecidableEq, Repr, Inhabited

/-- Whether a whole number has 64 bits. -/
def FitsWord (n : Int) : Prop := Int64.minValue.toInt ≤ n ∧ n ≤ Int64.maxValue.toInt

instance (n : Int) : Decidable (FitsWord n) := by unfold FitsWord; infer_instance

namespace Cell

/-- The kind of value that a cell holds. -/
def kind : Cell → CellKind
  | null => .null
  | integer _ => .integer
  | real _ => .real
  | text _ => .text
  | blob _ => .blob

/-- The cell of a double. NaN is held as null. -/
def ofFloat (x : Float) : Cell := if x.isNaN then null else real x

/-- The cell of a truth value. -/
def ofBool (b : Bool) : Cell := integer (if b then 1 else 0)

/-- The unit in which every finite double is a whole number, as a part of one. -/
def grain : Nat := 2 ^ (1074 : Nat)

/-- A double in grains. Infinities count as the next power of two after the finite doubles. -/
def grains (x : Float) : Int :=
  let bits := x.toBits.toNat
  let exponent := bits / 2 ^ (52 : Nat) % 2 ^ (11 : Nat)
  let fraction := bits % 2 ^ (52 : Nat)
  let size : Nat := if exponent = 0 then fraction else (fraction + 2 ^ (52 : Nat)) * 2 ^ (exponent - 1)
  if bits < 2 ^ (63 : Nat) then size else -size

/-- The place of a cell's kind in the order; numbers share one. -/
def rank : Cell → Nat
  | null => 0
  | integer _ => 1
  | real _ => 1
  | text _ => 2
  | blob _ => 3

/-- The whole part of a number, rounded down. -/
def whole : Cell → Int
  | integer n => n
  | real x => grains x / grain
  | _ => 0

/-- What a number exceeds its whole part by, in grains. -/
def part : Cell → Int
  | real x => grains x % grain
  | _ => 0

/-- The characters of a text. -/
def characters : Cell → String
  | text s => s
  | _ => ""

/-- The bytes of a blob. -/
def bytes : Cell → List UInt8
  | blob bytes => bytes
  | _ => []

instance : Ord Cell :=
  ⟨compareLex (compareOn rank) <| compareLex (compareOn whole) <| compareLex (compareOn part) <|
    compareLex (compareOn characters) (compareOn bytes)⟩

instance : Std.TransOrd Cell :=
  inferInstanceAs <| Std.TransCmp <|
    compareLex (compareOn rank) <| compareLex (compareOn whole) <| compareLex (compareOn part) <|
      compareLex (compareOn characters) (compareOn bytes)

/-- Whole numbers are ordered as such. -/
theorem compare_integer (m n : Int) : compare (integer m) (integer n) = compare m n := by
  show compareLex _ _ _ _ = _
  simp [compareLex, compareOn, rank, whole, part, characters, bytes]

/-- Texts are ordered as such. -/
theorem compare_text (s t : String) : compare (text s) (text t) = compare s t := by
  show compareLex _ _ _ _ = _
  simp [compareLex, compareOn, rank, whole, part, characters, bytes]

end Cell

end Pacing.Store
