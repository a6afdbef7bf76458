import Pacing.Json.Float

/-!
# Taking values apart

What typed readers of JSON share: integers in a range, truth values, lists, and records. A record
is an object, or an array of its fields in order. An object may have members that are no fields,
but every key must be readable and no field may occur twice.
-/

namespace Pacing.Json

/-- The integer of a number written without fraction and exponent. A negative zero is none. -/
def Number.toInt? (n : Number) : Option Int :=
  if n.fraction = [] ∧ n.exponent = none then
    let magnitude := Nat.ofDigitChars 10 n.integer 0
    if n.negative then (if magnitude = 0 then none else some (-(magnitude : Int)))
    else some magnitude
  else none

/-- The integer of a value. -/
def toInt? : Json → Option Int
  | .number n => n.toInt?
  | _ => none

/-- A signed integer of 64 bits. -/
def toInt64? (j : Json) : Option Int64 :=
  j.toInt?.bind fun n =>
    if Int64.minValue.toInt ≤ n ∧ n ≤ Int64.maxValue.toInt then some (Int64.ofInt n) else none

/-- A natural number below a limit. -/
def toNatBelow? (limit : Nat) (j : Json) : Option Nat :=
  j.toInt?.bind fun n => if 0 ≤ n ∧ n.toNat < limit then some n.toNat else none

/-- A truth value. -/
def toBool? : Json → Option Bool
  | .bool b => some b
  | _ => none

/-- A string that can be read. -/
def toText? : Json → Option String
  | .string s => s
  | _ => none

/-- The double of a number. -/
def toFloat? : Json → Option Float
  | .number n => n.toFloat?
  | _ => none

/-- The items of an array, each read alike. -/
def toList? {α : Type} (item? : Json → Option α) : Json → Option (List α)
  | .array items => items.mapM item?
  | _ => none

/-- Null, or what a reader makes of any other value. -/
def toOption? {α : Type} (value? : Json → Option α) : Json → Option (Option α)
  | .null => some none
  | j => (value? j).map some

/-- The members of an object whose keys can all be read. -/
def members? : Json → Option (List (String × Json))
  | .object members => members.mapM fun (key, value) => key.map fun key => (key, value)
  | _ => none

/-- The value of a field, if it is present; none when it occurs twice. -/
def field? (members : List (String × Json)) (name : String) : Option (Option Json) :=
  match members.filter (·.1 = name) with
  | [] => some none
  | [(_, value)] => some (some value)
  | _ => none

/-- The fields of a record by their names. Fields may be absent from an object and from the end of
an array. -/
def fields? (names : List String) : Json → Option (List (Option Json))
  | .array items =>
    if items.length ≤ names.length then
      some (items.map some ++ List.replicate (names.length - items.length) none)
    else none
  | j => j.members?.bind fun members => names.mapM (field? members)

/-- Whether a value can be read as a whole: every string is readable, no number is too large, and
containers are not nested deeper than `depth`. -/
def isReadable : Nat → Json → Bool
  | _, .null => true
  | _, .bool _ => true
  | _, .number n => n.toFloat?.isSome
  | _, .string s => s.isSome
  | depth + 1, .array items => items.all (isReadable depth)
  | depth + 1, .object members =>
    members.all fun (key, value) => key.isSome && isReadable depth value
  | 0, .array _ => false
  | 0, .object _ => false

/-- Reads a name out of a fixed set, written as a string, or as the one key of an object whose
value stands for nothing. -/
def toName? {α : Type} (ofName? : String → Option α) (isNothing : Json → Bool) : Json → Option α
  | .string s => s.bind ofName?
  | .object [(key, value)] => if isNothing value then key.bind ofName? else none
  | _ => none

/-- Null stands for nothing. -/
def isNull : Json → Bool
  | .null => true
  | _ => false

/-- Null stands for nothing, and so does an object without members. -/
def isNullOrEmpty : Json → Bool
  | .null => true
  | .object [] => true
  | _ => false

end Pacing.Json
