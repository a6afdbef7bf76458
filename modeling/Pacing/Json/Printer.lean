import Pacing.Json

/-!
# Writing JSON

Two layouts of one value: compact, without any blank, and indented, with each item and each member
on a line of its own and two blanks for each level.
-/

namespace Pacing.Json

/-- A hexadecimal digit. -/
def hexDigit (n : Nat) : Char := n.digitChar

/-- How a character is written inside a string. Quotes, backslashes and control characters are
escaped, all else stands for itself. -/
def escape (c : Char) : List Char :=
  if c = '"' then ['\\', '"']
  else if c = '\\' then ['\\', '\\']
  else if c = '\n' then ['\\', 'n']
  else if c = '\r' then ['\\', 'r']
  else if c = '\t' then ['\\', 't']
  else if c = '\x08' then ['\\', 'b']
  else if c = '\x0c' then ['\\', 'f']
  else if c.toNat < 32 then
    ['\\', 'u', '0', '0', hexDigit (c.toNat / 16), hexDigit (c.toNat % 16)]
  else [c]

/-- A string in quotes. -/
def quoted (s : String) : List Char := '"' :: s.toList.flatMap escape ++ ['"']

/-- A number as it is written. An exponent always has a sign. -/
def Number.toChars (n : Number) : List Char :=
  (if n.negative then ['-'] else []) ++ n.integer ++
    (if n.fraction = [] then [] else '.' :: n.fraction) ++
    (match n.exponent with
      | none => []
      | some e => 'e' :: (if e < 0 then '-' else '+') :: Numeral.ofNat e.natAbs)

/-- How the parts of a value are set apart. -/
structure Layout where
  /-- What stands between the bracket or comma before a part and that part, by its depth. -/
  before : Nat → List Char
  /-- What stands between a key's colon and its value. -/
  afterColon : List Char

/-- Nothing stands between the parts. -/
def Layout.compact : Layout := ⟨fun _ => [], []⟩

/-- Each part stands on a line of its own, two blanks to the right for each level. -/
def Layout.indented : Layout := ⟨fun depth => '\n' :: List.replicate (2 * depth) ' ', [' ']⟩

mutual

/-- Writes a value at some depth. An unreadable string is written as an empty one. -/
def print (layout : Layout) (depth : Nat) : Json → List Char
  | .null => ['n', 'u', 'l', 'l']
  | .bool true => ['t', 'r', 'u', 'e']
  | .bool false => ['f', 'a', 'l', 's', 'e']
  | .number n => n.toChars
  | .string s => quoted (s.getD "")
  | .array [] => ['[', ']']
  | .array (item :: items) =>
    '[' :: layout.before (depth + 1) ++ print layout (depth + 1) item ++
      printItems layout depth items
  | .object [] => ['{', '}']
  | .object (member :: members) =>
    '{' :: layout.before (depth + 1) ++ printMember layout depth member ++
      printMembers layout depth members

/-- Writes the items after the first and the closing bracket. -/
def printItems (layout : Layout) (depth : Nat) : List Json → List Char
  | [] => layout.before depth ++ [']']
  | item :: items =>
    ',' :: layout.before (depth + 1) ++ print layout (depth + 1) item ++
      printItems layout depth items

/-- Writes a key with its value. -/
def printMember (layout : Layout) (depth : Nat) : Option String × Json → List Char
  | (key, value) =>
    quoted (key.getD "") ++ ':' :: layout.afterColon ++ print layout (depth + 1) value

/-- Writes the members after the first and the closing brace. -/
def printMembers (layout : Layout) (depth : Nat) : List (Option String × Json) → List Char
  | [] => layout.before depth ++ ['}']
  | member :: members =>
    ',' :: layout.before (depth + 1) ++ printMember layout depth member ++
      printMembers layout depth members

end

/-- The compact text of a value. -/
def compact (j : Json) : String := String.ofList (print .compact 0 j)

/-- The indented text of a value. -/
def pretty (j : Json) : String := String.ofList (print .indented 0 j)

end Pacing.Json
