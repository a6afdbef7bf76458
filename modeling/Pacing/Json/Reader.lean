import Pacing.Json.Token

/-!
# Reading JSON

The second step of reading builds a value from tokens. Containers in progress are kept as a list of
frames, innermost first, so that any depth of nesting is data.
-/

namespace Pacing.Json

/-- A container in progress, its parts in reverse. -/
inductive Frame where
  /-- An array with the items read so far. -/
  | array (items : List Json)
  /-- An object with the members read so far and the key of the member being read. -/
  | object (members : List (Option String × Json)) (key : Option String)

mutual

/-- Reads the value that must come next. -/
def readValue? (frames : List Frame) : List Token → Option Json
  | .null :: rest => readAfter? frames .null rest
  | .bool b :: rest => readAfter? frames (.bool b) rest
  | .number n :: rest => readAfter? frames (.number n) rest
  | .string s :: rest => readAfter? frames (.string s) rest
  | .openArray :: .closeArray :: rest => readAfter? frames (.array []) rest
  | .openArray :: rest => readValue? (.array [] :: frames) rest
  | .openObject :: .closeObject :: rest => readAfter? frames (.object []) rest
  | .openObject :: .string key :: .colon :: rest => readValue? (.object [] key :: frames) rest
  | _ => none

/-- Goes on after a complete value. -/
def readAfter? (frames : List Frame) (value : Json) : List Token → Option Json
  | [] => if frames.isEmpty then some value else none
  | token :: rest =>
    match frames, token with
    | .array items :: outer, .comma => readValue? (.array (value :: items) :: outer) rest
    | .array items :: outer, .closeArray =>
      readAfter? outer (.array (value :: items).reverse) rest
    | .object members key :: outer, .comma =>
      match rest with
      | .string next :: .colon :: rest =>
        readValue? (.object ((key, value) :: members) next :: outer) rest
      | _ => none
    | .object members key :: outer, .closeObject =>
      readAfter? outer (.object ((key, value) :: members).reverse) rest
    | _, _ => none

end

/-- Reads the one value that a text holds. -/
def ofChars? (cs : List Char) : Option Json := (tokens? [] cs).bind (readValue? [])

/-- Reads the one value that a text holds. -/
def parse? (text : String) : Option Json := ofChars? text.toList

end Pacing.Json
