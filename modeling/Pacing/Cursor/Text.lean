import Pacing.Cursor
import Pacing.Numeral

/-!
# The text of a cursor

A cursor is written as its timestamp, a hyphen and its sequence number. The hyphen is also the
minus sign of an early timestamp, so reading splits the text at its last hyphen.
-/

namespace Pacing.Cursor

/-- The parts of a text before and after the last occurrence of `sep`. -/
def splitLast? (sep : Char) : List Char → Option (List Char × List Char)
  | [] => none
  | c :: cs =>
    match splitLast? sep cs with
    | some (before, after) => some (c :: before, after)
    | none => if c = sep then some ([], cs) else none

/-- The characters of a cursor's text. -/
def toChars (c : Cursor) : List Char :=
  Numeral.ofInt c.ts.toInt ++ '-' :: Numeral.ofNat c.seq.toNat

/-- Reads a cursor from its characters. -/
def ofChars? (cs : List Char) : Option Cursor := do
  let (before, after) ← splitLast? '-' cs
  let ts ← Numeral.int64? before
  let seq ← Numeral.uint32? after
  return ⟨ts, seq⟩

/-- The text of a cursor. -/
def render (c : Cursor) : String := String.ofList c.toChars

/-- The cause of a failed reading: the text that is no cursor. -/
structure ParseError where
  /-- The text as it was given. -/
  text : String
deriving DecidableEq, Repr

/-- The wording of a failed reading. -/
def ParseError.message (e : ParseError) : String := s!"invalid event cursor: {e.text}"

/-- Reads a cursor from its text. -/
def parse (text : String) : Except ParseError Cursor :=
  match ofChars? text.toList with
  | some c => .ok c
  | none => .error ⟨text⟩

end Pacing.Cursor
