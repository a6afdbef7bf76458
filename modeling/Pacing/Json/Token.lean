import Pacing.Json

/-!
# JSON tokens

Text is read in two steps, of which this is the first: it cuts text into brackets, commas, colons,
literals, numbers and strings. Each token takes at least one character, so cutting comes to an end.
-/

namespace Pacing.Json

/-- A piece of JSON text. -/
inductive Token where
  | openArray
  | closeArray
  | openObject
  | closeObject
  | comma
  | colon
  | null
  | bool (b : Bool)
  | number (n : Number)
  | string (text : Option String)

/-- A piece of a string: a character, or a code unit given by its four digits. -/
inductive Piece where
  | char (c : Char)
  | unit (code : Nat)

/-- The value of a hexadecimal digit. -/
def hexValue? (c : Char) : Option Nat :=
  if c.isDigit then some (c.toNat - '0'.toNat)
  else if 'a' ≤ c ∧ c ≤ 'f' then some (c.toNat - 'a'.toNat + 10)
  else if 'A' ≤ c ∧ c ≤ 'F' then some (c.toNat - 'A'.toNat + 10)
  else none

/-- The code unit of four hexadecimal digits. -/
def codeUnit? (a b c d : Char) : Option Nat := do
  return ((← hexValue? a) * 16 + (← hexValue? b)) * 256 + ((← hexValue? c) * 16 + (← hexValue? d))

/-- What a character after a backslash stands for. -/
def unescape? (c : Char) : Option Char :=
  if c = '"' ∨ c = '\\' ∨ c = '/' then some c
  else if c = 'b' then some '\x08'
  else if c = 'f' then some '\x0c'
  else if c = 'n' then some '\n'
  else if c = 'r' then some '\r'
  else if c = 't' then some '\t'
  else none

/-- Reads the pieces of a string up to its closing quote, and what follows the quote. The pieces
read so far come in reverse. -/
def pieces? (done : List Piece) : List Char → Option (List Piece × List Char)
  | '"' :: rest => some (done.reverse, rest)
  | '\\' :: 'u' :: a :: b :: c :: d :: rest =>
    match codeUnit? a b c d with
    | some code => pieces? (.unit code :: done) rest
    | none => none
  | '\\' :: c :: rest =>
    match unescape? c with
    | some c => pieces? (.char c :: done) rest
    | none => none
  | c :: rest => if c.toNat < 32 then none else pieces? (.char c :: done) rest
  | [] => none

/-- Whether a code unit is the first half of a surrogate pair. -/
def isHighSurrogate (code : Nat) : Bool := 0xD800 ≤ code && code < 0xDC00

/-- Whether a code unit is the second half of a surrogate pair. -/
def isLowSurrogate (code : Nat) : Bool := 0xDC00 ≤ code && code < 0xE000

/-- The characters that pieces stand for; none when half of a surrogate pair stands alone. The
characters read so far come in reverse. -/
def joinPieces? (done : List Char) : List Piece → Option (List Char)
  | [] => some done.reverse
  | .char c :: rest => joinPieces? (c :: done) rest
  | .unit high :: .unit low :: rest =>
    if isHighSurrogate high then
      if isLowSurrogate low then
        let code := 0x10000 + (high - 0xD800) * 0x400 + (low - 0xDC00)
        joinPieces? (Char.ofNat code :: done) rest
      else none
    else if isLowSurrogate high then none
    else joinPieces? (Char.ofNat high :: done) (.unit low :: rest)
  | .unit code :: rest =>
    if isHighSurrogate code || isLowSurrogate code then none
    else joinPieces? (Char.ofNat code :: done) rest

/-- Whether a character can be part of a number. -/
def isNumberChar (c : Char) : Bool := c.isDigit || "+-.eE".toList.contains c

/-- Reads what follows the digits of a number: nothing, or an exponent. -/
def exponent? : List Char → Option (Option Int)
  | [] => some none
  | c :: rest => if c = 'e' ∨ c = 'E' then (Numeral.signed? rest).map some else none

/-- Reads a number. Its whole part has no superfluous zero, and a point has digits after it. -/
def Number.ofChars? (cs : List Char) : Option Number := do
  let negative := cs.head? = some '-'
  let cs := if negative then cs.tail else cs
  let integer := cs.takeWhile Char.isDigit
  if integer = [] ∨ 1 < integer.length ∧ integer.head? = some '0' then none
  match cs.dropWhile Char.isDigit with
  | '.' :: rest =>
    let fraction := rest.takeWhile Char.isDigit
    if fraction = [] then none
    let exponent ← exponent? (rest.dropWhile Char.isDigit)
    return { negative, integer, fraction, exponent }
  | rest =>
    let exponent ← exponent? rest
    return { negative, integer, exponent }

/-- The literal of some letters. -/
def literal? (cs : List Char) : Option Token :=
  if cs = ['n', 'u', 'l', 'l'] then some .null
  else if cs = ['t', 'r', 'u', 'e'] then some (.bool true)
  else if cs = ['f', 'a', 'l', 's', 'e'] then some (.bool false)
  else none

/-- The blanks that may stand between tokens. -/
def isBlank (c : Char) : Bool := c == ' ' || c == '\t' || c == '\n' || c == '\r'

/-- The token of a character that is a token by itself. -/
def punctuation? (c : Char) : Option Token :=
  if c = '[' then some .openArray
  else if c = ']' then some .closeArray
  else if c = '{' then some .openObject
  else if c = '}' then some .closeObject
  else if c = ',' then some .comma
  else if c = ':' then some .colon
  else none

/-- Reading a text up to its closing quote leaves fewer characters than there were. -/
theorem length_of_pieces? {done us : List Piece} {cs rest : List Char}
    (h : pieces? done cs = some (us, rest)) : rest.length < cs.length := by
  fun_induction pieces? done cs with
  | case1 done cs =>
    simp only [Option.some.injEq, Prod.mk.injEq] at h
    simp [← h.2]
  | case2 done a b c d cs code hcode ih =>
    have := ih h
    simp only [List.length_cons]
    omega
  | case3 => simp at h
  | case4 done c cs _ c' hc ih =>
    have := ih h
    simp only [List.length_cons]
    omega
  | case5 => simp at h
  | case6 => simp at h
  | case7 done c cs _ _ _ hc ih =>
    have := ih h
    simp only [List.length_cons]
    omega
  | case8 => simp at h

/-- Dropping characters does not make a list longer. -/
theorem length_dropWhile_le (p : Char → Bool) (cs : List Char) :
    (cs.dropWhile p).length ≤ cs.length :=
  (List.dropWhile_sublist p).length_le

/-- Cuts text into tokens; none when some part is no token. The tokens read so far come in
reverse. -/
def tokens? (done : List Token) : List Char → Option (List Token)
  | [] => some done.reverse
  | c :: rest =>
    if isBlank c then tokens? done rest
    else if c = '"' then
      match h : pieces? [] rest with
      | some (us, after) =>
        have := length_of_pieces? h
        tokens? (.string ((joinPieces? [] us).map String.ofList) :: done) after
      | none => none
    else
      match punctuation? c with
      | some t => tokens? (t :: done) rest
      | none =>
        if c.isAlpha then
          match literal? (c :: rest.takeWhile Char.isAlpha) with
          | some t =>
            have := length_dropWhile_le Char.isAlpha rest
            tokens? (t :: done) (rest.dropWhile Char.isAlpha)
          | none => none
        else
          match Number.ofChars? (c :: rest.takeWhile isNumberChar) with
          | some n =>
            have := length_dropWhile_le isNumberChar rest
            tokens? (.number n :: done) (rest.dropWhile isNumberChar)
          | none => none
termination_by cs => cs.length
decreasing_by all_goals simp only [List.length_cons]; omega

end Pacing.Json
