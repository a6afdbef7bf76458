import Mathlib
import Pacing.Json.Decode
import Pacing.Json.Printer
import Pacing.Json.Reader
import Pacing.Proofs.Numerals

/-!
# Written tokens are read back

The printer writes strings with escapes and numbers without superfluous zeros. A string ends with
its quote, so that anything may follow it. A number or a literal ends where no character that could
belong to it follows, as with everything that the printer writes after a value.
-/

namespace Pacing.Json

/-! ## Strings -/

/-- The piece that a written character is read as. -/
def pieceOf (c : Char) : Piece :=
  if c.toNat < 32 ∧ c ∉ ['\n', '\r', '\t', '\x08', '\x0c'] then .unit c.toNat else .char c

/-- A hexadecimal digit has the value that it was written for. -/
theorem hexValue?_hexDigit : ∀ n < 16, hexValue? (hexDigit n) = some n := by decide

/-- The code of a control character is read back from its last two digits. -/
theorem codeUnit?_of_lt {n : Nat} (hn : n < 32) :
    codeUnit? '0' '0' (hexDigit (n / 16)) (hexDigit (n % 16)) = some n := by
  have hzero : hexValue? '0' = some 0 := by decide
  simp [codeUnit?, hzero, hexValue?_hexDigit (n / 16) (by omega),
    hexValue?_hexDigit (n % 16) (by omega)]
  omega

/-- A character is escaped by a letter or a sign, escaped by its code, or stands for itself. -/
theorem escape_cases (c : Char) :
    (∃ d, escape c = ['\\', d] ∧ d ≠ 'u' ∧ unescape? d = some c ∧ pieceOf c = .char c) ∨
    (escape c = ['\\', 'u', '0', '0', hexDigit (c.toNat / 16), hexDigit (c.toNat % 16)] ∧
      c.toNat < 32 ∧ pieceOf c = .unit c.toNat) ∨
    (escape c = [c] ∧ c ≠ '"' ∧ c ≠ '\\' ∧ ¬c.toNat < 32 ∧ pieceOf c = .char c) := by
  by_cases hshort : c ∈ ['"', '\\', '\n', '\r', '\t', '\x08', '\x0c']
  · left
    simp only [List.mem_cons, List.not_mem_nil, or_false] at hshort
    rcases hshort with rfl | rfl | rfl | rfl | rfl | rfl | rfl <;>
      exact ⟨_, rfl, by decide, rfl, rfl⟩
  · right
    simp only [List.mem_cons, List.not_mem_nil, or_false, not_or] at hshort
    by_cases hcode : c.toNat < 32
    · left
      simp [escape, pieceOf, hshort, hcode]
    · right
      simp [escape, pieceOf, hshort, hcode]

/-- An escaped character is read as its piece. -/
theorem pieces?_escape (done : List Piece) (c : Char) (rest : List Char) :
    pieces? done (escape c ++ rest) = pieces? (pieceOf c :: done) rest := by
  rcases escape_cases c with ⟨d, hescape, hd, hunescape, hpiece⟩ | ⟨hescape, hcode, hpiece⟩ |
    ⟨hescape, hquote, hbackslash, hcode, hpiece⟩
  · simp [hescape, hpiece, pieces?, hd, hunescape]
  · simp [hescape, hpiece, pieces?, codeUnit?_of_lt hcode]
  · simp [hescape, hpiece, pieces?, hbackslash, hcode]

/-- The piece of a character is joined on as that character. -/
theorem joinPieces?_pieceOf (done : List Char) (c : Char) (rest : List Piece) :
    joinPieces? done (pieceOf c :: rest) = joinPieces? (c :: done) rest := by
  unfold pieceOf
  split
  · rename_i h
    have hhigh : isHighSurrogate c.toNat = false := by simp [isHighSurrogate]; omega
    have hlow : isLowSurrogate c.toNat = false := by simp [isLowSurrogate]; omega
    cases rest with
    | nil => simp [joinPieces?, hhigh, hlow, Char.ofNat_toNat]
    | cons p rest =>
      cases p with
      | char d => simp [joinPieces?, hhigh, hlow, Char.ofNat_toNat]
      | unit low => simp [joinPieces?, hhigh, hlow, Char.ofNat_toNat]
  · simp [joinPieces?]

/-- Escaped characters are read as their pieces, up to the closing quote. -/
theorem pieces?_quoted (done : List Piece) (cs rest : List Char) :
    pieces? done (cs.flatMap escape ++ '"' :: rest) =
      some (done.reverse ++ cs.map pieceOf, rest) := by
  induction cs generalizing done with
  | nil => simp [pieces?]
  | cons c cs ih =>
    rw [List.flatMap_cons, List.append_assoc, pieces?_escape, ih]
    simp

/-- The pieces of some characters are joined to those characters. -/
theorem joinPieces?_map_pieceOf (done cs : List Char) :
    joinPieces? done (cs.map pieceOf) = some (done.reverse ++ cs) := by
  induction cs generalizing done with
  | nil => simp [joinPieces?]
  | cons c cs ih =>
    rw [List.map_cons, joinPieces?_pieceOf, ih]
    simp

/-- A quoted string is cut off as one token, whatever follows it. -/
theorem tokens?_quoted (done : List Token) (s : String) (rest : List Char) :
    tokens? done (quoted s ++ rest) = tokens? (.string (some s) :: done) rest := by
  have hpieces : pieces? [] (s.toList.flatMap escape ++ '"' :: rest) =
      some (s.toList.map pieceOf, rest) := by simpa using pieces?_quoted [] s.toList rest
  have hjoin : (joinPieces? [] (s.toList.map pieceOf)).map String.ofList = some s := by
    simp [joinPieces?_map_pieceOf]
  rw [quoted, List.append_assoc, List.cons_append, List.singleton_append, tokens?]
  have hblank : isBlank '"' = false := by decide
  simp only [hblank, Bool.false_eq_true, if_false, if_true]
  split
  · rename_i us after hread
    rw [hpieces] at hread
    cases hread
    rw [hjoin]
  · rename_i hread
    rw [hpieces] at hread
    cases hread

/-! ## Numbers -/

/-- A numeral has no superfluous zero. -/
theorem length_ofNat_of_head?_eq_zero {n : Nat} (h : (Numeral.ofNat n).head? = some '0') :
    (Numeral.ofNat n).length = 1 := by
  have hn : n = 0 := by
    by_contra hn
    exact Numeral.head?_ofNat_ne_zero (Nat.pos_of_ne_zero hn) h
  rw [hn]
  rfl

/-- A number that can be read as it is written: no superfluous zero comes first, and only digits
stand before and behind the point. -/
structure Number.Canonical (n : Number) : Prop where
  integer_ne_nil : n.integer ≠ []
  isDigit_integer : ∀ c ∈ n.integer, c.isDigit = true
  length_of_zero : n.integer.head? = some '0' → n.integer.length = 1
  isDigit_fraction : ∀ c ∈ n.fraction, c.isDigit = true

/-- The number of an integer is canonical. -/
theorem Number.canonical_ofInt (n : Int) : (Number.ofInt n).Canonical where
  integer_ne_nil := Numeral.ofNat_ne_nil n.natAbs
  isDigit_integer := List.all_eq_true.mp (Numeral.all_isDigit_ofNat n.natAbs)
  length_of_zero := length_ofNat_of_head?_eq_zero
  isDigit_fraction := List.forall_mem_nil _

/-- How the exponent of a number is written. -/
def Number.exponentChars : Option Int → List Char
  | none => []
  | some e => 'e' :: (if e < 0 then '-' else '+') :: Numeral.ofNat e.natAbs

/-- What is written behind the whole part of a number. -/
def Number.tailChars (n : Number) : List Char :=
  (if n.fraction = [] then [] else '.' :: n.fraction) ++ exponentChars n.exponent

/-- A number is written as its sign, its whole part and what comes behind it. -/
theorem Number.toChars_eq (n : Number) :
    n.toChars = (if n.negative then ['-'] else []) ++ (n.integer ++ n.tailChars) := by
  obtain ⟨negative, integer, fraction, exponent⟩ := n
  cases exponent <;> simp [toChars, tailChars, exponentChars]

/-- An exponent does not begin with a digit. -/
theorem Number.head?_exponentChars (e : Option Int) :
    ∀ c ∈ (exponentChars e).head?, c.isDigit = false := by
  cases e <;> simp [exponentChars]

/-- What comes behind the whole part does not begin with a digit. -/
theorem Number.head?_tailChars (n : Number) : ∀ c ∈ n.tailChars.head?, c.isDigit = false := by
  by_cases hfraction : n.fraction = []
  · simpa [tailChars, hfraction] using head?_exponentChars n.exponent
  · simp [tailChars, hfraction]

/-- An exponent is read back from what is written. -/
theorem exponent?_exponentChars (e : Option Int) :
    exponent? (Number.exponentChars e) = some e := by
  cases e with
  | none => rfl
  | some e =>
    rcases lt_or_ge e 0 with he | he
    · simp [Number.exponentChars, exponent?, Numeral.signed?, Numeral.natural?_ofNat, he,
        abs_of_neg he]
    · simp [Number.exponentChars, exponent?, Numeral.signed?, Numeral.natural?_ofNat, not_lt.mpr he,
        abs_of_nonneg he]

/-- A run of characters of one kind ends where the kind does. -/
theorem takeWhile_append_of_head {p : Char → Bool} {cs rest : List Char} (hcs : ∀ c ∈ cs, p c)
    (hrest : ∀ c ∈ rest.head?, p c = false) :
    (cs ++ rest).takeWhile p = cs ∧ (cs ++ rest).dropWhile p = rest := by
  have hnext : rest.takeWhile p = [] ∧ rest.dropWhile p = rest := by
    cases rest with
    | nil => exact ⟨rfl, rfl⟩
    | cons c rest =>
      have hc := hrest c rfl
      exact ⟨List.takeWhile_cons_of_neg (by simp [hc]), List.dropWhile_cons_of_neg (by simp [hc])⟩
  rw [List.takeWhile_append_of_pos hcs, List.dropWhile_append_of_pos hcs, hnext.1, hnext.2,
    List.append_nil]
  exact ⟨rfl, rfl⟩

/-- The whole part of a canonical number does not begin with a minus sign. -/
theorem Number.head?_integer_append {n : Number} (hn : n.Canonical) (rest : List Char) :
    (n.integer ++ rest).head? ≠ some '-' := by
  rw [List.head?_append_of_ne_nil _ hn.integer_ne_nil]
  intro hhead
  exact absurd (hn.isDigit_integer '-' (List.mem_of_mem_head? hhead)) (by decide)

/-- A canonical number passes the check for superfluous zeros. -/
theorem Number.no_zero_first {n : Number} (hn : n.Canonical) :
    ¬(n.integer = [] ∨ 1 < n.integer.length ∧ n.integer.head? = some '0') := by
  rintro (hnil | ⟨hlength, hhead⟩)
  · exact hn.integer_ne_nil hnil
  · rw [hn.length_of_zero hhead] at hlength
    exact absurd hlength (by decide)

/-- Without a fraction, an exponent stands right behind the whole part. -/
theorem Number.tailChars_of_nil {n : Number} (hfraction : n.fraction = []) :
    n.tailChars = exponentChars n.exponent := by
  rw [tailChars, if_pos hfraction, List.nil_append]

/-- A fraction is written behind a point. -/
theorem Number.tailChars_of_ne_nil {n : Number} (hfraction : n.fraction ≠ []) :
    n.tailChars = '.' :: (n.fraction ++ exponentChars n.exponent) := by
  rw [tailChars, if_neg hfraction, List.cons_append]

/-- A canonical number is read back from what is written. -/
theorem Number.ofChars?_toChars {n : Number} (hn : n.Canonical) :
    Number.ofChars? n.toChars = some n := by
  obtain ⟨htake, hdrop⟩ := takeWhile_append_of_head hn.isDigit_integer n.head?_tailChars
  have hsign : decide (n.toChars.head? = some '-') = n.negative := by
    rw [n.toChars_eq]
    cases n.negative <;> simp [-List.head?_append, head?_integer_append hn]
  have hunsigned : (if n.toChars.head? = some '-' then n.toChars.tail else n.toChars) =
      n.integer ++ n.tailChars := by
    rw [n.toChars_eq]
    cases n.negative <;> simp [-List.head?_append, head?_integer_append hn]
  simp only [ofChars?, hsign, hunsigned, htake, hdrop, if_neg (no_zero_first hn)]
  obtain ⟨negative, integer, fraction, exponent⟩ := n
  by_cases hfraction : fraction = []
  · subst hfraction
    cases exponent with
    | none => rfl
    | some e =>
      have hread := exponent?_exponentChars (some e)
      rw [exponentChars] at hread
      simp [tailChars_of_nil, exponentChars, hread]
  · obtain ⟨htake, hdrop⟩ := takeWhile_append_of_head hn.isDigit_fraction
      (head?_exponentChars exponent)
    rw [tailChars_of_ne_nil hfraction]
    simp [htake, hdrop, hfraction, exponent?_exponentChars]

/-- An integer is read back from its number. -/
theorem Number.toInt?_ofInt (n : Int) : (Number.ofInt n).toInt? = some n := by
  have hmagnitude : Nat.ofDigitChars 10 (Numeral.ofNat n.natAbs) 0 = n.natAbs :=
    Nat.ofDigitChars_ten_toDigits
  simp only [Number.toInt?, Number.ofInt, hmagnitude, and_self, if_true, decide_eq_true_eq]
  split
  · rw [if_neg (by omega), Option.some.injEq]
    omega
  · rw [Option.some.injEq]
    omega

/-! ## Tokens -/

/-- What may follow a value: nothing, a blank, or what closes or goes on with a container. -/
def Ends (rest : List Char) : Prop :=
  ∀ c ∈ rest.head?, isBlank c = true ∨ c = ',' ∨ c = ']' ∨ c = '}'

/-- What may follow a value continues neither a number nor a literal. -/
theorem Ends.head_not {rest : List Char} (h : Ends rest) :
    ∀ c ∈ rest.head?, isNumberChar c = false ∧ c.isAlpha = false := by
  intro c hc
  have hblank : ∀ c, isBlank c = true → c = ' ' ∨ c = '\t' ∨ c = '\n' ∨ c = '\r' := by
    simp [isBlank, or_assoc]
  rcases h c hc with hb | rfl | rfl | rfl
  · rcases hblank c hb with rfl | rfl | rfl | rfl <;> decide
  · decide
  · decide
  · decide

/-- Blanks before a token are passed over. -/
theorem tokens?_blanks {blanks : List Char} (hblanks : ∀ c ∈ blanks, isBlank c = true)
    (done : List Token) (rest : List Char) : tokens? done (blanks ++ rest) = tokens? done rest := by
  induction blanks with
  | nil => rfl
  | cons c blanks ih =>
    rw [List.cons_append, tokens?, if_pos (hblanks c List.mem_cons_self)]
    exact ih fun d hd => hblanks d (List.mem_cons_of_mem _ hd)

/-- A punctuation mark is cut off as its token, whatever follows it. -/
theorem tokens?_punctuation {c : Char} {t : Token} (ht : punctuation? c = some t)
    (done : List Token) (rest : List Char) :
    tokens? done (c :: rest) = tokens? (t :: done) rest := by
  have hc : c = '[' ∨ c = ']' ∨ c = '{' ∨ c = '}' ∨ c = ',' ∨ c = ':' := by
    unfold punctuation? at ht
    grind
  have hblank : isBlank c = false ∧ c ≠ '"' := by
    rcases hc with rfl | rfl | rfl | rfl | rfl | rfl <;> decide
  rw [tokens?, hblank.1, if_neg (by decide), if_neg hblank.2, ht]

/-- A literal is cut off as its token where a value may end. -/
theorem tokens?_literal (done : List Token) {cs : List Char} {t : Token} (ht : literal? cs = some t)
    {rest : List Char} (hrest : Ends rest) :
    tokens? done (cs ++ rest) = tokens? (t :: done) rest := by
  obtain ⟨c, letters, hcs, hletters, hother⟩ : ∃ c letters, cs = c :: letters ∧
      (∀ d ∈ letters, d.isAlpha = true) ∧
      isBlank c = false ∧ c ≠ '"' ∧ punctuation? c = none ∧ c.isAlpha = true := by
    unfold literal? at ht
    split at ht
    · exact ⟨'n', ['u', 'l', 'l'], by assumption, List.all_eq_true.mp rfl,
        by decide, by decide, rfl, by decide⟩
    split at ht
    · exact ⟨'t', ['r', 'u', 'e'], by assumption, List.all_eq_true.mp rfl,
        by decide, by decide, rfl, by decide⟩
    split at ht
    · exact ⟨'f', ['a', 'l', 's', 'e'], by assumption, List.all_eq_true.mp rfl,
        by decide, by decide, rfl, by decide⟩
    · cases ht
  obtain ⟨hblank, hquote, hpunctuation, halpha⟩ := hother
  obtain ⟨htake, hdrop⟩ := takeWhile_append_of_head (p := Char.isAlpha) hletters
    fun d hd => (hrest.head_not d hd).2
  subst hcs
  rw [List.cons_append, tokens?, hblank, if_neg (by decide), if_neg hquote, hpunctuation]
  simp only [halpha, if_true, htake, hdrop, ht]

/-- Digits may occur in numbers. -/
theorem isNumberChar_of_isDigit {c : Char} (hc : c.isDigit = true) : isNumberChar c = true := by
  rw [isNumberChar, hc, Bool.true_or]

/-- An exponent is written in characters that may occur in numbers. -/
theorem Number.isNumberChar_exponentChars (e : Option Int) :
    ∀ c ∈ exponentChars e, isNumberChar c = true := by
  cases e with
  | none => exact List.forall_mem_nil _
  | some e =>
    have hsign : isNumberChar (if e < 0 then '-' else '+') = true := by split <;> decide
    refine List.forall_mem_cons.mpr ⟨by decide, List.forall_mem_cons.mpr ⟨hsign, ?_⟩⟩
    exact fun c hc => isNumberChar_of_isDigit
      (List.all_eq_true.mp (Numeral.all_isDigit_ofNat _) c hc)

/-- What comes behind the whole part of a canonical number is written in such characters. -/
theorem Number.isNumberChar_tailChars {n : Number} (hn : n.Canonical) :
    ∀ c ∈ n.tailChars, isNumberChar c = true := by
  have hexponent := isNumberChar_exponentChars n.exponent
  by_cases hfraction : n.fraction = []
  · rwa [tailChars_of_nil hfraction]
  · rw [tailChars_of_ne_nil hfraction, List.forall_mem_cons, List.forall_mem_append]
    exact ⟨by decide, fun c hc => isNumberChar_of_isDigit (hn.isDigit_fraction c hc), hexponent⟩

/-- A number begins with a digit or a sign, and all its characters are those of numbers. -/
theorem Number.exists_toChars_eq_cons {n : Number} (hn : n.Canonical) :
    ∃ c more, n.toChars = c :: more ∧ (∀ d ∈ more, isNumberChar d = true) ∧
      (c = '-' ∨ c.isDigit = true) := by
  have hdigits := hn.isDigit_integer
  obtain ⟨c, digits, hcs⟩ := List.exists_cons_of_ne_nil hn.integer_ne_nil
  have hnumber : ∀ d ∈ n.integer ++ n.tailChars, isNumberChar d = true :=
    List.forall_mem_append.mpr
      ⟨fun d hd => isNumberChar_of_isDigit (hdigits d hd), isNumberChar_tailChars hn⟩
  rw [n.toChars_eq]
  cases n.negative with
  | true => exact ⟨'-', n.integer ++ n.tailChars, rfl, hnumber, .inl rfl⟩
  | false =>
    rw [hcs] at hdigits hnumber ⊢
    exact ⟨c, digits ++ n.tailChars, rfl, (List.forall_mem_cons.mp hnumber).2,
      .inr (hdigits c List.mem_cons_self)⟩

/-- Neither a digit nor a sign can be taken for another token. -/
theorem not_other_of_digit {c : Char} (hc : c = '-' ∨ c.isDigit = true) :
    isBlank c = false ∧ c ≠ '"' ∧ punctuation? c = none ∧ c.isAlpha = false := by
  rcases hc with rfl | hc
  · exact ⟨by decide, by decide, rfl, by decide⟩
  · have hne : ∀ d : Char, d.isDigit = false → c ≠ d := by
      rintro d hd rfl
      rw [hd] at hc
      cases hc
    have halpha : c.isAlpha = false := by
      grind [Char.isAlpha, Char.isUpper, Char.isLower, Char.isDigit]
    refine ⟨?_, hne '"' (by decide), ?_, halpha⟩
    · simp [isBlank, hne ' ' (by decide), hne '\t' (by decide), hne '\n' (by decide),
        hne '\r' (by decide)]
    · simp [punctuation?, hne '[' (by decide), hne ']' (by decide), hne '{' (by decide),
        hne '}' (by decide), hne ',' (by decide), hne ':' (by decide)]

/-- A canonical number is cut off as its token where a value may end. -/
theorem tokens?_number (done : List Token) {n : Number} (hn : n.Canonical) {rest : List Char}
    (hrest : Ends rest) :
    tokens? done (n.toChars ++ rest) = tokens? (.number n :: done) rest := by
  obtain ⟨c, more, hcs, hmore, hc⟩ := Number.exists_toChars_eq_cons hn
  obtain ⟨hblank, hquote, hpunctuation, halpha⟩ := not_other_of_digit hc
  obtain ⟨htake, hdrop⟩ := takeWhile_append_of_head (p := isNumberChar) hmore
    fun d hd => (hrest.head_not d hd).1
  have hread := Number.ofChars?_toChars hn
  rw [hcs] at hread
  rw [hcs, List.cons_append, tokens?, hblank, if_neg (by decide), if_neg hquote, hpunctuation]
  simp only [halpha, Bool.false_eq_true, if_false, htake, hdrop, hread]

end Pacing.Json
