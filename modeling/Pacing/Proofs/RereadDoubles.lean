import Pacing.Json.Float
import Pacing.Proofs.DoubleArithmetic
import Pacing.Proofs.SnapshotText
import Pacing.Proofs.JsonDoubles

/-!
# Doubles that are read back

The reader of numbers takes all digits as one whole number and scales it by a power of ten, in the
arithmetic of doubles. Where both are doubles there is one rounding only, so the number is read as
the double nearest to it. A number that a double was written as has it for the nearest, and so a
double whose digits are few is read back as it was.
-/

namespace Pacing.Json

namespace Number

open Double Float.Model.UnpackedFloat

-- Powers are those of the core library, whatever else is in scope.
attribute [local instance (high)] instPowNat instNatPowNat

variable {z : Float} {k s : Nat} {t e : Int}

/-- All digits of a number as one whole number. -/
def significand (n : Number) : Nat := Nat.ofDigitChars 10 (n.integer ++ n.fraction) 0

/-- The power of ten that the last digit of a number stands for. -/
def power (n : Number) : Int := n.exponent.getD 0 - n.fraction.length

/-- A significand and a power of ten that are doubles are scaled to the double nearest to their
product. -/
theorem scale?_eq (hs : 0 < s) (hlt : s < 2 ^ (53 : Nat)) (hlow : -22 ≤ e) (hhigh : e ≤ 22)
    (hz : Parts z .positive k t) (hv : Rounds k t (s * 10 ^ e)) :
    scale? (UInt64.ofNat s).toFloat e = some z := by
  have hlog : s.log2 < 53 := (Nat.log2_lt hs.ne').mpr hlt
  have hnormal := normal_ofNat hs hlt
  have hvalue := fill_mul_zpow hs hlt
  have hfinite : z.isInf = false := by
    change z.toModel.unpack.isInf = false
    rw [hz.unpack]
    rfl
  rcases lt_trichotomy e 0 with he | rfl | he
  · obtain ⟨j, rfl⟩ : ∃ j : Nat, e = -j := ⟨e.natAbs, by omega⟩
    have hquotient : (UInt64.ofNat s).toFloat / Float.ofScientific 1 false j = z := by
      refine div_eq hnormal (normal_powerOfTen (by omega)) hz ?_ ?_
      · have hlog' := log2_powerOfFive (k := j) (by omega)
        omega
      · rw [hvalue, powerOfTen_value (by omega)]
        rwa [zpow_neg, zpow_natCast, ← div_eq_mul_inv] at hv
    rw [scale?, if_neg (by omega), if_neg (by omega), dif_pos (by omega), neg_neg,
      Int.toNat_natCast, hquotient]
  · have hself : (UInt64.ofNat s).toFloat = z := by
      refine eq_of_rounds hnormal hz ?_
      rw [hvalue]
      simpa using hv
    rw [scale?, if_pos rfl, hself]
  · obtain ⟨j, rfl⟩ : ∃ j : Nat, e = j := ⟨e.toNat, by omega⟩
    have hproduct : (UInt64.ofNat s).toFloat * Float.ofScientific 1 false j = z := by
      refine mul_eq hnormal (normal_powerOfTen (by omega)) hz ?_
      rw [hvalue, powerOfTen_value (by omega)]
      rwa [zpow_natCast] at hv
    rw [scale?, if_neg (by omega), if_pos (by omega), if_pos (by omega), Int.toNat_natCast]
    simp only [hproduct, hfinite, Bool.false_eq_true, if_false]

/-- A number whose digits fit 64 bits is read with all of them. -/
theorem toFloat?_eq {n : Number} (h : n.significand < 2 ^ (64 : Nat)) :
    n.toFloat? = (scale? (UInt64.ofNat n.significand).toFloat n.power).map fun x =>
      if n.negative then -x else x := by
  rw [significand, Nat.ofDigitChars_append] at h
  have hwhole := absorb_of_lt (Nat.lt_of_le_of_lt (le_ofDigitChars _ _) h) 0
  have hall := absorb_of_lt h 0
  rw [toFloat?, hwhole]
  dsimp only
  rw [hall, significand, Nat.ofDigitChars_append, power]
  have hpower : -(n.fraction.length : Int) + n.exponent.getD 0 =
      n.exponent.getD 0 - n.fraction.length := by ring
  simp only [List.length_nil, Nat.zero_add, Int.natCast_zero, Int.zero_sub, hpower]

/-- Digits that are laid out around the point keep their value. -/
theorem layOut_value {digits : List Char} (hne : digits ≠ []) (e : Int) :
    ((layOut digits e).significand : ℚ) * 10 ^ (layOut digits e).power =
      Nat.ofDigitChars 10 digits 0 * 10 ^ (e + 1 - digits.length) := by
  unfold layOut
  split
  · split
    · have hsignificand : Nat.ofDigitChars 10
          (['0'] ++ (List.replicate (-e - 1).toNat '0' ++ digits)) 0 =
            Nat.ofDigitChars 10 digits 0 := by
        rw [Nat.ofDigitChars_append, Nat.ofDigitChars_append, Nat.ofDigitChars_replicate_zero]
        rfl
      have hpower : (0 : Int) - (List.replicate (-e - 1).toNat '0' ++ digits).length =
          e + 1 - digits.length := by
        rw [List.length_append, List.length_replicate]
        omega
      simp only [significand, power, hsignificand, Option.getD_none, hpower]
    · dsimp only
      split
      · rename_i hwhole
        have hlength : digits.length ≤ e.toNat + 1 := by simpa using hwhole
        have hsignificand : Nat.ofDigitChars 10 (digits.take (e.toNat + 1) ++
            List.replicate (e.toNat + 1 - digits.length) '0' ++ ['0']) 0 =
              10 ^ (e.toNat + 1 - digits.length + 1) * Nat.ofDigitChars 10 digits 0 := by
          rw [List.take_of_length_le hlength, List.append_assoc, ← List.replicate_succ',
            Nat.ofDigitChars_append, Nat.ofDigitChars_replicate_zero]
        have hpower : e + 1 - digits.length = (e.toNat + 1 - digits.length : Nat) := by omega
        simp only [significand, power, hsignificand, hpower, Option.getD_none,
          List.length_singleton, zpow_natCast, Nat.cast_one, zero_sub, zpow_neg_one]
        push_cast
        rw [pow_succ]
        field_simp
      · rename_i hwhole
        have hlength : e.toNat + 1 < digits.length := by simpa using hwhole
        have hpower : (0 : Int) - (digits.drop (e.toNat + 1)).length = e + 1 - digits.length := by
          rw [List.length_drop]
          omega
        rw [Nat.sub_eq_zero_of_le hlength.le]
        simp only [significand, power, List.replicate_zero, List.append_nil,
          List.take_append_drop, Option.getD_none, hpower]
  · have hpower : e - (digits.drop 1).length = e + 1 - digits.length := by
      have hlength := List.length_pos_iff.mpr hne
      rw [List.length_drop]
      omega
    simp only [significand, power, List.take_append_drop, Option.getD_some, hpower]

/-- The digits of a double are those of its shortest decimal. -/
theorem ofShortest_value (x : Float) :
    ((ofShortest x).significand : ℚ) * 10 ^ (ofShortest x).power =
      (Decimal.shortest x).coefficient * 10 ^ (Decimal.shortest x).power := by
  have hdigits : Nat.ofDigitChars 10 (Numeral.ofNat (Decimal.shortest x).coefficient) 0 =
      (Decimal.shortest x).coefficient := Nat.ofDigitChars_ten_toDigits
  rw [ofShortest, layOut_value (Numeral.ofNat_ne_nil _), hdigits]
  congr 2
  ring

/-- A number is brief if its digits make less than 53 bits and its last digit stands for a power of
ten that is a double. -/
structure IsBrief (n : Number) : Prop where
  significand_lt : n.significand < 2 ^ (53 : Nat)
  le_power : -22 ≤ n.power
  power_le : n.power ≤ 22

/-- A brief number is no smaller than any double with a full mantissa. -/
theorem IsBrief.le_value {n : Number} (h : n.IsBrief) (hpos : 0 < n.significand) :
    (2 : ℚ) ^ (-1021 : Int) ≤ n.significand * 10 ^ n.power := by
  have hone : (1 : ℚ) ≤ n.significand := by exact_mod_cast hpos
  calc (2 : ℚ) ^ (-1021 : Int) ≤ 2 ^ (-88 : Int) := zpow_le_zpow_right₀ one_le_two (by decide)
    _ ≤ 10 ^ (-22 : Int) := by norm_num
    _ ≤ 10 ^ n.power := zpow_le_zpow_right₀ (by norm_num) h.le_power
    _ ≤ n.significand * 10 ^ n.power := le_mul_of_one_le_left (by positivity) hone

/-- A double with a brief decimal is read back from it, whatever its sign. -/
theorem toFloat?_of_parts {x : Float} {n : Number} {sign : Sign} {m : Nat} {q : Int}
    (hparts : Parts x sign m q) (hx : ofFloat? x = some n)
    (hn : n = { ofShortest x with negative := n.negative }) (hbrief : n.IsBrief) :
    n.toFloat? = some x := by
  have hrounds : Rounds m q (n.significand * 10 ^ n.power) := by
    have h := Decimal.rounds_shortest hparts
    rw [← ofShortest_value] at h
    rw [hn]
    exact h
  have hpos : 0 < n.significand := hrounds.coefficient_pos hparts.canonical.pos
  have hfull := hrounds.full hparts.canonical (hbrief.le_value hpos)
  have hz := normal_pack hparts.canonical.pos hfull hparts.canonical.lt hparts.canonical.least
    hparts.most
  -- The sign stands apart from the digits, which are read as the double without its sign.
  have hscale := scale?_eq hpos hbrief.significand_lt hbrief.le_power hbrief.power_le hz.toParts
    hrounds
  rw [toFloat?_eq (hbrief.significand_lt.trans (by decide)), hscale, Option.map_some,
    (ofFloat?_cases hx).1, Option.some.injEq]
  have hsign := hparts.sign_eq
  split at hsign
  · rename_i hbit
    subst hsign
    rw [if_pos (decide_eq_true hbit), hz.neg_eq hparts]
  · rename_i hbit
    subst hsign
    rw [if_neg (by simpa using hbit), hparts.eq_ofModel]

end Number

/-- What a double is read back as once it is written; nothing if it is written as null. -/
def reread? (x : Float) : Option Float := (Json.float x).toFloat?

/-- A double that is infinite or NaN is not read back. -/
theorem reread?_of_not_finite {x : Float} (hx : x.isFinite = false) : reread? x = none := by
  rw [reread?, Json.float, Number.ofFloat?_eq_none_iff.mpr hx]
  rfl

/-- A double with a brief number is read back as it was. -/
theorem reread?_of_isBrief {x : Float} {n : Number} (hx : Number.ofFloat? x = some n)
    (hbrief : n.IsBrief) : reread? x = some x := by
  obtain ⟨-, ⟨hzero, -⟩ | ⟨⟨sign, m, q, hparts⟩, hn⟩⟩ := Number.ofFloat?_cases hx
  · obtain ⟨-, -, rfl | ⟨rfl, -⟩ | ⟨rfl, -⟩⟩ := Float.beq_iff_ne_nan_and_eq.mp hzero
    · decide +kernel
    · decide +kernel
    · decide +kernel
  · rw [reread?, Json.float, hx]
    exact Number.toFloat?_of_parts hparts hx hn hbrief

end Pacing.Json
