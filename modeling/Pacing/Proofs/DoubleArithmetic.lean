import Pacing.Proofs.DoubleParts

/-!
# Products and quotients of doubles

Whole numbers of 53 bits and the powers of ten up to the 22nd are doubles, and a product or quotient
of doubles is the double that the product or quotient of their values rounds to.
-/

namespace Pacing.Double

open Float.Model Float.Model.UnpackedFloat

-- Powers are those of the core library, whatever else is in scope.
attribute [local instance (high)] instPowNat instNatPowNat

variable {x y : Float} {m n : Nat} {q r : Int}

/-- A positive double with a full mantissa. -/
structure Normal (x : Float) (m : Nat) (q : Int) : Prop extends Parts x .positive m q where
  full : 2 ^ (52 : Nat) ≤ m

/-- Parts with a full mantissa are those of the double that they are packed into. -/
theorem normal_pack (hm : 0 < m) (hfull : 2 ^ (52 : Nat) ≤ m) (hlt : m < 2 ^ (53 : Nat))
    (hleast : -1074 ≤ q) (hmost : q ≤ 971) :
    Normal (.ofModel (.pack (.finite .positive m q hm))) m q :=
  ⟨⟨⟨hm, hlt, hleast, fun _ => hfull⟩, hmost, unpack_pack hm hfull hlt hleast hmost⟩, hfull⟩

/-- The value of a mantissa with its exponent is rounded to these. -/
theorem rounds_self (m : Nat) (q : Int) : Rounds m q (m * 2 ^ q) := by
  have hpos : (0 : ℚ) < 2 ^ q := zpow_pos two_pos q
  have hself : (m : ℚ) * 2 ^ q / 2 ^ q = m := mul_div_cancel_right₀ _ hpos.ne'
  refine ⟨⟨?_, ?_, fun _ => ⟨?_, ?_⟩⟩, fun _ _ => ?_⟩ <;> rw [hself] <;> linarith

/-- A value that is a mantissa and an exponent already rounds like itself. -/
theorem roundWithAccuracy_exact {e : Int} {v : ℚ} (hn : 2 ^ (52 : Nat) ≤ n) (hv : n * 2 ^ e = v)
    (hcanon : Canonical m q) (hround : Rounds m q v) :
    roundWithAccuracy Format.binary64 .positive n e .exact = .finite .positive m q hcanon.pos := by
  have hpos : 0 < n := Nat.lt_of_lt_of_le (by decide) hn
  refine roundWithAccuracy_eq .positive hpos ?_ ?_ hcanon hround
  · rw [Tells, ← hv, mul_div_cancel_right₀ _ (zpow_pos two_pos e).ne', sub_self]
  · have hlog : 52 ≤ n.log2 := (Nat.le_log2 hpos.ne').mpr hn
    rw [targetExponent_eq, totalExponent_eq]
    omega

/-- A whole number with zeros put behind its bits until they fill a mantissa. -/
def fill (n : Nat) : Nat := n <<< (52 - n.log2)

/-- Filling up a number below `2 ^ 53` gives it exactly 53 bits. -/
theorem full_fill (hn : 0 < n) (hlt : n < 2 ^ (53 : Nat)) :
    2 ^ (52 : Nat) ≤ fill n ∧ fill n < 2 ^ (53 : Nat) := by
  have hlog : n.log2 < 53 := (Nat.log2_lt hn.ne').mpr hlt
  have hsplit (k : Nat) : 2 ^ (52 + k) = 2 ^ (n.log2 + k) * 2 ^ (52 - n.log2) := by
    rw [← Nat.pow_add]
    congr 1
    omega
  rw [fill, Nat.shiftLeft_eq, show (53 : Nat) = 52 + 1 from rfl, hsplit 0, hsplit 1]
  exact ⟨Nat.mul_le_mul_right _ (Nat.log2_self_le hn.ne'),
    Nat.mul_lt_mul_of_pos_right Nat.lt_log2_self (Nat.pow_pos (by decide))⟩

/-- Filling up a positive number leaves it positive. -/
theorem fill_pos (hn : 0 < n) : 0 < fill n := Nat.shiftLeft_pos_iff.mpr hn

/-- The exponent that goes with filling up a number keeps its value. -/
theorem fill_mul_zpow (hn : 0 < n) (hlt : n < 2 ^ (53 : Nat)) :
    (fill n : ℚ) * 2 ^ ((n.log2 : Int) - 52) = n := by
  have hlog : n.log2 < 53 := (Nat.log2_lt hn.ne').mpr hlt
  rw [fill, Nat.shiftLeft_eq, Nat.cast_mul, Nat.cast_pow, Nat.cast_ofNat, mul_assoc,
    ← zpow_natCast, ← zpow_add₀ two_ne_zero,
    show ((52 - n.log2 : Nat) : Int) + ((n.log2 : Int) - 52) = 0 by omega, zpow_zero, mul_one]

/-- A whole number of 53 bits is a double. -/
theorem normal_ofNat (hn : 0 < n) (hlt : n < 2 ^ (53 : Nat)) :
    Normal (UInt64.ofNat n).toFloat (fill n) (n.log2 - 52) := by
  have hlog : n.log2 < 53 := (Nat.log2_lt hn.ne').mpr hlt
  obtain ⟨hfull, hfill⟩ := full_fill hn hlt
  have hcanon : Canonical (fill n) (n.log2 - 52) := ⟨fill_pos hn, hfill, by omega, fun _ => hfull⟩
  have hword : (UInt64.ofNat n).toNat = n := by
    rw [UInt64.toNat_ofNat', Nat.mod_eq_of_lt (by omega)]
  have htarget : Format.binary64.targetExponent (totalExponent n 0) = (n.log2 : Int) - 52 := by
    rw [targetExponent_eq, totalExponent_eq]
    omega
  have hround : UnpackedFloat.round Format.binary64 .positive n 0 =
      .finite .positive (fill n) (n.log2 - 52) (fill_pos hn) := by
    rw [UnpackedFloat.round, htarget, decreaseExponent,
      show (0 - ((n.log2 : Int) - 52)).toNat = 52 - n.log2 by omega,
      show (0 : Int) - (52 - n.log2 : Nat) = n.log2 - 52 by omega]
    exact roundWithAccuracy_exact hfull rfl hcanon (rounds_self _ _)
  have hofNat : UnpackedFloat.ofNat Format.binary64 n =
      UnpackedFloat.round Format.binary64 .positive n 0 := by
    rw [UnpackedFloat.ofNat, UnpackedFloat.ofInt, UnpackedFloat.normalize,
      Int.compare_eq_gt.mpr (by omega)]
    rfl
  have hfloat : (UInt64.ofNat n).toFloat =
      .ofModel (.pack (UnpackedFloat.ofNat Format.binary64 (UInt64.ofNat n).toNat)) := rfl
  rw [hfloat, hword, hofNat, hround]
  exact normal_pack _ hfull hfill (by omega) (by omega)

/-- A power of ten is a power of five with zeros behind its bits. -/
theorem powerOfTen_eq : ∀ k < 23, Float.ofScientific 1 false k =
    .ofModel (.pack (.finite .positive (fill (5 ^ k)) ((5 ^ k).log2 - 52 + k)
      (fill_pos (Nat.pow_pos (by decide))))) := by
  decide +kernel

section PowerOfTen

variable {k : Nat} (hk : k < 23)

include hk

/-- The powers of five up to the twenty-second fit into 53 bits. -/
theorem powerOfFive_lt : 5 ^ k < 2 ^ (53 : Nat) :=
  Nat.lt_of_le_of_lt (Nat.pow_le_pow_right (by decide) (Nat.le_of_lt_succ hk)) (by decide)

/-- The powers of five up to the twenty-second have at most 53 bits. -/
theorem log2_powerOfFive : (5 ^ k).log2 < 53 :=
  (Nat.log2_lt (Nat.pow_pos (by decide)).ne').mpr (powerOfFive_lt hk)

/-- The powers of ten up to the 22nd are doubles. -/
theorem normal_powerOfTen :
    Normal (Float.ofScientific 1 false k) (fill (5 ^ k)) ((5 ^ k).log2 - 52 + k) := by
  have hlog := log2_powerOfFive hk
  obtain ⟨hfull, hfill⟩ := full_fill (Nat.pow_pos (by decide)) (powerOfFive_lt hk)
  rw [powerOfTen_eq k hk]
  exact normal_pack _ hfull hfill (by omega) (by omega)

/-- The mantissa and the exponent of a small power of ten have exactly its value. -/
theorem powerOfTen_value : (fill (5 ^ k) : ℚ) * 2 ^ (((5 ^ k).log2 : Int) - 52 + k) = 10 ^ k := by
  rw [zpow_add₀ two_ne_zero, ← mul_assoc,
    fill_mul_zpow (Nat.pow_pos (by decide)) (powerOfFive_lt hk), zpow_natCast]
  push_cast
  rw [← mul_pow]
  norm_num

end PowerOfTen

variable {z : Float} {k : Nat} {t : Int}

/-- Of two doubles, one rounds to the other only if they are the same. -/
theorem eq_of_rounds (hx : Normal x m q) (hz : Parts z .positive k t)
    (hv : Rounds k t (m * 2 ^ q)) : x = z := by
  have hround := roundWithAccuracy_exact hx.full rfl hz.canonical hv
  rw [roundWithAccuracy_exact hx.full rfl hx.canonical (rounds_self m q)] at hround
  rw [← hx.eq_ofModel, hround, hz.eq_ofModel]

/-- A product of doubles is the double that the product of their values rounds to. -/
theorem mul_eq (hx : Normal x m q) (hy : Normal y n r) (hz : Parts z .positive k t)
    (hv : Rounds k t (m * 2 ^ q * (n * 2 ^ r))) : x * y = z := by
  have hfull : 2 ^ (52 : Nat) ≤ m * n :=
    Nat.le_trans hx.full (Nat.le_mul_of_pos_right m hy.canonical.pos)
  have hvalue : ((m * n : Nat) : ℚ) * 2 ^ (q + r) = m * 2 ^ q * (n * 2 ^ r) := by
    rw [zpow_add₀ two_ne_zero, Nat.cast_mul]
    ring
  change Float.ofModel (.pack (UnpackedFloat.mul Format.binary64 x.toModel.unpack
    y.toModel.unpack)) = z
  rw [hx.unpack, hy.unpack]
  change Float.ofModel (.pack
    (roundWithAccuracy Format.binary64 .positive (m * n) (q + r) .exact)) = z
  rw [roundWithAccuracy_exact hfull hvalue hz.canonical hv]
  exact hz.eq_ofModel

/-- The accuracy of a division tells what the remainder leaves of a unit. -/
theorem tells_accuracyOfFraction {num den : Nat} (h : num < den) :
    Tells (accuracyOfFraction num den) (num / den) := by
  have hden : (0 : ℚ) < den := Nat.cast_pos.mpr (by omega)
  unfold accuracyOfFraction
  split
  · rename_i hnum
    simp [hnum, Tells]
  · rename_i hnum
    have hpos : (0 : ℚ) < num := Nat.cast_pos.mpr (by omega)
    have hlt : (num : ℚ) < den := Nat.cast_lt.mpr h
    cases hcompare : compare (2 * num) den with
    | lt =>
      have : (2 : ℚ) * num < den := by exact_mod_cast Nat.compare_eq_lt.mp hcompare
      rw [Tells, div_lt_iff₀ hden]
      exact ⟨by positivity, by linarith⟩
    | eq =>
      have : (2 : ℚ) * num = den := by exact_mod_cast Nat.compare_eq_eq.mp hcompare
      rw [Tells, ← this]
      field_simp
    | gt =>
      have : (den : ℚ) < 2 * num := by exact_mod_cast Nat.compare_eq_gt.mp hcompare
      rw [Tells, lt_div_iff₀ hden, div_lt_one hden]
      exact ⟨by linarith, hlt⟩

/-- A quotient of mantissas is kept to 53 bits at least, with what is left over. -/
theorem quotient_rest (hn : 0 < n) (q r : Int) :
    (m : ℚ) * (2 : ℚ) ^ q / (n * (2 : ℚ) ^ r) / (2 : ℚ) ^ (q - r - 53) - (m <<< 53 / n : Nat) =
      (m <<< 53 % n : Nat) / (n : ℚ) := by
  have hn0 : (n : ℚ) ≠ 0 := Nat.cast_ne_zero.mpr hn.ne'
  have hshift : ((m <<< 53 : Nat) : ℚ) = m * 2 ^ 53 := by
    rw [Nat.shiftLeft_eq]
    norm_cast
  have hvalue : (m : ℚ) * (2 : ℚ) ^ q / (n * (2 : ℚ) ^ r) / (2 : ℚ) ^ (q - r - 53) =
      (m <<< 53 : Nat) / (n : ℚ) := by
    rw [hshift, zpow_sub₀ two_ne_zero, zpow_sub₀ two_ne_zero]
    field_simp
  have hsplit : ((m <<< 53 : Nat) : ℚ) = n * (m <<< 53 / n : Nat) + (m <<< 53 % n : Nat) := by
    exact_mod_cast (Nat.div_add_mod (m <<< 53) n).symm
  rw [hvalue, eq_div_iff hn0, sub_mul, div_mul_cancel₀ _ hn0, hsplit]
  ring

/-- The quotient of two doubles with full mantissas is computed with 53 more bits, if it is not too
small for them. -/
theorem divCore_eq (hx : Normal x m q) (hy : Normal y n r) (hlarge : -1021 ≤ q - r) :
    divCore Format.binary64 m q n r =
      (m <<< 53 / n, q - r - 53, accuracyOfFraction (m <<< 53 % n) n) := by
  have hlog (a : Nat) (hfull : 2 ^ (52 : Nat) ≤ a) (hlt : a < 2 ^ (53 : Nat)) : a.log2 = 52 :=
    (Nat.log2_eq_iff (by omega)).mpr ⟨hfull, hlt⟩
  have htarget : min (q - r) (Format.binary64.targetExponent
      (totalExponent m q - totalExponent n r)) = q - r - 53 := by
    rw [targetExponent_eq, totalExponent_eq, totalExponent_eq,
      hlog m hx.full hx.canonical.lt, hlog n hy.full hy.canonical.lt]
    omega
  rw [divCore, htarget, show (q - r - (q - r - 53)).toNat = 53 by omega]

/-- Dividing positive doubles rounds the quotient that was computed. -/
theorem div_of_divCore {hm : 0 < m} {hn : 0 < n} {acc : Accuracy}
    (hcore : divCore Format.binary64 m q n r = (k, t, acc)) :
    UnpackedFloat.div Format.binary64 (.finite .positive m q hm) (.finite .positive n r hn) =
      roundWithAccuracy Format.binary64 .positive k t acc := by
  unfold UnpackedFloat.div
  dsimp only
  rw [hcore]
  rfl

/-- A quotient of doubles is the double that the quotient of their values rounds to, if it is not
too small. -/
theorem div_eq (hx : Normal x m q) (hy : Normal y n r) (hz : Parts z .positive k t)
    (hlarge : -1021 ≤ q - r) (hv : Rounds k t (m * 2 ^ q / (n * 2 ^ r))) : x / y = z := by
  have hn := hy.canonical.pos
  have hquotient : 2 ^ (52 : Nat) ≤ m <<< 53 / n := by
    rw [Nat.le_div_iff_mul_le hn, Nat.shiftLeft_eq]
    exact Nat.mul_le_mul hx.full hy.canonical.lt.le
  have hpos : 0 < m <<< 53 / n := (Nat.two_pow_pos 52).trans_le hquotient
  have hround : roundWithAccuracy Format.binary64 .positive (m <<< 53 / n) (q - r - 53)
      (accuracyOfFraction (m <<< 53 % n) n) = .finite .positive k t hz.canonical.pos := by
    refine roundWithAccuracy_eq .positive hpos ?_ ?_ hz.canonical hv
    · rw [quotient_rest hn]
      exact tells_accuracyOfFraction (Nat.mod_lt _ hn)
    · have hlog : 52 ≤ (m <<< 53 / n).log2 := (Nat.le_log2 hpos.ne').mpr hquotient
      rw [targetExponent_eq, totalExponent_eq]
      omega
  change Float.ofModel (.pack (UnpackedFloat.div Format.binary64 x.toModel.unpack
    y.toModel.unpack)) = z
  rw [hx.unpack, hy.unpack, div_of_divCore (divCore_eq hx hy hlarge), hround]
  exact hz.eq_ofModel

end Pacing.Double
