import Mathlib
import Pacing.Decimal.Shortest

/-!
# Rounding to a double

A value is rounded by shifting its bits to the exponent of a double and rounding what is left to a
mantissa. The bits that are shifted out are kept as two, one for the half and one for all below it,
and tell enough of the value to round it. So rounding gives the double in whose interval the value
lies; where rounding up makes the mantissa one bit too long, a second shift takes the bit back.
-/

namespace Pacing.Double

open Float.Model Float.Model.UnpackedFloat

-- Powers are those of the core library, whatever else is in scope.
attribute [local instance (high)] instPowNat instNatPowNat

/-! ## The bits behind a mantissa -/

/-- An accuracy tells where the rest of a value lies: at zero, below one half, at it, or above. -/
@[irreducible] def Tells (acc : Accuracy) (rest : ℚ) : Prop :=
  match acc with
  | .exact => rest = 0
  | .inexact .lt => 0 < rest ∧ rest < 1 / 2
  | .inexact .eq => rest = 1 / 2
  | .inexact .gt => 1 / 2 < rest ∧ rest < 1

/-- A mantissa with two bits behind it stands for a value: it is the whole part, and the bits tell
the rest. -/
def Stands (em : ExtendedMantissa) (v : ℚ) : Prop := Tells em.accuracy (v - em.mantissa)

/-- What an accuracy tells of is a part of a unit. -/
theorem Tells.bounds {acc : Accuracy} {rest : ℚ} (h : Tells acc rest) : 0 ≤ rest ∧ rest < 1 := by
  unfold Tells at h
  split at h
  · rw [h]
    norm_num
  · exact ⟨h.1.le, by linarith⟩
  · rw [h]
    norm_num
  · exact ⟨by linarith, h.2⟩

/-- A mantissa with the accuracy of what it leaves out stands for the value. -/
theorem stands_ofMantissaAndAccuracy {acc : Accuracy} {m : Nat} {v : ℚ} (h : Tells acc (v - m)) :
    Stands (.ofMantissaAndAccuracy m acc) v := by
  cases acc with
  | exact => exact h
  | inexact o => cases o <;> exact h

/-- Halving a value moves the lowest bit of its mantissa behind it. -/
theorem Stands.shiftRightOne {em : ExtendedMantissa} {v : ℚ} (h : Stands em v) :
    Stands em.shiftRightOne (v / 2) := by
  obtain ⟨m, round, sticky⟩ := em
  obtain ⟨k, rfl | rfl⟩ := Nat.even_or_odd' m
  · have hdiv : 2 * k / 2 = k := by omega
    have hmod : 2 * k % 2 = 0 := by omega
    cases round <;> cases sticky <;>
      simp only [Stands, ExtendedMantissa.shiftRightOne, ExtendedMantissa.accuracy, Tells, hdiv,
        hmod, bne_self_eq_false, Bool.or_false, Bool.or_true, Bool.or_self, Nat.cast_mul,
        Nat.cast_ofNat] at h ⊢
    · linarith
    · constructor <;> linarith
    · constructor <;> linarith
    · constructor <;> linarith
  · have hdiv : (2 * k + 1) / 2 = k := by omega
    have hmod : ((2 * k + 1) % 2 != 0) = true := by simp [Nat.add_mod]
    cases round <;> cases sticky <;>
      simp only [Stands, ExtendedMantissa.shiftRightOne, ExtendedMantissa.accuracy, Tells, hdiv,
        hmod, Bool.or_false, Bool.or_true, Bool.or_self, Nat.cast_mul, Nat.cast_ofNat,
        Nat.cast_add, Nat.cast_one] at h ⊢
    · linarith
    · constructor <;> linarith
    · constructor <;> linarith
    · constructor <;> linarith

/-- Shifting a mantissa that stands for a value by some bits divides the value by that power of
two. -/
theorem Stands.shiftRight {em : ExtendedMantissa} {v : ℚ} (h : Stands em v) (k : Nat) :
    Stands (em >>> k) (v / 2 ^ k) := by
  induction k with
  | zero =>
    rw [pow_zero, div_one]
    exact h
  | succ k ih =>
    have hstep := ih.shiftRightOne
    rw [div_div, ← pow_succ] at hstep
    exact hstep

/-- A whole number is the nearest to a value; of two that are as near it is the even one. -/
structure IsNearest (n : Nat) (v : ℚ) : Prop where
  low : n - 1 / 2 ≤ v
  high : v ≤ n + 1 / 2
  odd : n % 2 = 1 → n - 1 / 2 < v ∧ v < n + 1 / 2

/-- A value that is closer to a whole number than one half is rounded to it. -/
theorem IsNearest.eq_of_close {n k : Nat} {v : ℚ} (h : IsNearest n v) (hlow : k - 1 / 2 < v)
    (hhigh : v < k + 1 / 2) : k = n := by
  have hle : (n : ℚ) < (k + 1 : Nat) := by
    push_cast
    linarith [h.low]
  have hge : (k : ℚ) < (n + 1 : Nat) := by
    push_cast
    linarith [h.high]
  have hle := Nat.cast_lt.mp hle
  have hge := Nat.cast_lt.mp hge
  omega

/-- A value halfway between two whole numbers is rounded to the even one. -/
theorem IsNearest.eq_of_halfway {n k : Nat} {v : ℚ} (h : IsNearest n v) (hv : v = k + 1 / 2) :
    k + k % 2 = n := by
  obtain ⟨hlow, hhigh, hodd⟩ := h
  rw [hv] at hlow hhigh hodd
  have hle : (n : ℚ) ≤ (k + 1 : Nat) := by
    push_cast
    linarith
  have hge : (k : ℚ) ≤ n := by linarith
  have hle := Nat.cast_le.mp hle
  have hge := Nat.cast_le.mp hge
  have heven : n % 2 = 0 := by
    by_contra hne
    obtain ⟨hlt, hgt⟩ := hodd (by omega)
    have hlt : (n : ℚ) < (k + 1 : Nat) := by
      push_cast
      linarith
    have hgt : (k : ℚ) < n := by linarith
    have hlt := Nat.cast_lt.mp hlt
    have hgt := Nat.cast_lt.mp hgt
    omega
  omega

/-- A mantissa that stands for a value is rounded to the nearest whole number. -/
theorem Stands.roundedMantissa_eq {em : ExtendedMantissa} {v : ℚ} {n : Nat} (h : Stands em v)
    (hn : IsNearest n v) : em.roundedMantissa = n := by
  obtain ⟨m, round, sticky⟩ := em
  cases round <;> cases sticky <;> simp only [Stands, ExtendedMantissa.accuracy, Tells] at h
  · exact hn.eq_of_close (k := m) (by linarith) (by linarith)
  · exact hn.eq_of_close (k := m) (by linarith) (by linarith)
  · exact hn.eq_of_halfway (k := m) (by linarith)
  · refine hn.eq_of_close (k := m + 1) ?_ ?_ <;> push_cast <;> linarith

/-! ## Shifting to the exponent of a double -/

/-- The exponent that a number with a given place of its highest bit has as a double. -/
theorem targetExponent_eq (place : Int) :
    Format.binary64.targetExponent place = max (place - 53) (-1074) := by
  simp [Format.targetExponent, Format.mantissaBits, Format.minExponent]

/-- The total exponent is the place past the highest bit of a number. -/
theorem totalExponent_eq (m : Nat) (e : Int) : totalExponent m e = m.log2 + 1 + e := rfl

/-- Shifting a value to its exponent as a double keeps it. -/
theorem stands_shiftToTargetExponent {m : Nat} {e : Int} {acc : Accuracy} {v : ℚ}
    (hacc : Tells acc (v / 2 ^ e - m))
    (he : e ≤ Format.binary64.targetExponent (totalExponent m e)) :
    let shifted := shiftToTargetExponent Format.binary64 m e acc
    shifted.2 = Format.binary64.targetExponent (totalExponent m e) ∧
      Stands shifted.1 (v / 2 ^ shifted.2) := by
  generalize htarget : Format.binary64.targetExponent (totalExponent m e) = t at he
  have hshifted : shiftToTargetExponent Format.binary64 m e acc =
      (ExtendedMantissa.ofMantissaAndAccuracy m acc >>> (t - e).toNat, t) := by
    rw [shiftToTargetExponent, htarget, shiftToExponent]
    congr 1
    omega
  have hpow : (2 : ℚ) ^ e * 2 ^ (t - e).toNat = 2 ^ t := by
    rw [← zpow_natCast, ← zpow_add₀ two_ne_zero]
    congr 1
    omega
  rw [hshifted]
  refine ⟨rfl, ?_⟩
  have hstands := (stands_ofMantissaAndAccuracy hacc).shiftRight (t - e).toNat
  rwa [div_div, hpow] at hstands

/-- A mantissa and an exponent as a double has them. -/
structure Canonical (m : Nat) (q : Int) : Prop where
  pos : 0 < m
  lt : m < 2 ^ (53 : Nat)
  least : -1074 ≤ q
  full : q ≠ -1074 → 2 ^ (52 : Nat) ≤ m

/-- A mantissa with the exponent of a double has the exponent that rounding aims at. -/
theorem Canonical.targetExponent_eq {m : Nat} {q : Int} (h : Canonical m q) :
    Format.binary64.targetExponent (totalExponent m q) = q := by
  rw [Double.targetExponent_eq, totalExponent_eq]
  have hlog : m.log2 < 53 := (Nat.log2_lt h.pos.ne').mpr h.lt
  by_cases hq : q = -1074
  · omega
  · have hlog' : 52 ≤ m.log2 := (Nat.le_log2 h.pos.ne').mpr (h.full hq)
    have := h.least
    omega

/-- A value rounds to the double with a mantissa and an exponent. Below a power of two the gap to
the next double is half as wide as above it. -/
structure Rounds (m : Nat) (q : Int) (v : ℚ) : Prop where
  nearest : IsNearest m (v / 2 ^ q)
  low : m = 2 ^ (52 : Nat) → q ≠ -1074 → m - 1 / 4 ≤ v / 2 ^ q

/-- A value that is rounded to a positive number is positive. -/
theorem Rounds.pos {m : Nat} {q : Int} {v : ℚ} (h : Rounds m q v) (hm : 0 < m) : 0 < v := by
  have hunit : (0 : ℚ) < 2 ^ q := zpow_pos two_pos q
  have hm : (1 : ℚ) ≤ m := by exact_mod_cast hm
  have hlow := h.nearest.low
  have hpos : 0 < v / 2 ^ q := by linarith
  rwa [div_pos_iff_of_pos_right hunit] at hpos

/-- No decimal with the coefficient zero rounds to a double other than zero. -/
theorem Rounds.coefficient_pos {m c : Nat} {p q : Int} (h : Rounds m q (c * 10 ^ p)) (hm : 0 < m) :
    0 < c :=
  Nat.cast_pos.mp ((pos_iff_pos_of_mul_pos (h.pos hm)).mpr (zpow_pos (by norm_num) p))

/-- A value that is not too small rounds to a double with a full mantissa. -/
theorem Rounds.full {m : Nat} {q : Int} {v : ℚ} (h : Rounds m q v) (hcanon : Canonical m q)
    (hv : 2 ^ (-1021 : Int) ≤ v) : 2 ^ (52 : Nat) ≤ m := by
  refine hcanon.full ?_
  rintro rfl
  have hm : (m : ℚ) + 1 ≤ 2 ^ 53 := by exact_mod_cast hcanon.lt
  have hunit : (0 : ℚ) < 2 ^ (-1074 : Int) := zpow_pos two_pos _
  have hbelow : v < 2 ^ (-1021 : Int) :=
    calc v ≤ (m + 1 / 2) * 2 ^ (-1074 : Int) := (div_le_iff₀ hunit).mp h.nearest.high
      _ < 2 ^ 53 * 2 ^ (-1074 : Int) := mul_lt_mul_of_pos_right (by linarith) hunit
      _ = 2 ^ (-1021 : Int) := by
        rw [← zpow_natCast, ← zpow_add₀ two_ne_zero]
        rfl
  exact hbelow.not_ge hv

/-- The place of the highest bit of a value. -/
theorem highest_bit {m : Nat} {e : Int} {acc : Accuracy} {v : ℚ} (hm : 0 < m)
    (hacc : Tells acc (v / 2 ^ e - m)) :
    (2 : ℚ) ^ (totalExponent m e - 1) ≤ v ∧ v < 2 ^ totalExponent m e := by
  have hpos : (0 : ℚ) < 2 ^ e := zpow_pos two_pos e
  obtain ⟨hlow, hhigh⟩ := hacc.bounds
  have hpow (k : Nat) : (2 : ℚ) ^ (k + e) = (2 ^ k : Nat) * 2 ^ e := by
    rw [zpow_add₀ two_ne_zero, zpow_natCast, Nat.cast_pow, Nat.cast_ofNat]
  have hleast : ((2 ^ m.log2 : Nat) : ℚ) ≤ m := Nat.cast_le.mpr (Nat.log2_self_le hm.ne')
  have hmost : (m : ℚ) + 1 ≤ (2 ^ (m.log2 + 1) : Nat) := by
    exact_mod_cast Nat.lt_log2_self (n := m)
  rw [totalExponent_eq]
  constructor
  · rw [show (m.log2 : Int) + 1 + e - 1 = m.log2 + e by ring, hpow, ← le_div_iff₀ hpos]
    linarith
  · rw [show (m.log2 : Int) + 1 + e = (m.log2 + 1 : Nat) + e by push_cast; ring, hpow,
      ← div_lt_iff₀ hpos]
    linarith

/-- A value that rounds to a double has the exponent of the double, or the one before it if it lies
below the power of two that it rounds to. -/
theorem Rounds.target_cases {m : Nat} {q : Int} {v : ℚ} {place : Int} (hcanon : Canonical m q)
    (h : Rounds m q v) (hbit : (2 : ℚ) ^ (place - 1) ≤ v ∧ v < 2 ^ place) :
    Format.binary64.targetExponent place = q ∨
      Format.binary64.targetExponent place = q - 1 ∧ m = 2 ^ (52 : Nat) ∧ q ≠ -1074 ∧
        v / 2 ^ q < 2 ^ (52 : Nat) := by
  have hpos : (0 : ℚ) < 2 ^ q := zpow_pos two_pos q
  obtain ⟨⟨hlow, hhigh, hodd⟩, hhalf⟩ := h
  obtain ⟨hleast, hmost⟩ := hbit
  generalize hw : v / 2 ^ q = w at *
  obtain rfl : v = w * 2 ^ q := by rw [← hw, div_mul_cancel₀ v hpos.ne']
  have hbelow (k : Int) (hk : w < 2 ^ k) : place ≤ k + q := by
    have : (2 : ℚ) ^ (place - 1) < 2 ^ (k + q) := by
      rw [zpow_add₀ two_ne_zero]
      exact hleast.trans_lt (mul_lt_mul_of_pos_right hk hpos)
    have := (zpow_lt_zpow_iff_right₀ one_lt_two).mp this
    omega
  have habove (k : Int) (hk : 2 ^ k ≤ w) : k + q < place := by
    have : (2 : ℚ) ^ (k + q) < 2 ^ place := by
      rw [zpow_add₀ two_ne_zero]
      exact (mul_le_mul_of_nonneg_right hk hpos.le).trans_lt hmost
    exact (zpow_lt_zpow_iff_right₀ one_lt_two).mp this
  rw [targetExponent_eq]
  have hq := hcanon.least
  have hm : (m : ℚ) + 1 ≤ 2 ^ 53 := by exact_mod_cast hcanon.lt
  have hplace := hbelow 53 (by norm_num; linarith)
  by_cases hleast : q = -1074
  · left
    omega
  have hfull : (2 : ℚ) ^ 52 ≤ m := by exact_mod_cast hcanon.full hleast
  by_cases hw52 : w < 2 ^ 52
  · right
    have hpower : m = 2 ^ (52 : Nat) := by
      by_contra hne
      have hgt : 2 ^ (52 : Nat) + 1 ≤ m := by have := hcanon.full hleast; omega
      have hgt : (2 : ℚ) ^ 52 + 1 ≤ m := by exact_mod_cast hgt
      linarith
    have hlow := hhalf hpower hleast
    have hplace := hbelow 52 hw52
    have hplace' := habove 51 (by norm_num; linarith)
    exact ⟨by omega, hpower, hleast, hw52⟩
  · left
    have hplace' := habove 52 (not_lt.mp hw52)
    omega

/-- A mantissa with the exponent of a double is not shifted. -/
theorem shiftToTargetExponent_canonical {m : Nat} {q : Int} (h : Canonical m q) :
    shiftToTargetExponent Format.binary64 m q .exact = (⟨m, false, false⟩, q) := by
  rw [shiftToTargetExponent, h.targetExponent_eq, shiftToExponent, Int.sub_self]
  simp only [Int.toNat_zero, Int.natCast_zero, Int.add_zero]
  rfl

/-- A mantissa that rounding has made one bit too long is halved. -/
theorem shiftToTargetExponent_carry {q : Int} (hq : -1074 < q) :
    shiftToTargetExponent Format.binary64 (2 ^ (53 : Nat)) (q - 1) .exact =
      (⟨2 ^ (52 : Nat), false, false⟩, q) := by
  have htarget : Format.binary64.targetExponent (totalExponent (2 ^ (53 : Nat)) (q - 1)) = q := by
    rw [targetExponent_eq, totalExponent_eq, Nat.log2_two_pow]
    omega
  rw [shiftToTargetExponent, htarget, shiftToExponent, show q - (q - 1) = 1 by ring]
  simp only [Int.toNat_one, Int.natCast_one, Int.sub_add_cancel]
  rfl

/-- A value is rounded to the double whose interval it lies in. -/
theorem roundWithAccuracy_eq {m₀ m : Nat} {e q : Int} {acc : Accuracy} {v : ℚ} (sign : Sign)
    (hm₀ : 0 < m₀) (hacc : Tells acc (v / 2 ^ e - m₀))
    (he : e ≤ Format.binary64.targetExponent (totalExponent m₀ e)) (hcanon : Canonical m q)
    (hv : Rounds m q v) :
    roundWithAccuracy Format.binary64 sign m₀ e acc = .finite sign m q hcanon.pos := by
  obtain ⟨hexponent, hstands⟩ := stands_shiftToTargetExponent hacc he
  have hcases := hv.target_cases hcanon (highest_bit hm₀ hacc)
  rw [← hexponent] at hcases
  rw [roundWithAccuracy]
  generalize shiftToTargetExponent Format.binary64 m₀ e acc = shifted at *
  obtain ⟨em, t⟩ := shifted
  dsimp only at hstands hcases ⊢
  rcases hcases with rfl | ⟨rfl, rfl, hleast, hbelow⟩
  · -- The first shift reaches the exponent of the double.
    have hrounded := hstands.roundedMantissa_eq hv.nearest
    simp only [hrounded, shiftToTargetExponent_canonical hcanon, hcanon.pos.ne', dif_neg,
      not_false_eq_true]
  · -- The value lies below a power of two and is rounded up to it.
    have hdouble : v / 2 ^ (q - 1) = 2 * (v / 2 ^ q) := by
      rw [zpow_sub_one₀ two_ne_zero]
      field_simp
    have hlow := hv.low rfl hleast
    have hnearest : IsNearest (2 ^ (53 : Nat)) (v / 2 ^ (q - 1)) := by
      rw [hdouble]
      refine ⟨?_, ?_, fun hodd => absurd hodd (by decide)⟩
      · norm_num at hlow ⊢
        linarith
      · norm_num at hbelow ⊢
        linarith
    have hrounded := hstands.roundedMantissa_eq hnearest
    have hq : -1074 < q := by have := hcanon.least; omega
    simp only [hrounded, shiftToTargetExponent_carry hq]
    rfl

end Pacing.Double
