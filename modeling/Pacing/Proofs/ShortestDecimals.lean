import Pacing.Proofs.DoubleParts

/-!
# The shortest decimal of a double

The shortest decimal of a double is looked for on one grid of decimals after another, each finer
than the one before, among the two points next to the double. Seventeen digits are always enough:
the grid is then finer than the interval of the double. So the search ends, and what it finds
rounds to the double.
-/

namespace Pacing.Decimal

open Double Float.Model.UnpackedFloat

-- Powers are those of the core library, whatever else is in scope.
attribute [local instance (high)] instPowNat instNatPowNat

variable {x : Float} {sign : Sign} {m : Nat} {q : Int}

/-- The fraction that a double is taken apart into has a positive denominator. -/
theorem Rounding.den_pos (h : Parts x sign m q) : 0 < (Rounding.ofFloat x).den := by
  rw [ofFloat_eq h]
  exact Nat.pow_pos (by decide)

/-- The fraction that a double is taken apart into has its value. -/
theorem Rounding.value_div_den (h : Parts x sign m q) :
    ((Rounding.ofFloat x).value : ℚ) / (Rounding.ofFloat x).den = m * 2 ^ q := by
  have htwo := pow_toNat_div (b := 2) (by decide) (q - 2)
  rw [ofFloat_eq h]
  rw [neg_sub] at htwo
  dsimp only
  rw [Nat.cast_mul, mul_div_assoc, htwo, Nat.cast_ofNat, zpow_sub₀ two_ne_zero]
  push_cast
  ring

/-- A quotient of whole numbers is the whole part of the fraction. -/
theorem div_bounds (a : Nat) {n : Nat} (hn : 0 < n) :
    ((a / n : Nat) : ℚ) ≤ a / n ∧ (a : ℚ) / n < (a / n : Nat) + 1 := by
  rw [← Nat.floor_div_eq_div (K := ℚ) a n]
  exact ⟨Nat.floor_le (by positivity), Nat.lt_floor_add_one _⟩

/-- A positive number lies between the powers of ten that its length gives. -/
theorem length_toDigits_bounds {n : Nat} (hn : 0 < n) :
    10 ^ ((Nat.toDigits 10 n).length - 1) ≤ n ∧ n < 10 ^ (Nat.toDigits 10 n).length := by
  have hpos : 0 < (Nat.toDigits 10 n).length := Nat.length_toDigits_pos
  refine ⟨?_, (Nat.length_toDigits_le_iff (by decide) hpos).mp le_rfl⟩
  rcases Nat.eq_or_lt_of_le (Nat.succ_le_of_lt hpos) with hone | hmore
  · rw [← hone]
    exact hn
  · have hnot := (Nat.length_toDigits_le_iff (b := 10) (n := n)
      (k := (Nat.toDigits 10 n).length - 1) (by decide) (by omega)).not
    exact not_lt.mp (hnot.mp (by omega))

/-- A power of ten outweighs the power of two with three times its exponent. -/
theorem one_le_zpow_mul_pow {k n : Nat} (hk : k ≤ 3 * n) :
    1 ≤ (2 : ℚ) ^ (-(k : Int)) * (10 ^ n : Nat) := by
  have hpow : (2 : ℚ) ^ k ≤ (10 ^ n : Nat) :=
    calc (2 : ℚ) ^ k ≤ 2 ^ (3 * n) := pow_le_pow_right₀ one_le_two hk
      _ = (2 ^ 3) ^ n := pow_mul 2 3 n
      _ ≤ 10 ^ n := pow_le_pow_left₀ (by positivity) (by norm_num) n
      _ = (10 ^ n : Nat) := by push_cast; rfl
  rw [zpow_neg, zpow_natCast, inv_mul_eq_div, one_le_div (by positivity)]
  exact hpow

/-- A power of ten that is scaled down and up again is the one that it was. -/
theorem zpow_sub_mul_pow (k n : Nat) :
    (10 : ℚ) ^ ((k : Int) - n) * (10 ^ n : Nat) = (10 ^ k : Nat) := by
  rw [zpow_sub₀ (by norm_num), zpow_natCast, zpow_natCast, Nat.cast_pow, Nat.cast_pow,
    Nat.cast_ofNat, div_mul_cancel₀ _ (pow_ne_zero _ (by norm_num))]

/-- The digits before the point of a number that is scaled by a power of ten place it between two
powers of ten. -/
theorem magnitude_of_scaled {v : ℚ} {n whole : Nat} (hwhole : 0 < whole)
    (hlow : whole ≤ v * (10 ^ n : Nat)) (hhigh : v * (10 ^ n : Nat) < whole + 1) :
    (10 : ℚ) ^ (((Nat.toDigits 10 whole).length : Int) - n - 1) ≤ v ∧
      v < 10 ^ (((Nat.toDigits 10 whole).length : Int) - n) := by
  obtain ⟨hleast, hmost⟩ := length_toDigits_bounds hwhole
  have hpos : 0 < (Nat.toDigits 10 whole).length := Nat.length_toDigits_pos
  generalize (Nat.toDigits 10 whole).length = L at *
  have hscale : (0 : ℚ) < (10 ^ n : Nat) := Nat.cast_pos.mpr (Nat.pow_pos (by decide))
  constructor
  · refine le_of_mul_le_mul_right ?_ hscale
    rw [show (L : Int) - n - 1 = (L - 1 : Nat) - n by omega, zpow_sub_mul_pow]
    exact (Nat.cast_le.mpr hleast).trans hlow
  · refine lt_of_mul_lt_mul_right ?_ hscale.le
    rw [zpow_sub_mul_pow]
    exact hhigh.trans_le (by exact_mod_cast hmost)

/-- No double other than zero is so small that it has no digits once it is scaled. -/
theorem one_le_scaled (h : Parts x sign m q) {n : Nat} (hn : 1074 ≤ 3 * n) :
    1 ≤ (m : ℚ) * 2 ^ q * (10 ^ n : Nat) := by
  have hm : (1 : ℚ) ≤ m := by exact_mod_cast h.canonical.pos
  have hleast : (2 : ℚ) ^ (-(1074 : Nat) : Int) ≤ m * 2 ^ q :=
    (zpow_le_zpow_right₀ one_le_two h.canonical.least).trans
      (le_mul_of_one_le_left (by positivity) hm)
  exact (one_le_zpow_mul_pow hn).trans (mul_le_mul_of_nonneg_right hleast (Nat.cast_nonneg _))

/-- The number of digits places a double between two powers of ten. -/
theorem Rounding.magnitude_spec (h : Parts x sign m q) :
    (10 : ℚ) ^ ((Rounding.ofFloat x).magnitude - 1) ≤ m * 2 ^ q ∧
      (m : ℚ) * 2 ^ q < 10 ^ (Rounding.ofFloat x).magnitude := by
  have hgrains := one_le_scaled h (n := 400) (by decide)
  obtain ⟨hlow, hhigh⟩ := div_bounds ((Rounding.ofFloat x).value * 10 ^ (400 : Nat)) (den_pos h)
  rw [Nat.cast_mul, mul_div_right_comm, value_div_den h] at hlow hhigh
  have hwhole : (0 : ℚ) < ((Rounding.ofFloat x).value * 10 ^ (400 : Nat) /
      (Rounding.ofFloat x).den : Nat) := by linarith
  exact magnitude_of_scaled (n := 400) (Nat.cast_pos.mp hwhole) hlow hhigh

namespace Rounding

variable {c : Nat} {p : Int}

/-- A point that is found on a grid lies in the interval. -/
theorem holds_of_onGrid? {r : Rounding} (h : r.onGrid? p = some c) :
    r.Holds (10 ^ p.toNat) (10 ^ (-p).toNat) c := by
  unfold onGrid? at h
  dsimp only at h
  split at h
  · split at h
    · cases h
      rename_i hboth
      exact hboth.1
    · cases h
      assumption
  · split at h
    · cases h
      assumption
    · cases h

/-- The point of a grid before a double. -/
def below (r : Rounding) (p : Int) : Nat :=
  r.value * 10 ^ (-p).toNat / (10 ^ p.toNat * r.den)

/-- A point is found on a grid when one of the two next to the double lies in the interval. -/
theorem isSome_onGrid? {r : Rounding}
    (h : r.Holds (10 ^ p.toNat) (10 ^ (-p).toNat) (r.below p) ∨
      r.Holds (10 ^ p.toNat) (10 ^ (-p).toNat) (r.below p + 1)) : (r.onGrid? p).isSome = true := by
  unfold onGrid?
  dsimp only
  rw [below] at h
  split
  · split <;> rfl
  · rename_i hnot
    rw [if_pos (h.resolve_left hnot)]
    rfl

/-- A double lies between two neighbouring points of each grid. -/
theorem below_bounds (h : Parts x sign m q) (p : Int) :
    ((ofFloat x).below p : ℚ) * 10 ^ p ≤ m * 2 ^ q ∧
      (m : ℚ) * 2 ^ q < ((ofFloat x).below p + 1 : Nat) * 10 ^ p := by
  have hten := pow_toNat_div (b := 10) (by decide) p
  have hp : (0 : ℚ) < 10 ^ p := zpow_pos (by norm_num) p
  obtain ⟨hlow, hhigh⟩ := div_bounds ((ofFloat x).value * 10 ^ (-p).toNat)
    (Nat.mul_pos (Nat.pow_pos (by decide : 0 < 10)) (den_pos h) :
      0 < 10 ^ p.toNat * (ofFloat x).den)
  have hvalue : (((ofFloat x).value * 10 ^ (-p).toNat : Nat) : ℚ) /
      (10 ^ p.toNat * (ofFloat x).den : Nat) = m * 2 ^ q / 10 ^ p := by
    rw [Nat.cast_ofNat] at hten
    rw [← value_div_den h, ← hten]
    push_cast
    field_simp
  rw [hvalue] at hlow hhigh
  push_cast
  exact ⟨(le_div_iff₀ hp).mp hlow, (div_lt_iff₀ hp).mp hhigh⟩

/-- The interval of a double reaches down by more than half the step of a grid whose step fits into
the mantissa ten quadrillion times. -/
theorem lowQuarters_lt (h : Canonical m q) {step : ℚ} (hstep : step * 10 ^ 16 ≤ m) :
    (lowQuarters m q : ℚ) < 4 * m - 2 * step := by
  have hpos := h.pos
  have hm : (m : ℚ) < 2 ^ 53 := by exact_mod_cast h.lt
  unfold lowQuarters
  split
  · rename_i hpower
    have hm : (m : ℚ) = 2 ^ 52 := by exact_mod_cast hpower.1
    rw [Nat.cast_sub (by omega)]
    push_cast
    linarith
  · rw [Nat.cast_sub (by omega)]
    push_cast
    linarith

/-- On a grid that is fine enough, one of the points next to a double lies in its interval. -/
theorem isSome_onGrid?_of_le (h : Parts x sign m q) (hp : (10 : ℚ) ^ p * 10 ^ 16 ≤ m * 2 ^ q) :
    ((ofFloat x).onGrid? p).isSome = true := by
  have hunit : (0 : ℚ) < 2 ^ q := zpow_pos two_pos q
  obtain ⟨hbelow, habove⟩ := below_bounds h p
  -- All is measured in the unit of the mantissa from here on.
  have hstep : (10 : ℚ) ^ p / 2 ^ q * 10 ^ 16 ≤ m := by
    rw [div_mul_eq_mul_div, div_le_iff₀ hunit]
    exact hp
  have hbelow : ((ofFloat x).below p : ℚ) * 10 ^ p / 2 ^ q ≤ m := by
    rwa [div_le_iff₀ hunit]
  have habove : (m : ℚ) < ((ofFloat x).below p + 1 : Nat) * 10 ^ p / 2 ^ q := by
    rwa [lt_div_iff₀ hunit]
  have hnext : (((ofFloat x).below p + 1 : Nat) : ℚ) * 10 ^ p / 2 ^ q =
      (ofFloat x).below p * 10 ^ p / 2 ^ q + 10 ^ p / 2 ^ q := by
    push_cast
    ring
  have hm : (m : ℚ) < 2 ^ 53 := by exact_mod_cast h.canonical.lt
  have hlow := lowQuarters_lt h.canonical hstep
  -- The nearer of the two points is at most half a step away.
  refine isSome_onGrid? ?_
  by_cases hnear : (m : ℚ) - (ofFloat x).below p * 10 ^ p / 2 ^ q ≤ 10 ^ p / 2 ^ q / 2
  · left
    refine holds_of_lt h ?_ ?_
    · linarith
    · push_cast
      linarith
  · right
    refine holds_of_lt h ?_ ?_
    · linarith
    · push_cast at *
      linarith

end Rounding

/-- The shortest decimal of a double is a point of a grid that lies in the interval of the double:
17 digits are always enough. -/
theorem shortest_spec (h : Parts x sign m q) :
    ∃ c p, (Rounding.ofFloat x).onGrid? p = some c ∧
      ((shortest x).coefficient : ℚ) * 10 ^ (shortest x).power = c * 10 ^ p := by
  unfold shortest
  dsimp only
  split
  · -- A ten that is found is written as a one, in the place before.
    rename_i p hfound
    obtain ⟨i, -, hi⟩ := List.exists_of_findSome?_eq_some hfound
    obtain ⟨c, hgrid, hs⟩ := Option.map_eq_some_iff.mp hi
    obtain ⟨rfl, rfl⟩ := Scaled.mk.inj hs
    refine ⟨_, _, hgrid, ?_⟩
    rw [zpow_add_one₀ (by norm_num)]
    push_cast
    ring
  · rename_i s _ hfound
    obtain ⟨i, -, hi⟩ := List.exists_of_findSome?_eq_some hfound
    obtain ⟨c, hgrid, rfl⟩ := Option.map_eq_some_iff.mp hi
    exact ⟨c, _, hgrid, rfl⟩
  · -- Nothing would have to be found even on the finest grid.
    rename_i hnone
    have hlast := List.findSome?_eq_none_iff.mp hnone 16 (by decide)
    have hfine := Rounding.isSome_onGrid?_of_le (p := (Rounding.ofFloat x).magnitude - 17) h (by
      rw [← zpow_natCast, ← zpow_add₀ (by norm_num)]
      convert (Rounding.magnitude_spec h).1 using 2
      push_cast
      ring)
    rw [Option.map_eq_none_iff] at hlast
    rw [show (Rounding.ofFloat x).magnitude - 17 = (Rounding.ofFloat x).magnitude - (16 + 1 : Nat)
      from rfl, hlast] at hfine
    cases hfine

/-- The shortest decimal of a double rounds to it. -/
theorem rounds_shortest (h : Parts x sign m q) :
    Rounds m q ((shortest x).coefficient * 10 ^ (shortest x).power) := by
  obtain ⟨c, p, hgrid, hvalue⟩ := shortest_spec h
  rw [hvalue]
  exact rounds_of_holds h (Rounding.holds_of_onGrid? hgrid)

/-- The shortest decimal of a positive double is positive. -/
theorem shortest_pos (h : Parts x sign m q) : 0 < (shortest x).coefficient :=
  (rounds_shortest h).coefficient_pos h.canonical.pos

end Pacing.Decimal
