import Mathlib
import Pacing.Proofs.DoubleRounding

/-!
# The parts of a double

A finite double other than zero has a sign, a mantissa and an exponent, which its bits give and
which determine it. From them comes the interval of the decimals that round to it.
-/

namespace Pacing.Double

open Float.Model Float.Model.UnpackedFloat

-- Powers are those of the core library, whatever else is in scope.
attribute [local instance (high)] instPowNat instNatPowNat

/-- The exponent of a double is in the eleven bits before its mantissa. -/
theorem toNat_unpackExponent (b : BitVec 64) :
    (@unpackExponent Format.binary64 b).toNat = b.toNat / 2 ^ (52 : Nat) % 2 ^ (11 : Nat) := by
  simp [unpackExponent, BitVec.extractLsb_toNat, Nat.shiftRight_eq_div_pow]

/-- The mantissa of a double is in its last 52 bits. -/
theorem toNat_unpackMantissa (b : BitVec 64) :
    (@unpackMantissa Format.binary64 b).toNat = b.toNat % 2 ^ (52 : Nat) := by
  simp [unpackMantissa, BitVec.extractLsb_toNat]

/-- The sign of a double is its first bit. -/
theorem toNat_unpackSign (b : BitVec 64) :
    (@unpackSign Format.binary64 b).toNat = b.toNat / 2 ^ (63 : Nat) := by
  have := b.isLt
  simp [unpackSign, BitVec.extractLsb_toNat, Nat.shiftRight_eq_div_pow]
  omega

/-- The bit that a mantissa leaves out counts `2 ^ 52`. -/
theorem toNat_one_append (v : BitVec 52) : (1#1 ++ v).toNat = v.toNat + 2 ^ (52 : Nat) := by
  have := v.isLt
  rw [BitVec.toNat_append, show (1#1).toNat <<< 52 = 2 ^ (52 : Nat) * 1 from rfl,
    ← Nat.two_pow_add_eq_or_of_lt this]
  omega

/-- The bias of the exponents of doubles, whose mantissas are taken for whole numbers. -/
theorem bias_eq : (Format.binary64.exponentBias : Int) + (52 : Nat) = 1075 := by decide

/-- A finite double other than zero is taken apart into sign, mantissa and exponent, as its bits
give them. -/
theorem of_unpack_eq_finite {b : BitVec 64} {sign : Sign} {m : Nat} {q : Int} {hm : 0 < m}
    (h : UnpackedFloat.unpack Format.binary64 b = .finite sign m q hm) :
    let exponent := b.toNat / 2 ^ (52 : Nat) % 2 ^ (11 : Nat)
    let fraction := b.toNat % 2 ^ (52 : Nat)
    sign = .ofBitVec (@unpackSign Format.binary64 b) ∧ exponent < 2047 ∧
      m = (if exponent = 0 then fraction else fraction + 2 ^ (52 : Nat)) ∧
      q = (max exponent 1 : Nat) - 1075 := by
  intro exponent fraction
  have hfraction : (@unpackMantissa Format.binary64 b).toNat = fraction := toNat_unpackMantissa b
  have hexponent : (@unpackExponent Format.binary64 b).toNat = exponent := toNat_unpackExponent b
  have heq_iff (e : BitVec 11) : @unpackExponent Format.binary64 b = e ↔ exponent = e.toNat := by
    rw [← BitVec.toNat_inj, hexponent]
  unfold UnpackedFloat.unpack at h
  dsimp only at h
  -- The largest exponent is that of infinities and NaN, the exponent zero that of doubles without a
  -- leading bit.
  split at h
  · split at h <;> cases h
  · rename_i hfull
    have hfull : exponent ≠ 2047 := (heq_iff _).not.mp hfull
    have hlt : exponent < 2048 := Nat.mod_lt _ (by decide)
    split at h
    · rename_i hzero
      have hzero : exponent = 0 := (heq_iff _).mp hzero
      split at h
      · cases h
      · cases h
        refine ⟨rfl, by omega, ?_, ?_⟩
        · rw [if_pos hzero]
          exact hfraction
        · rw [hexponent, bias_eq]
          omega
    · rename_i hnonzero
      have hnonzero : exponent ≠ 0 := (heq_iff _).not.mp hnonzero
      cases h
      refine ⟨rfl, by omega, ?_, ?_⟩
      · rw [if_neg hnonzero, toNat_one_append, hfraction]
      · rw [hexponent, bias_eq]
        omega

/-- A double with a full mantissa is put together from its parts. -/
theorem unpack_pack {sign : Sign} {m : Nat} {q : Int} (hm : 0 < m) (hfull : 2 ^ (52 : Nat) ≤ m)
    (hlt : m < 2 ^ (53 : Nat)) (hleast : -1074 ≤ q) (hmost : q ≤ 971) :
    (Float.Model.pack (.finite sign m q hm)).unpack = .finite sign m q hm := by
  have hlog : m.log2 = 52 := (Nat.log2_eq_iff hm.ne').mpr ⟨hfull, hlt⟩
  have hbiased : (q + Format.binary64.exponentBias + (52 : Nat)).toNat = (q + 1075).toNat := by
    have := bias_eq
    omega
  have hpack : UnpackedFloat.pack Format.binary64 (.finite sign m q hm) =
      packComponents Format.binary64 sign (.ofNat 11 (q + 1075).toNat) (.ofNat 52 m) := by
    unfold UnpackedFloat.pack
    dsimp only
    rw [hbiased, hlog, if_neg (by omega), if_pos (by decide)]
  have hexponent : (BitVec.ofNat 11 (q + 1075).toNat).toNat = (q + 1075).toNat := by
    rw [BitVec.toNat_ofNat, Nat.mod_eq_of_lt (by omega)]
  have hmantissa : (1#1 ++ BitVec.ofNat 52 m).toNat = m := by
    rw [toNat_one_append, BitVec.toNat_ofNat]
    omega
  have hne (b : BitVec 11) (hb : (q + 1075).toNat ≠ b.toNat) :
      BitVec.ofNat 11 (q + 1075).toNat ≠ b := by
    rintro rfl
    exact hb hexponent.symm
  have hfinite := hne (-1#11) (by simp; omega)
  have hnormal := hne 0#11 (by simp; omega)
  change UnpackedFloat.unpack Format.binary64 (UnpackedFloat.pack Format.binary64 _) = _
  rw [hpack]
  unfold UnpackedFloat.unpack
  simp only [unpackExponent_packComponents, unpackMantissa_packComponents,
    unpackSign_packComponents, Sign.ofBitVec_toBitVec, hfinite, hnormal, if_false, hexponent,
    bias_eq, hmantissa]
  congr 1
  omega

/-- A finite double other than zero, with its sign, its mantissa and its exponent. -/
structure Parts (x : Float) (sign : Sign) (m : Nat) (q : Int) : Prop where
  canonical : Canonical m q
  most : q ≤ 971
  unpack : x.toModel.unpack = .finite sign m q canonical.pos

variable {x y : Float} {sign : Sign} {m : Nat} {q : Int}

/-- A double is determined by its parts. -/
theorem Parts.eq_ofModel (h : Parts x sign m q) :
    Float.ofModel (.pack (.finite sign m q h.canonical.pos)) = x := by
  rw [← h.unpack]
  apply Float.toBits_inj.mp
  apply UInt64.toBitVec_inj.mp
  exact pack_unpack_of_valid x.toModel.valid

/-- A double and the one of the other sign are each other's negatives. -/
theorem Parts.neg_eq (hx : Parts x .positive m q) (hy : Parts y .negative m q) : -x = y := by
  refine Eq.trans ?_ hy.eq_ofModel
  change Float.ofModel (.pack x.toModel.unpack.neg) = _
  rw [hx.unpack]
  rfl

/-- Every finite double other than zero has parts. -/
theorem exists_parts (hfinite : x.isFinite = true) (hx : (x == 0) = false) :
    ∃ sign m q, Parts x sign m q := by
  have hzero : ∀ sign, x.toModel.unpack ≠ .zero sign := by
    intro sign hzero
    have hbeq : (x == 0) = x.toModel.unpack.beq (0 : Float).toModel.unpack := rfl
    rw [hbeq, hzero] at hx
    cases sign <;> exact absurd hx (by decide)
  change x.toModel.unpack.isFinite = true at hfinite
  cases hparts : x.toModel.unpack with
  | infinity sign =>
    rw [hparts] at hfinite
    cases hfinite
  | notANumber =>
    rw [hparts] at hfinite
    cases hfinite
  | zero sign => exact absurd hparts (hzero sign)
  | finite sign m q hm =>
    obtain ⟨-, hexponent, hm', hq⟩ := of_unpack_eq_finite hparts
    have hmod := Nat.mod_lt x.toModel.toBits.toBitVec.toNat (show 0 < 2 ^ (52 : Nat) by decide)
    refine ⟨sign, m, q, ⟨hm, ?_, ?_, ?_⟩, ?_, hparts⟩
    all_goals split at hm' <;> omega

/-- The sign of a double is its highest bit. -/
theorem Parts.sign_eq (h : Parts x sign m q) :
    sign = if x.toBits.toNat / 2 ^ (63 : Nat) = 1 then .negative else .positive := by
  have hsign := (of_unpack_eq_finite h.unpack).1
  have hbit := toNat_unpackSign x.toModel.toBits.toBitVec
  change _ = x.toBits.toNat / 2 ^ (63 : Nat) at hbit
  rw [hsign, ← hbit, Sign.ofBitVec]
  generalize @unpackSign Format.binary64 x.toModel.toBits.toBitVec = b
  have hcases : b = 0#1 ∨ b = 1#1 := by decide +revert
  rcases hcases with rfl | rfl <;> rfl

/-! ## The interval of a double -/

/-- The lower end of the interval of a double, in quarters of the unit of its mantissa. -/
def lowQuarters (m : Nat) (q : Int) : Nat :=
  if m = 2 ^ (52 : Nat) ∧ q ≠ -1074 then 4 * m - 1 else 4 * m - 2

/-- The interval of decimals that are read as a double, by its mantissa and its exponent. -/
theorem ofFloat_eq (h : Parts x sign m q) :
    Decimal.Rounding.ofFloat x =
      { value := 4 * m * 2 ^ (q - 2).toNat
        low := lowQuarters m q * 2 ^ (q - 2).toNat
        high := (4 * m + 2) * 2 ^ (q - 2).toNat
        den := 2 ^ (2 - q).toNat
        closed := m % 2 = 0 } := by
  obtain ⟨-, hexponent, hm, hq⟩ := of_unpack_eq_finite h.unpack
  change x.toModel.toBits.toBitVec.toNat / 2 ^ (52 : Nat) % 2 ^ (11 : Nat) < 2047 at hexponent
  have hbits : x.toModel.toBits.toBitVec.toNat = x.toBits.toNat := rfl
  rw [hbits] at hexponent hm hq
  have hexp : x.toBits.toNat % 2 ^ (63 : Nat) / 2 ^ (52 : Nat) =
    x.toBits.toNat / 2 ^ (52 : Nat) % 2 ^ (11 : Nat) := by omega
  have hfrac : x.toBits.toNat % 2 ^ (63 : Nat) % 2 ^ (52 : Nat) =
    x.toBits.toNat % 2 ^ (52 : Nat) := by omega
  unfold Decimal.Rounding.ofFloat
  dsimp only
  rw [hexp, hfrac, ← hm]
  rw [← hq]
  have hpower : (x.toBits.toNat % 2 ^ (52 : Nat) = 0 ∧
      1 < x.toBits.toNat / 2 ^ (52 : Nat) % 2 ^ (11 : Nat)) ↔ m = 2 ^ (52 : Nat) ∧ q ≠ -1074 := by
    split at hm <;> omega
  simp only [hpower, neg_sub, lowQuarters]

/-- A fraction of powers is a power. -/
theorem pow_toNat_div {b : Nat} (hb : b ≠ 0) (p : Int) :
    ((b ^ p.toNat : Nat) : ℚ) / (b ^ (-p).toNat : Nat) = (b : ℚ) ^ p := by
  have hb : (b : ℚ) ≠ 0 := Nat.cast_ne_zero.mpr hb
  rw [Nat.cast_pow, Nat.cast_pow, ← zpow_natCast, ← zpow_natCast, ← zpow_sub₀ hb]
  congr 1
  omega

/-- A value in the interval of a double is rounded to it; the ends of the interval belong to it for
even mantissas only. -/
theorem rounds_of_quarters {v : ℚ} (hm : 0 < m)
    (hclosed : lowQuarters m q ≤ 4 * (v / 2 ^ q) ∧ 4 * (v / 2 ^ q) ≤ (4 * m + 2 : Nat))
    (hopen : m % 2 = 1 →
      lowQuarters m q < 4 * (v / 2 ^ q) ∧ 4 * (v / 2 ^ q) < (4 * m + 2 : Nat)) :
    Rounds m q v := by
  have hlow : (4 : ℚ) * m ≤ lowQuarters m q + 2 := by
    have : 4 * m ≤ lowQuarters m q + 2 := by
      unfold lowQuarters
      split <;> omega
    exact_mod_cast this
  push_cast at hclosed hopen
  refine ⟨⟨by linarith, by linarith, fun hodd => ?_⟩, fun hpower hleast => ?_⟩
  · have := hopen hodd
    constructor <;> linarith
  · have : (4 : ℚ) * m ≤ lowQuarters m q + 1 := by
      have : 4 * m ≤ lowQuarters m q + 1 := by
        rw [lowQuarters, if_pos ⟨hpower, hleast⟩]
        omega
      exact_mod_cast this
    linarith

/-- In quarters of the unit of a mantissa, a decimal is a fraction of whole numbers. -/
theorem quarters_eq (c : Nat) (p q : Int) :
    4 * ((c : ℚ) * 10 ^ p / 2 ^ q) = (c * 10 ^ p.toNat * 2 ^ (2 - q).toNat : Nat) /
      (2 ^ (q - 2).toNat * 10 ^ (-p).toNat : Nat) := by
  have hten := pow_toNat_div (b := 10) (by decide) p
  have htwo := pow_toNat_div (b := 2) (by decide) (q - 2)
  have hunit : (2 : ℚ) ^ q = 4 * 2 ^ (q - 2) := by
    rw [zpow_sub₀ two_ne_zero]
    norm_num
    ring
  rw [neg_sub, Nat.cast_ofNat] at htwo
  rw [Nat.cast_ofNat] at hten
  rw [hunit, ← hten, ← htwo]
  push_cast
  field_simp

/-- A decimal lies in the interval of a double if it does so in quarters of the unit of the
mantissa; the ends of the interval belong to it when the mantissa is even. -/
theorem holds_iff (h : Parts x sign m q) {p : Int} {c : Nat} :
    (Decimal.Rounding.ofFloat x).Holds (10 ^ p.toNat) (10 ^ (-p).toNat) c ↔
      if m % 2 = 0 then
        lowQuarters m q ≤ 4 * ((c : ℚ) * 10 ^ p / 2 ^ q) ∧
          4 * ((c : ℚ) * 10 ^ p / 2 ^ q) ≤ (4 * m + 2 : Nat)
      else
        lowQuarters m q < 4 * ((c : ℚ) * 10 ^ p / 2 ^ q) ∧
          4 * ((c : ℚ) * 10 ^ p / 2 ^ q) < (4 * m + 2 : Nat) := by
  rw [ofFloat_eq h, Decimal.Rounding.Holds]
  simp only [decide_eq_true_eq]
  have hquarters := quarters_eq c p q
  have hpos : (0 : ℚ) < (2 ^ (q - 2).toNat * 10 ^ (-p).toNat : Nat) :=
    Nat.cast_pos.mpr (Nat.mul_pos (Nat.pow_pos (by decide)) (Nat.pow_pos (by decide)))
  have hle (a : Nat) : a * 2 ^ (q - 2).toNat * 10 ^ (-p).toNat ≤
      c * 10 ^ p.toNat * 2 ^ (2 - q).toNat ↔ (a : ℚ) ≤ 4 * (c * 10 ^ p / 2 ^ q) := by
    rw [hquarters, le_div_iff₀ hpos, ← Nat.cast_mul, Nat.cast_le, Nat.mul_assoc a]
  have hge (a : Nat) : c * 10 ^ p.toNat * 2 ^ (2 - q).toNat ≤
      a * 2 ^ (q - 2).toNat * 10 ^ (-p).toNat ↔ 4 * ((c : ℚ) * 10 ^ p / 2 ^ q) ≤ a := by
    rw [hquarters, div_le_iff₀ hpos, ← Nat.cast_mul, Nat.cast_le, Nat.mul_assoc a]
  rw [hle, hge, lt_iff_lt_of_le_iff_le (hge _), lt_iff_lt_of_le_iff_le (hle _)]

/-- Whether the ends belong to the interval does not matter to what lies between them. -/
theorem holds_of_lt (h : Parts x sign m q) {p : Int} {c : Nat}
    (hlow : lowQuarters m q < 4 * ((c : ℚ) * 10 ^ p / 2 ^ q))
    (hhigh : 4 * ((c : ℚ) * 10 ^ p / 2 ^ q) < (4 * m + 2 : Nat)) :
    (Decimal.Rounding.ofFloat x).Holds (10 ^ p.toNat) (10 ^ (-p).toNat) c := by
  rw [holds_iff h]
  split
  · exact ⟨hlow.le, hhigh.le⟩
  · exact ⟨hlow, hhigh⟩

/-- A decimal in the interval of a double rounds to it. -/
theorem rounds_of_holds (h : Parts x sign m q) {p : Int} {c : Nat}
    (hc : (Decimal.Rounding.ofFloat x).Holds (10 ^ p.toNat) (10 ^ (-p).toNat) c) :
    Rounds m q (c * 10 ^ p) := by
  rw [holds_iff h] at hc
  refine rounds_of_quarters h.canonical.pos ?_ fun hodd => ?_
  · split at hc
    · exact hc
    · exact ⟨hc.1.le, hc.2.le⟩
  · rwa [if_neg (by omega)] at hc

end Pacing.Double
